import TreeQuery.Proofs.Tree.Ancestry

namespace TreeQuery

open TreeQuery.Tree

namespace Handle

/-- Take two handles on nodes of a tree, each without an index or with the index of any part of it.
Climbing from the first comes to an end by itself. There is a path down to it from the second just when
its node is in the tree under the second's, and then the path is the only list of nodes that leads
down from the one to the other, none of them twice. -/
theorem pathFromRoot_only_way (t : Tree Label) (h root : Handle) (hh : h.Within t.placed)
    (hr : root.Within t.placed) :
    (∃ passed top, Climbs root h passed top ∧ climb root h.place h [] = (top, passed)) ∧
    ((pathFromRoot h root).isSome ↔ h.node ∈ root.node.preorder) ∧
    ∀ path, pathFromRoot h root = some path →
      LeadsDown root.node h.node (path.map node) ∧ (path.map place).Nodup ∧
      ∀ other, LeadsDown root.node h.node other → other = path.map node := by
  have ordered := ordered_placed t
  have sound := hh.sound ordered
  have rootSound := hr.sound ordered
  refine ⟨?_, ?_, fun path found => ?_⟩
  · obtain ⟨passed, top, climbs⟩ := sound.exists_climbs ordered root
    have climbed := climbs.climb_eq ordered sound (Nat.le_refl _) []
    rw [List.append_nil] at climbed
    exact ⟨passed, top, climbs, climbed⟩
  · constructor
    · intro isSome
      obtain ⟨path, found⟩ := Option.isSome_iff_exists.mp isSome
      obtain ⟨way, descent, -, -⟩ := descent_of_pathFromRoot ordered rootSound sound found
      exact descent.mem_preorder
    · intro below
      obtain ⟨way, descent⟩ := Descent.exists_of_mem below
      obtain ⟨path, found, -, -⟩ := pathFromRoot_of_descent ordered hr.node sound descent
      rw [found]
      rfl
  · obtain ⟨way, descent, nodes, -⟩ := descent_of_pathFromRoot ordered rootSound sound found
    refine ⟨nodes ▸ descent.leadsDown, (pathFromRoot_sound ordered rootSound sound found).2, ?_⟩
    intro other leads
    obtain ⟨way', rfl, descent'⟩ := leads.descent
    rw [nodes, descent.unique ordered hr.node descent']

/-- The index knows the parents of the two lowest nodes, and the root lies above where it ends. -/
theorem pathFromRoot_only_way_past_index :
    let d : Tree Label := .named "d"
    let c : Tree Label := ⟨{ name := "c" }, [d]⟩
    let b : Tree Label := ⟨{ name := "b" }, [c]⟩
    let t : Tree Label := ⟨{ name := "a" }, [b]⟩
    let h := (ParentIndex.build (b.placedFrom 1)).handle (d.placedFrom 3)
    h.Within t.placed ∧ (plain t.placed).Within t.placed ∧
      ∃ path, pathFromRoot h (plain t.placed) = some path ∧ path.map place = [0, 1, 2, 3] := by
  intro d c b t h
  have hh : h.Within t.placed := within_build (by decide) (by decide)
  have hr : (plain t.placed).Within t.placed := within_plain t.placed.self_mem_preorder
  obtain ⟨-, isSome, unique⟩ := pathFromRoot_only_way t h (plain t.placed) hh hr
  obtain ⟨path, found⟩ := Option.isSome_iff_exists.mp (isSome.mpr hh.node)
  have nodes := (unique path found).2.2
    [t.placed, b.placedFrom 1, c.placedFrom 2, d.placedFrom 3]
    ⟨rfl, rfl, by decide⟩
  refine ⟨hh, hr, path, found, ?_⟩
  have places := congrArg (List.map Tree.place) nodes
  rw [List.map_map] at places
  exact places.symm

end Handle

end TreeQuery
