import Mathlib.Data.List.Perm.Subperm
import TreeQuery.Proofs.Tree.Relabel
import TreeQuery.Proofs.Tree.Shift
import TreeQuery.Proofs.Tree.Walk

namespace TreeQuery.Tree

open List (Subperm)

section

variable {α : Type}

/-- A node of a tree and the nodes above it, the topmost first. -/
structure Occurrence (α : Type) where
  above : List (Tree α)
  node : Tree α

/-- The same occurrence in a tree whose topmost node is `t`. -/
def Occurrence.under (t : Tree α) (o : Occurrence α) : Occurrence α := ⟨t :: o.above, o.node⟩

mutual
/-- All nodes in preorder, each with the nodes above it. -/
def occurrences : Tree α → List (Occurrence α)
  | ⟨label, children⟩ =>
    ⟨[], ⟨label, children⟩⟩ ::
      (occurrencesEach children).map (Occurrence.under ⟨label, children⟩)
/-- All nodes of several trees, each with the nodes above it. -/
def occurrencesEach : List (Tree α) → List (Occurrence α)
  | [] => []
  | t :: ts => t.occurrences ++ occurrencesEach ts
end

/-- The nodes in preorder that have no pruned node above them. -/
def unpruned (pruned : Tree α → Bool) (t : Tree α) : List (Tree α) :=
  (t.occurrences.filter fun o => !o.above.any pruned).map Occurrence.node

theorem occurrencesEach_eq_flatMap (ts : List (Tree α)) :
    occurrencesEach ts = ts.flatMap occurrences := by
  induction ts with
  | nil => rfl
  | cons t ts ih => rw [occurrencesEach, ih, List.flatMap_cons]

theorem occurrences_eq (t : Tree α) :
    t.occurrences = ⟨[], t⟩ :: (t.children.flatMap occurrences).map (Occurrence.under t) := by
  cases t
  rw [occurrences, occurrencesEach_eq_flatMap]

theorem unpruned_eq (pruned : Tree α → Bool) (t : Tree α) :
    t.unpruned pruned = t :: if pruned t then [] else t.children.flatMap (unpruned pruned) := by
  have below : (fun o : Occurrence α => !o.above.any pruned) ∘ Occurrence.under t =
      fun o => !(pruned t || o.above.any pruned) := by
    funext o
    rfl
  rw [unpruned, occurrences_eq, List.filter_cons_of_pos rfl, List.map_cons, List.filter_map, below,
    List.map_map]
  congr 1
  cases pruned t with
  | true => simp
  | false =>
    simp only [Bool.false_or]
    rw [List.filter_flatMap, List.map_flatMap]
    rfl

end

section

variable {σ : Type}

/-- A visitor of numbered nodes that does to them what `plain` does to nodes. A node keeps its number,
and of its children some may go and the others may change their order. -/
structure Tracks (numbered : σ → Tree Placed → σ × Tree Placed × Bool)
    (plain : σ → Tree Label → σ × Tree Label × Bool) : Prop where
  plain : ∀ state n, plain state n.unplaced =
    ((numbered state n).1, (numbered state n).2.1.unplaced, (numbered state n).2.2)
  place : ∀ state n, (numbered state n).2.1.place = n.place
  children : ∀ state n, Subperm (numbered state n).2.1.children n.children

/-- Calls on numbered nodes. -/
abbrev Calls (σ : Type) := List (Visited σ Placed (Tree Placed × Bool))

/-- The numbers of the nodes that were visited, in the order of the calls. -/
def visitedPlaces (calls : Calls σ) : List Nat := calls.map (·.node.place)

/-- What the calls of a walk through some trees say about the trees that are left. -/
structure Account (ts : List (Tree Placed)) (calls : Calls σ) (left : List (Tree Placed)) : Prop where
  kept : Subperm ((preorders left).map place) ((preorders ts).map place)
  inOrder : (visitedPlaces calls).Sublist ((preorders left).map place)
  reached : ∀ pruned : Nat → Bool, (∀ c ∈ calls, pruned c.node.place = !c.answer.2) →
    visitedPlaces calls = (left.flatMap (unpruned fun n => pruned n.place)).map place

theorem subperm_preorders {ts us : List (Tree Placed)} (h : Subperm ts us) :
    Subperm ((preorders ts).map place) ((preorders us).map place) := by
  obtain ⟨ks, perm, sub⟩ := h
  rw [preorders_eq_flatMap, preorders_eq_flatMap]
  exact ⟨_, (perm.flatMap_right preorder).map place, (sub.flatMap preorder).map place⟩

namespace Account

variable {ts us ls ms : List (Tree Placed)} {cs ds : Calls σ}

theorem nothing : Account (σ := σ) [] [] [] := ⟨.refl _, .refl _, fun _ _ => rfl⟩

theorem append (first : Account ts cs ls) (others : Account us ds ms) :
    Account (ts ++ us) (cs ++ ds) (ls ++ ms) where
  kept := by
    simp only [preorders_eq_flatMap, List.flatMap_append, List.map_append]
    simp only [← preorders_eq_flatMap]
    exact first.kept.append others.kept
  inOrder := by
    simp only [preorders_eq_flatMap, visitedPlaces, List.flatMap_append, List.map_append]
    simp only [← preorders_eq_flatMap]
    exact first.inOrder.append others.inOrder
  reached := by
    intro pruned agree
    obtain ⟨here, there⟩ := List.forall_mem_append.mp agree
    rw [List.flatMap_append, List.map_append, ← first.reached pruned here,
      ← others.reached pruned there]
    exact List.map_append

theorem map_place_preorders_singleton (t : Tree Placed) :
    (preorders [t]).map place = t.place :: (preorders t.children).map place := by
  rw [preorders, preorders, List.append_nil, preorder_eq, List.map_cons]

section

variable {t u : Tree Placed} (state : σ) (same : u.place = t.place)
  (children : Subperm u.children t.children)

include same children

/-- A node that the walk does not go below. -/
theorem stop : Account [t] [⟨state, t, (u, false)⟩] [u] where
  kept := by
    rw [map_place_preorders_singleton, map_place_preorders_singleton, same]
    exact (List.subperm_cons _).mpr (subperm_preorders children)
  inOrder := by
    rw [map_place_preorders_singleton, same]
    exact (List.nil_sublist _).cons_cons t.place
  reached := by
    intro pruned agree
    have here : pruned u.place = true := same ▸ agree _ (List.mem_singleton_self _)
    rw [List.flatMap_singleton, unpruned_eq, if_pos here, List.map_singleton, same]
    rfl

/-- A node that the walk goes below, to the children it has been left. -/
theorem go (below : Account u.children cs ls) :
    Account [t] (⟨state, t, (u, true)⟩ :: cs) [⟨u.label, ls⟩] where
  kept := by
    rw [map_place_preorders_singleton, map_place_preorders_singleton, ← same]
    exact (List.subperm_cons _).mpr (below.kept.trans (subperm_preorders children))
  inOrder := by
    rw [map_place_preorders_singleton]
    exact same ▸ below.inOrder.cons_cons u.place
  reached := by
    intro pruned agree
    obtain ⟨here, there⟩ := List.forall_mem_cons.mp agree
    have goes : ¬ pruned (place ⟨u.label, ls⟩) := by
      have final : place ⟨u.label, ls⟩ = t.place := same
      rw [final, here]
      simp
    rw [List.flatMap_singleton, unpruned_eq, if_neg goes, List.map_cons, ← below.reached pruned there]
    exact congrArg (· :: visitedPlaces cs) same.symm

end

end Account

/-- A revision of several trees gives an account if that of each one does. -/
theorem account_reviseEach
    {one : σ × Calls σ → Tree Placed → Option ((σ × Calls σ) × Tree Placed)}
    {ts : List (Tree Placed)}
    (each : ∀ t ∈ ts, ∀ state noted, ∃ final cs left,
      one (state, noted) t = some ((final, noted ++ cs), left) ∧ Account [t] cs [left])
    (state : σ) (noted : Calls σ) :
    ∃ final cs left, reviseEach one (state, noted) ts = some ((final, noted ++ cs), left) ∧
      Account ts cs left := by
  induction ts generalizing state noted with
  | nil => exact ⟨state, [], [], by rw [reviseEach, List.append_nil], .nothing⟩
  | cons t ts ih =>
    obtain ⟨first, others⟩ := List.forall_mem_cons.mp each
    obtain ⟨next, cs, l, here, account⟩ := first state noted
    obtain ⟨final, ds, ls, there, accounts⟩ := ih others next (noted ++ cs)
    refine ⟨final, cs ++ ds, l :: ls, ?_, account.append accounts⟩
    rw [reviseEach, here, Option.bind_eq_bind, Option.bind_some]
    dsimp only
    rw [there, List.append_assoc]
    rfl

theorem account_reviseWithin {numbered : σ → Tree Placed → σ × Tree Placed × Bool}
    {plain : σ → Tree Label → σ × Tree Label × Bool} (tracks : Tracks numbered plain) {levels : Nat}
    {t : Tree Placed} (enough : t.height ≤ levels) (state : σ) (noted : Calls σ) :
    ∃ final cs left, reviseWithin (noting numbered) levels (state, noted) t =
      some ((final, noted ++ cs), left) ∧ Account [t] cs [left] := by
  induction levels generalizing t state noted with
  | zero =>
    rw [height_eq] at enough
    omega
  | succ levels ih =>
    have same := tracks.place state t
    have children := tracks.children state t
    rw [reviseWithin, noting]
    generalize numbered state t = act at same children
    obtain ⟨next, u, _ | _⟩ := act
    · exact ⟨next, _, u, rfl, .stop state same children⟩
    · -- children may have gone, so no level is added
      have low : ∀ c ∈ u.children, c.height ≤ levels := by
        rw [height_eq] at enough
        have before := heights_le_iff.mp (Nat.le_of_succ_le_succ (Nat.add_comm 1 _ ▸ enough))
        exact fun c hc => before c (children.subset hc)
      obtain ⟨final, cs, left, below, account⟩ := account_reviseEach
        (fun c hc => ih (low c hc)) next (noted ++ [⟨state, t, (u, true)⟩])
      refine ⟨final, _, ⟨u.label, left⟩, ?_, account.go state same children⟩
      dsimp only
      rw [below, List.append_assoc, List.singleton_append]
      rfl

end

section

variable {α β σ τ : Type} {f : τ → σ} {g : α → β} {v : τ → Tree α → τ × Tree α × Bool}
  {w : σ → Tree β → σ × Tree β × Bool}

theorem reviseEach_image {one : τ → Tree α → Option (τ × Tree α)}
    {other : σ → Tree β → Option (σ × Tree β)}
    (same : ∀ state t, other (f state) (t.map g) = (one state t).map (Prod.map f (map g)))
    (state : τ) (ts : List (Tree α)) :
    reviseEach other (f state) (ts.map (map g)) =
      (reviseEach one state ts).map (Prod.map f (List.map (map g))) := by
  induction ts generalizing state with
  | nil => rfl
  | cons t ts ih =>
    rw [List.map_cons, reviseEach, same, reviseEach]
    cases one state t with
    | none => rfl
    | some first =>
      dsimp only [Option.map_some, Prod.map, Option.bind_eq_bind, Option.bind_some]
      rw [ih]
      cases reviseEach one first.1 ts <;> rfl

theorem reviseWithin_image (same : ∀ state t, w (f state) (t.map g) =
      (f (v state t).1, (v state t).2.1.map g, (v state t).2.2))
    (levels : Nat) (state : τ) (t : Tree α) :
    reviseWithin w levels (f state) (t.map g) =
      (reviseWithin v levels state t).map (Prod.map f (map g)) := by
  induction levels generalizing state t with
  | zero => rfl
  | succ levels ih =>
    rw [reviseWithin, same, reviseWithin]
    rcases v state t with ⟨next, ⟨label, children⟩, _ | _⟩
    · rfl
    · dsimp only
      rw [children_map, reviseEach_image ih, label_map]
      cases reviseEach (reviseWithin v levels) next children with
      | none => rfl
      | some result =>
        dsimp only [Option.map_some, Prod.map, Option.bind_eq_bind, Option.bind_some]
        rw [map, maps_eq_map]

theorem height_map (g : α → β) (t : Tree α) : (t.map g).height = t.height := by
  induction t using byChildren with
  | step t ih =>
    have heights_map : heights (t.children.map (map g)) = heights t.children := by
      generalize t.children = cs at ih
      induction cs with
      | nil => rfl
      | cons c cs more =>
        rw [List.map_cons, heights, heights, ih c (by simp), more fun d hd => ih d (by simp [hd])]
    rw [height_eq, height_eq, children_map, heights_map]

theorem revise_image (same : ∀ state t, w (f state) (t.map g) =
      (f (v state t).1, (v state t).2.1.map g, (v state t).2.2))
    (growth : Nat) (state : τ) (t : Tree α) :
    revise growth w (f state) (t.map g) = (revise growth v state t).map (Prod.map f (map g)) := by
  rw [revise, height_map, reviseWithin_image same]
  rfl

end

section

variable {α σ : Type}

theorem reviseEach_mono {one other : σ → Tree α → Option (σ × Tree α)}
    (same : ∀ state t result, one state t = some result → other state t = some result)
    {ts : List (Tree α)} {state : σ} {result : σ × List (Tree α)}
    (run : reviseEach one state ts = some result) : reviseEach other state ts = some result := by
  induction ts generalizing state result with
  | nil => exact run
  | cons t ts ih =>
    rw [reviseEach] at run ⊢
    obtain ⟨first, here, run⟩ := Option.bind_eq_some_iff.mp run
    obtain ⟨later, there, run⟩ := Option.bind_eq_some_iff.mp run
    rw [same _ _ _ here, Option.bind_eq_bind, Option.bind_some]
    dsimp only
    rw [ih there]
    exact run

theorem reviseWithin_mono {visitor : σ → Tree α → σ × Tree α × Bool} {levels levels' : Nat}
    (le : levels ≤ levels') {state : σ} {t : Tree α} {result : σ × Tree α}
    (run : reviseWithin visitor levels state t = some result) :
    reviseWithin visitor levels' state t = some result := by
  induction levels generalizing levels' state t result with
  | zero => cases run
  | succ levels ih =>
    obtain ⟨less, rfl⟩ := Nat.exists_eq_add_one_of_ne_zero (Nat.ne_of_gt (Nat.zero_lt_of_lt le))
    rw [reviseWithin] at run ⊢
    generalize visitor state t = act at run
    obtain ⟨next, u, _ | _⟩ := act
    · exact run
    · obtain ⟨below, there, run⟩ := Option.bind_eq_some_iff.mp run
      have same := reviseEach_mono (fun _ _ _ => ih (Nat.le_of_succ_le_succ le)) there
      dsimp only
      rw [same]
      exact run

/-- A revision that comes to an end is the same however many more levels it may add. -/
theorem revise_mono {visitor : σ → Tree α → σ × Tree α × Bool} {growth growth' : Nat}
    (le : growth ≤ growth') {state : σ} {t : Tree α} {result : σ × Tree α}
    (run : revise growth visitor state t = some result) :
    revise growth' visitor state t = some result :=
  reviseWithin_mono (Nat.add_le_add_left le t.height) run

end

section

variable {σ : Type}

/-- What stays of the images of some things are the images of those that stay. -/
theorem exists_subperm_of_map {α β : Type} {f : α → β} {l : List β} {m : List α}
    (h : Subperm l (m.map f)) : ∃ k, Subperm k m ∧ k.map f = l := by
  obtain ⟨images, order, sub⟩ := h
  obtain ⟨kept, part, rfl⟩ := List.sublist_map_iff.mp sub
  obtain ⟨k, rfl, perm⟩ :=
    (iff_of_eq (congrFun₂ (List.eq_map_comp_perm f) l kept)).mpr order.symm
  exact ⟨k, ⟨kept, perm.symm, part⟩, rfl⟩

/-- Whatever a visitor does to nodes that it leaves their places, it can do to numbered nodes. -/
theorem exists_tracks {plain : σ → Tree Label → σ × Tree Label × Bool}
    (trims : ∀ state n, Subperm (plain state n).2.1.children n.children) :
    ∃ numbered, Tracks numbered plain := by
  have each (state : σ) (n : Tree Placed) : ∃ u : Tree Placed,
      u.unplaced = (plain state n.unplaced).2.1 ∧ u.place = n.place ∧
        Subperm u.children n.children := by
    have below := trims state n.unplaced
    rw [unplaced, children_map] at below
    obtain ⟨children, kept, images⟩ := exists_subperm_of_map below
    refine ⟨⟨⟨(plain state n.unplaced).2.1.label, n.place⟩, children⟩, ?_, rfl, kept⟩
    refine eq_of_parts rfl ?_
    rw [unplaced, children_map]
    exact images
  choose act unplaced place children using each
  refine ⟨fun state n => ((plain state n.unplaced).1, act state n, (plain state n.unplaced).2.2),
    fun state n => ?_, place, children⟩
  rw [unplaced]

/-- The nodes at which a visitor did not go on. -/
def prunedBy (calls : Calls σ) (n : Tree Placed) : Bool :=
  calls.any fun c => c.node.place == n.place && !c.answer.2

theorem account_revise {numbered : σ → Tree Placed → σ × Tree Placed × Bool}
    {plain : σ → Tree Label → σ × Tree Label × Bool} (tracks : Tracks numbered plain)
    (growth : Nat) (state : σ) (t : Tree Placed) :
    ∃ final cs left, revise growth (noting numbered) (state, []) t = some ((final, cs), left) ∧
      Account [t] cs [left] := by
  obtain ⟨final, cs, left, run, account⟩ :=
    account_reviseWithin tracks (Nat.le_add_right t.height growth) state []
  exact ⟨final, cs, left, run, account⟩

/-- In a tree whose nodes are told apart by their numbers, each call is about another node, so those
that prune are known from the whole list of calls. -/
theorem Account.visited_eq {t left : Tree Placed} {cs : Calls σ} (account : Account [t] cs [left])
    (distinct : (t.preorder.map place).Nodup) :
    (visitedPlaces cs).Nodup ∧ visitedPlaces cs = (left.unpruned (prunedBy cs)).map place := by
  have once : (visitedPlaces cs).Nodup := by
    obtain ⟨ns, perm, sub⟩ := account.kept
    rw [preorders, preorders, List.append_nil] at sub
    exact account.inOrder.nodup (perm.nodup_iff.mp (distinct.sublist sub))
  refine ⟨once, ?_⟩
  have agree : ∀ c ∈ cs, (cs.any fun d => d.node.place == c.node.place && !d.answer.2) =
      !c.answer.2 := by
    intro c hc
    rw [Bool.eq_iff_iff, List.any_eq_true]
    constructor
    · intro h
      obtain ⟨d, hd, same, stops⟩ := by simpa using h
      rw [List.inj_on_of_nodup_map once hd hc same] at stops
      rw [stops, Bool.not_false]
    · intro stops
      exact ⟨c, hc, by simpa using stops⟩
  have reached := account.reached
    (fun place => cs.any fun d => d.node.place == place && !d.answer.2) agree
  rwa [List.flatMap_singleton] at reached

end

/-- A visitor that changes no node is called alike whether the nodes that wait are on a stack or in the
calls of a recursion: on the same nodes in the same states, in preorder, with the children of a node just
if it went on there. When a visitor relabels nodes and drops or moves their children, and the nodes keep
their numbers in that, it is called once on each node of the final tree that has no pruned node above it,
in the preorder of this tree, and on no others. -/
theorem visitors_agree {α σ : Type} (growth : Nat) :
    (∀ (visitor : σ → Tree α → σ × Bool) (state : σ) (t : Tree α),
      visit (noting visitor) (state, []) t = (walk visitor state t, calls visitor state t) ∧
      revise growth (unchanging (noting visitor)) (state, []) t =
        some ((walk visitor state t, calls visitor state t), t) ∧
      visit visitor state t = walk visitor state t ∧
      revise growth (unchanging visitor) state t = some (walk visitor state t, t)) ∧
    ∀ plain : σ → Tree Label → σ × Tree Label × Bool,
      (∀ state n, Subperm (plain state n).2.1.children n.children) →
      (∃ numbered, Tracks numbered plain) ∧
      ∀ numbered, Tracks numbered plain → ∀ (state : σ) (t : Tree Label),
        ∃ final calls left,
          revise growth (noting numbered) (state, []) t.placed = some ((final, calls), left) ∧
          revise growth plain state t = some (final, left.unplaced) ∧
          (visitedPlaces calls).Nodup ∧
          visitedPlaces calls = (left.unpruned (prunedBy calls)).map place := by
  constructor
  · intro visitor state t
    have noted := walk_noting visitor t state []
    rw [List.nil_append] at noted
    rw [visit_eq, revise_unchanging, noted, visit_eq, revise_unchanging]
    exact ⟨rfl, rfl, rfl, rfl⟩
  · intro plain trims
    refine ⟨exists_tracks trims, fun numbered tracks state t => ?_⟩
    obtain ⟨final, calls, left, run, account⟩ := account_revise tracks growth state t.placed
    have distinct : (t.placed.preorder.map place).Nodup := by
      rw [map_place_preorder_placed]
      exact List.nodup_range
    have image : revise growth plain state t.placed.unplaced =
        (revise growth (noting numbered) (state, []) t.placed).map (Prod.map Prod.fst unplaced) :=
      revise_image (f := Prod.fst) (fun state n => tracks.plain state.1 n) growth (state, []) t.placed
    rw [unplaced_placed, run] at image
    exact ⟨final, calls, left, run, image, account.visited_eq distinct⟩

/-- A visitor that reverses the children of each node, drops those named `x` and does not go on at `b`. -/
theorem visitors_agree_reversing :
    let stays (name : String) : Bool := name != "x"
    let plain : Nat → Tree Label → Nat × Tree Label × Bool := fun count n =>
      (count + 1, ⟨{ n.label with value := some "seen" },
        n.children.reverse.filter fun c => stays c.label.name⟩, n.label.name != "b")
    let numbered : Nat → Tree Placed → Nat × Tree Placed × Bool := fun count n =>
      (count + 1, ⟨{ n.label with value := some "seen" },
        n.children.reverse.filter fun c => stays c.label.name⟩, n.label.name != "b")
    let t : Tree Label := ⟨{ name := "a" },
      [.named "x", ⟨{ name := "b" }, [.named "c"]⟩, ⟨{ name := "d" }, [.named "e"]⟩]⟩
    (∀ state n, Subperm (plain state n).2.1.children n.children) ∧ Tracks numbered plain ∧
      ∃ calls left, revise 0 (noting numbered) (0, []) t.placed = some ((4, calls), left) ∧
        revise 0 plain 0 t = some (4, left.unplaced) ∧ visitedPlaces calls = [0, 4, 5, 2] ∧
        left.preorder.map place = [0, 4, 5, 2, 3] ∧
        visitedPlaces calls = (left.unpruned (prunedBy calls)).map place := by
  intro stays plain numbered t
  have trims : ∀ state n, Subperm (plain state n).2.1.children n.children :=
    fun _ n => List.filter_sublist.subperm.trans (List.reverse_perm n.children).subperm
  have tracks : Tracks numbered plain := by
    refine ⟨fun count n => ?_, fun _ _ => rfl,
      fun _ n => List.filter_sublist.subperm.trans (List.reverse_perm n.children).subperm⟩
    obtain ⟨label, children⟩ := n
    simp only [plain, numbered, unplaced, map, maps_eq_map]
    rw [← List.map_reverse, List.filter_map]
    have named : (fun c : Tree Label => stays c.label.name) ∘ map Placed.toLabel =
        fun c => stays c.label.name := by
      funext c
      rw [Function.comp_apply, label_map]
    rw [named]
  obtain ⟨-, each⟩ := visitors_agree (α := Label) (σ := Nat) 0
  obtain ⟨final, calls, left, run, same, -, visited⟩ := (each plain trims).2 numbered tracks 0 t
  have computed : (revise 0 (noting numbered) (0, []) t.placed).map
      (fun result => (result.1.1, visitedPlaces result.1.2, result.2.preorder.map place)) =
        some (4, [0, 4, 5, 2], [0, 4, 5, 2, 3]) := by
    decide
  rw [run, Option.map_some] at computed
  obtain ⟨rfl, places, order⟩ : final = 4 ∧ visitedPlaces calls = [0, 4, 5, 2] ∧
      left.preorder.map place = [0, 4, 5, 2, 3] := by
    simpa using computed
  exact ⟨trims, tracks, calls, left, run, same, places, order, visited⟩

end TreeQuery.Tree
