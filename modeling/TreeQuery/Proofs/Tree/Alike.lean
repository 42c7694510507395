import Mathlib.Data.List.Forall2
import TreeQuery.Proofs.Tree.Index
import TreeQuery.Proofs.Tree.Relabel

namespace TreeQuery

open List (Forall₂)

theorem map_eq_map_of_forall₂ {α β γ : Type} {R : α → β → Prop} {f : α → γ} {g : β → γ}
    (same : ∀ a b, R a b → f a = g b) {l : List α} {m : List β} (h : Forall₂ R l m) :
    l.map f = m.map g := by
  rw [← List.forall₂_eq_eq_eq, List.forall₂_map_left_iff, List.forall₂_map_right_iff]
  exact h.imp same

namespace Tree

section

variable {α β : Type} {R : α → β → Prop}

/-- Two trees of one shape, in which the labels of nodes that stand at the same place are related. -/
inductive Alike (R : α → β → Prop) : Tree α → Tree β → Prop
  | intro {a : α} {b : β} {ts : List (Tree α)} {us : List (Tree β)} (label : R a b)
    (children : Forall₂ (Alike R) ts us) : Alike R ⟨a, ts⟩ ⟨b, us⟩

theorem Alike.label {t : Tree α} {u : Tree β} (h : Alike R t u) : R t.label u.label := by
  obtain ⟨label, -⟩ := h
  exact label

theorem Alike.children {t : Tree α} {u : Tree β} (h : Alike R t u) :
    Forall₂ (Alike R) t.children u.children := by
  obtain ⟨-, children⟩ := h
  exact children

mutual
theorem Alike.preorder : ∀ {t : Tree α} {u : Tree β}, Alike R t u →
    Forall₂ (Alike R) t.preorder u.preorder
  | ⟨_, _⟩, ⟨_, _⟩, .intro label children =>
    .cons (.intro label children) (Alike.preorders children)
theorem Alike.preorders : ∀ {ts : List (Tree α)} {us : List (Tree β)}, Forall₂ (Alike R) ts us →
    Forall₂ (Alike R) (preorders ts) (preorders us)
  | [], [], .nil => .nil
  | _ :: _, _ :: _, .cons first others =>
    List.rel_append (Alike.preorder first) (Alike.preorders others)
end

theorem Alike.size_eq {t : Tree α} {u : Tree β} (h : Alike R t u) : t.size = u.size := by
  rw [← length_preorder, ← length_preorder, h.preorder.length_eq]

mutual
/-- A pass that only changes labels leaves the shape alone. -/
theorem alike_relabel {R : α → α → Prop} {f : Tree α → α} (each : ∀ t, R t.label (f t)) :
    ∀ t, Alike R t (t.relabel f)
  | ⟨label, children⟩ => .intro (each ⟨label, children⟩) (alike_relabels each children)
theorem alike_relabels {R : α → α → Prop} {f : Tree α → α} (each : ∀ t, R t.label (f t)) :
    ∀ ts, Forall₂ (Alike R) ts (relabels f ts)
  | [] => .nil
  | t :: ts => .cons (alike_relabel each t) (alike_relabels each ts)
end

section

variable {f : α → β}

mutual
theorem alike_map (each : ∀ a, R a (f a)) : ∀ t, Alike R t (t.map f)
  | ⟨label, children⟩ => .intro (each label) (alike_maps each children)
theorem alike_maps (each : ∀ a, R a (f a)) : ∀ ts, Forall₂ (Alike R) ts (maps f ts)
  | [] => .nil
  | t :: ts => .cons (alike_map each t) (alike_maps each ts)
end

mutual
/-- Labels that determine their counterparts determine the whole tree. -/
theorem Alike.eq_map (each : ∀ a b, R a b → b = f a) :
    ∀ {t : Tree α} {u : Tree β}, Alike R t u → u = t.map f
  | ⟨_, _⟩, ⟨_, _⟩, .intro label children => by
    rw [map, each _ _ label, Alike.eq_maps each children]
theorem Alike.eq_maps (each : ∀ a b, R a b → b = f a) :
    ∀ {ts : List (Tree α)} {us : List (Tree β)}, Forall₂ (Alike R) ts us → us = maps f ts
  | [], [], .nil => rfl
  | _ :: _, _ :: _, .cons first others => by
    rw [maps, Alike.eq_map each first, Alike.eq_maps each others]
end

end

end

end Tree

/-- Labels at one place that are related but for the place. -/
structure Placed.Alike (R : Label → Label → Prop) (a b : Placed) : Prop where
  place : a.place = b.place
  label : R a.toLabel b.toLabel

section

variable {R : Label → Label → Prop}

namespace Tree

mutual
theorem Alike.placedFrom : ∀ {t u : Tree Label} (start : Nat), Alike R t u →
    Alike (Placed.Alike R) (t.placedFrom start) (u.placedFrom start)
  | ⟨_, _⟩, ⟨_, _⟩, start, .intro label children =>
    .intro ⟨rfl, label⟩ (Alike.placesFrom (start + 1) children)
theorem Alike.placesFrom : ∀ {ts us : List (Tree Label)} (start : Nat), Forall₂ (Alike R) ts us →
    Forall₂ (Alike (Placed.Alike R)) (placesFrom start ts) (placesFrom start us)
  | [], [], _, .nil => .nil
  | t :: _, _ :: _, start, .cons first others =>
    .cons (Alike.placedFrom start first)
      (first.size_eq ▸ Alike.placesFrom (start + t.size) others)
end

theorem Alike.placed {t u : Tree Label} (h : Alike R t u) :
    Alike (Placed.Alike R) t.placed u.placed := h.placedFrom 0

theorem Alike.place_eq {t u : Tree Placed} (h : Alike (Placed.Alike R) t u) : t.place = u.place :=
  h.label.place

theorem Alike.map_place {ts us : List (Tree Placed)} (h : Forall₂ (Alike (Placed.Alike R)) ts us) :
    ts.map place = us.map place :=
  map_eq_map_of_forall₂ (fun _ _ same => same.place_eq) h

end Tree

namespace ParentIndex

/-- Two indexes that lead from nodes at one place to parents alike. -/
def Alike (R : Label → Label → Prop) (i j : ParentIndex) : Prop :=
  ∀ m n : Tree Placed, m.place = n.place →
    Option.Rel (Tree.Alike (Placed.Alike R)) (i.parent? m) (j.parent? n)

theorem alike_note {t u : Tree Placed} (h : t.Alike (Placed.Alike R) u)
    {ps qs : Std.TreeMap Nat (Tree Placed)}
    (known : ∀ place : Nat, Option.Rel (Tree.Alike (Placed.Alike R)) ps[place]? qs[place]?)
    (place : Nat) :
    Option.Rel (Tree.Alike (Placed.Alike R)) (note ps t)[place]? (note qs u)[place]? := by
  rw [getElem?_note, getElem?_note, Tree.Alike.map_place h.children]
  split
  · exact .some h
  · exact known place

theorem alike_noteAll {ts us : List (Tree Placed)}
    (h : Forall₂ (Tree.Alike (Placed.Alike R)) ts us) {ps qs : Std.TreeMap Nat (Tree Placed)}
    (known : ∀ place : Nat, Option.Rel (Tree.Alike (Placed.Alike R)) ps[place]? qs[place]?)
    (place : Nat) :
    Option.Rel (Tree.Alike (Placed.Alike R)) (noteAll ps ts)[place]? (noteAll qs us)[place]? := by
  induction ps, ts using noteAll.induct generalizing qs us with
  | case1 ps =>
    cases h
    rw [noteAll, noteAll]
    exact known place
  | case2 ps t pending ih =>
    simp only [List.unattach_reverse, List.unattach_attach] at ih
    obtain _ | ⟨first, others⟩ := h
    rw [noteAll, noteAll]
    exact ih (List.rel_append (List.rel_reverse first.children) others) (alike_note first known)

theorem alike_build {t u : Tree Placed} (h : t.Alike (Placed.Alike R) u) :
    (build t).Alike R (build u) := by
  intro m n same
  rw [parent?, parent?, same]
  exact alike_noteAll (.cons h .nil) (fun _ => .none) n.place

end ParentIndex

end

end TreeQuery
