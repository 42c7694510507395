import Mathlib.Data.Option.Basic
import TreeQuery.Proofs.Tree.Order
import TreeQuery.Tree.Passes

namespace TreeQuery

/-- Where the text of a terminal ends: its offset and its length together. -/
def Label.exactEnd? (label : Label) : Option Nat :=
  match label.offset, label.value with
  | some offset, some value => some (offset.toNat + value.utf8ByteSize)
  | _, _ => none

namespace Tree

/-- Where the terminals among some nodes end. -/
def endsAmong (nodes : List (Tree Label)) : List Nat :=
  (nodes.filter (·.children.isEmpty)).filterMap (·.label.exactEnd?)

/-- Where the terminals of a tree end. -/
def terminalEnds (t : Tree Label) : List Nat := endsAmong t.preorder

theorem max?_append (xs ys : List Nat) : (xs ++ ys).max? = max xs.max? ys.max? := by
  induction xs with
  | nil => simp
  | cons x xs ih =>
    rw [List.cons_append, List.max?_cons, List.max?_cons, ih]
    cases xs.max? <;> cases ys.max? <;> simp [Nat.max_assoc]

theorem endsAmong_append (ms ns : List (Tree Label)) :
    endsAmong (ms ++ ns) = endsAmong ms ++ endsAmong ns := by
  rw [endsAmong, List.filter_append, List.filterMap_append]
  rfl

theorem mem_endsAmong {nodes : List (Tree Label)} {stop : Nat} :
    stop ∈ endsAmong nodes ↔ ∃ n ∈ nodes, n.children = [] ∧ n.label.exactEnd? = some stop := by
  simp [endsAmong, and_assoc]

theorem terminalEnds_childless (label : Label) :
    terminalEnds ⟨label, []⟩ = label.exactEnd?.toList := by
  cases found : label.exactEnd? <;> simp [terminalEnds, endsAmong, preorder, preorders, found]

theorem terminalEnds_parent {t : Tree Label} (parent : t.children ≠ []) :
    t.terminalEnds = endsAmong (preorders t.children) := by
  rw [terminalEnds, preorder_eq, endsAmong, List.filter_cons_of_neg (by simpa using parent)]
  rfl

/-- A terminal whose end no word can count. -/
def overflow? (n : Tree Label) : Option Overflow :=
  match n.children, n.label.offset, n.label.value with
  | [], some offset, some value =>
    if offset.toNat + value.utf8ByteSize < UInt64.size then none
    else some ⟨offset, value.utf8ByteSize⟩
  | _, _, _ => none

/-- The first of some overflows in place of a result. -/
def unlessAny {α : Type} (found : List Overflow) (result : α) : Except Overflow α :=
  match found with
  | [] => .ok result
  | overflow :: _ => .error overflow

theorem overflow?_eq_some_iff {n : Tree Label} {overflow : Overflow} :
    n.overflow? = some overflow ↔ n.children = [] ∧ ∃ offset value,
      n.label.offset = some offset ∧ n.label.value = some value ∧
      UInt64.size ≤ offset.toNat + value.utf8ByteSize ∧ ⟨offset, value.utf8ByteSize⟩ = overflow := by
  obtain ⟨⟨name, value, offset, attributes⟩, children⟩ := n
  cases children <;> cases offset <;> cases value <;> simp [overflow?]

theorem overflow?_eq_none_iff {n : Tree Label} :
    n.overflow? = none ↔
      (n.children = [] → ∀ stop, n.label.exactEnd? = some stop → stop < UInt64.size) := by
  obtain ⟨⟨name, value, offset, attributes⟩, children⟩ := n
  cases children <;> cases offset <;> cases value <;> simp [overflow?, Label.exactEnd?]

/-- Nothing overflows just if all ends can be counted. -/
theorem filterMap_overflow?_eq_nil_iff {nodes : List (Tree Label)} :
    nodes.filterMap overflow? = [] ↔ ∀ stop ∈ endsAmong nodes, stop < UInt64.size := by
  rw [List.filterMap_eq_nil_iff]
  simp only [overflow?_eq_none_iff, mem_endsAmong]
  grind

theorem ownEnd_eq (label : Label) :
    ownEnd label = unlessAny (overflow? ⟨label, []⟩).toList label.exactEnd? := by
  obtain ⟨name, value, offset, attributes⟩ := label
  cases offset with
  | none => rfl
  | some offset =>
    cases value with
    | none => rfl
    | some value =>
      by_cases fits : offset.toNat + value.utf8ByteSize < UInt64.size <;>
        simp [ownEnd, overflow?, Label.exactEnd?, unlessAny, fits]

end Tree

end TreeQuery
