import TreeQuery.Json.Reader

namespace TreeQuery.Json

namespace Value

mutual
/-- The levels of arrays and objects in a value. What breaks off has none. -/
def nesting : Value → Nat
  | array items none => 1 + nestings items
  | object members none => 1 + memberNestings members
  | array _ (some _) | object _ (some _) | null | boolean _ | number _ | text _ | broken _ => 0
/-- The levels of the deepest of several values. -/
def nestings : List Value → Nat
  | [] => 0
  | v :: vs => max v.nesting (nestings vs)
/-- The levels of the deepest value of several members. -/
def memberNestings : List Member → Nat
  | [] => 0
  | .mk _ v :: ms => max v.nesting (memberNestings ms)
end

theorem nestings_le_iff {items : List Value} {n : Nat} :
    nestings items ≤ n ↔ ∀ v ∈ items, v.nesting ≤ n := by
  induction items with
  | nil => simp [nestings]
  | cons v vs ih => rw [nestings, Nat.max_le, ih, List.forall_mem_cons]

theorem memberNestings_le_iff {members : List Member} {n : Nat} :
    memberNestings members ≤ n ↔ ∀ m ∈ members, m.value.nesting ≤ n := by
  induction members with
  | nil => simp [memberNestings]
  | cons m ms ih =>
    cases m
    rw [memberNestings, Nat.max_le, ih, List.forall_mem_cons, Member.value]

theorem nesting_le_nestings {items : List Value} {v : Value} (h : v ∈ items) :
    v.nesting ≤ nestings items := nestings_le_iff.mp (Nat.le_refl _) v h

theorem nesting_le_memberNestings {members : List Member} {m : Member} (h : m ∈ members) :
    m.value.nesting ≤ memberNestings members := memberNestings_le_iff.mp (Nat.le_refl _) m h

theorem memberNestings_append (ms ns : List Member) :
    memberNestings (ms ++ ns) = max (memberNestings ms) (memberNestings ns) := by
  induction ms with
  | nil => rw [List.nil_append, memberNestings, Nat.zero_max]
  | cons m ms ih =>
    cases m
    rw [List.cons_append, memberNestings, memberNestings, ih, Nat.max_assoc]

theorem nesting_array_le {items : List Value} {n : Nat} (h : ∀ v ∈ items, v.nesting ≤ n)
    (fault : Option Fault) : (array items fault).nesting ≤ n + 1 := by
  cases fault with
  | none =>
    have := nestings_le_iff.mpr h
    rw [nesting]
    omega
  | some fault => exact Nat.zero_le _

theorem nesting_object_le {members : List Member} {n : Nat} (h : ∀ m ∈ members, m.value.nesting ≤ n)
    (fault : Option Fault) : (object members fault).nesting ≤ n + 1 := by
  cases fault with
  | none =>
    have := memberNestings_le_iff.mpr h
    rw [nesting]
    omega
  | some fault => exact Nat.zero_le _

end Value

/-- What holds of every part that is read holds of all parts of an array or object. -/
theorem readSequence_parts {α : Type} {bound : Nat} {holds : α → Prop}
    {part : (t : List Char) → t.length < bound → Except Fault (Scan α t)}
    (each : ∀ t shorter read, part t shorter = .ok read → holds read.value) (closing : Char)
    (first : Bool) (s : List Char) (h : s.length < bound) :
    ∀ a ∈ (readSequence part closing first s h).parts, holds a := by
  fun_induction readSequence part closing first s h with
  | case1 => exact fun _ none => nomatch none
  | case2 => exact fun _ none => nomatch none
  | case3 => exact fun _ none => nomatch none
  | case4 first s h t notLonger next value read =>
    exact List.forall_mem_singleton.mpr (each _ _ _ read)
  | case5 first s h t notLonger next value rest shorter read more ih =>
    exact List.forall_mem_cons.mpr ⟨each _ _ _ read, ih⟩

theorem nesting_readWord {v : Value} (flat : v.nesting = 0) (word : List Char) (c : Char)
    (s : List Char) : (readWord v word (c := c) s).value.nesting = 0 := by
  unfold readWord
  split
  · exact flat
  · rfl

theorem nesting_readNumber (s : List Char) : (readNumber s).value.nesting = 0 := by
  unfold readNumber
  split
  · rfl
  · split <;> rfl

section

variable {n bound : Nat} {inner : (t : List Char) → t.length < bound → Scan Value t}
  (deep : ∀ t shorter, (inner t shorter).value.nesting ≤ n)

include deep

theorem nesting_readMember_le {s : List Char} {h : s.length < bound} {read : Scan Member s}
    (member : readMember inner s h = .ok read) : read.value.value.nesting ≤ n := by
  unfold readMember at member
  split at member
  · cases member
  · split at member
    · cases member
    · split at member
      · cases member
        exact Nat.zero_le n
      · cases member
        exact deep _ _
      · cases member
        exact Nat.zero_le n
  · cases member

/-- Where nothing may nest, an array or object breaks off at once. -/
theorem nesting_readBare_le (mayNest : Bool) (s : List Char) (h : s.length ≤ bound) :
    (readBare inner mayNest s h).value.nesting ≤ if mayNest then n + 1 else 0 := by
  unfold readBare
  split
  case h_1 => exact Nat.zero_le _
  case h_2 =>
    split <;> exact Nat.zero_le _
  case h_3 t h =>
    split
    · refine Value.nesting_array_le (readSequence_parts (fun u shorter read eq => ?_) _ _ t h) _
      cases eq
      exact deep u shorter
    · exact Nat.zero_le _
  case h_4 t h =>
    split
    · exact Value.nesting_object_le
        (readSequence_parts (fun _ _ _ eq => nesting_readMember_le deep eq) _ _ t h) _
    · exact Nat.zero_le _
  case h_5 | h_6 | h_7 =>
    rw [nesting_readWord rfl]
    exact Nat.zero_le _
  case h_8 =>
    split
    · rw [nesting_readNumber]
      exact Nat.zero_le _
    · exact Nat.zero_le _

end

theorem nesting_readValue_le (levels : Nat) (s : List Char) :
    (readValue levels s).value.nesting ≤ levels - 1 := by
  induction hn : s.length using Nat.strongRecOn generalizing levels s with
  | ind n ih =>
    have inner (t : List Char) (shorter : t.length < (skipBlanks s).length) :
        (readValue (levels - 1) t).value.nesting ≤ levels - 1 - 1 :=
      ih t.length (hn ▸ Nat.lt_of_lt_of_le shorter (length_skipBlanks_le s)) _ t rfl
    have bare := nesting_readBare_le inner (1 < levels) (skipBlanks s) (Nat.le_refl _)
    rw [readValue]
    refine Nat.le_trans bare ?_
    split
    · rename_i more
      have := of_decide_eq_true more
      omega
    · exact Nat.zero_le _

/-- No text is read down to the limit. -/
theorem nesting_read_lt (text : String) : (read text).1.nesting < nestingLimit := by
  have bound := nesting_readValue_le nestingLimit text.toList
  have value : (read text).1 = (readValue nestingLimit text.toList).value := by
    unfold read
    split <;> simp only [*]
  rw [value]
  exact Nat.lt_of_le_of_lt bound (by decide)

end TreeQuery.Json
