import TreeQuery.Json.Value

namespace TreeQuery.Json.Value

/-- The text that a value is, if it is one. -/
def text? : Value → Option String
  | text s => some s
  | _ => none

/-- The values inside an array or object. -/
def parts : Value → List Value
  | array items _ => items
  | object members _ => members.map Member.value
  | null | boolean _ | number _ | text _ | broken _ => []

mutual
/-- What passes from the values inside a value to the value holds of all values. -/
theorem byParts {motive : Value → Prop} (step : ∀ v, (∀ w ∈ v.parts, motive w) → motive v) :
    ∀ v, motive v
  | array items fault => step (array items fault) (allByParts step items)
  | object members fault => step (object members fault) (membersByParts step members)
  | null => step null nofun
  | boolean b => step (boolean b) nofun
  | number n => step (number n) nofun
  | text s => step (text s) nofun
  | broken fault => step (broken fault) nofun
theorem allByParts {motive : Value → Prop} (step : ∀ v, (∀ w ∈ v.parts, motive w) → motive v) :
    ∀ items : List Value, ∀ v ∈ items, motive v
  | [], _, h => nomatch h
  | v :: _, _, .head _ => byParts step v
  | _ :: vs, w, .tail _ h => allByParts step vs w h
theorem membersByParts {motive : Value → Prop}
    (step : ∀ v, (∀ w ∈ v.parts, motive w) → motive v) :
    ∀ members : List Member, ∀ v ∈ members.map Member.value, motive v
  | [], _, h => nomatch h
  | .mk _ v :: _, _, .head _ => byParts step v
  | .mk _ _ :: ms, w, .tail _ h => membersByParts step ms w h
end

theorem faults?_eq_none_iff {items : List Value} :
    faults? items = none ↔ ∀ v ∈ items, v.fault? = none := by
  induction items with
  | nil => simp [faults?]
  | cons v vs ih => rw [faults?, Option.or_eq_none_iff, ih, List.forall_mem_cons]

theorem memberFaults?_eq_none_iff {members : List Member} :
    memberFaults? members = none ↔ ∀ m ∈ members, m.value.fault? = none := by
  induction members with
  | nil => simp [memberFaults?]
  | cons m ms ih =>
    cases m
    rw [memberFaults?, Option.or_eq_none_iff, ih, List.forall_mem_cons, Member.value]

end TreeQuery.Json.Value
