import Mathlib.Data.List.Basic
import Mathlib.Data.List.Induction
import TreeQuery.Proofs.Path.Parts

namespace TreeQuery

mutual
/-- The predicate at a place: the numbers of branches and steps lead to a step, and a further number
to one of its predicates. -/
def Expr.predicateAt? : List Nat → Expr → Option Predicate
  | [], _ => none
  | i :: place, .path _ steps => steps[i]?.bind (Step.predicateAt? place)
  | i :: place, .union branches => branches[i]?.bind (Expr.predicateAt? place)
def Step.predicateAt? : List Nat → Step → Option Predicate
  | [], _ => none
  | i :: place, .mk _ _ predicates => predicates[i]?.bind (Predicate.predicateAt? place)
/-- Inside a predicate, 0 leads into a nested expression, and 0 and 1 to two alternatives. -/
def Predicate.predicateAt? : List Nat → Predicate → Option Predicate
  | [], p => some p
  | 0 :: place, .nested e => e.predicateAt? place
  | 0 :: place, .either p _ => p.predicateAt? place
  | 1 :: place, .either _ q => q.predicateAt? place
  | _ :: _, _ => none
end

namespace Predicate

variable (i : Nat) (place : List Nat)

@[simp] theorem predicateAt?_attribute (name value : String) :
    (Predicate.attribute name value).predicateAt? (i :: place) = none := by
  rcases i with _ | _ | _ <;> rfl

@[simp] theorem predicateAt?_position (number : Nat) :
    (position number).predicateAt? (i :: place) = none := by
  rcases i with _ | _ | _ <;> rfl

@[simp] theorem predicateAt?_function (name : String) :
    (function name).predicateAt? (i :: place) = none := by
  rcases i with _ | _ | _ <;> rfl

theorem predicateAt?_nested (e : Expr) :
    (nested e).predicateAt? (i :: place) = [e][i]?.bind (Expr.predicateAt? place) := by
  rcases i with _ | _ | _ <;> rfl

theorem predicateAt?_either (p q : Predicate) :
    (either p q).predicateAt? (i :: place) = [p, q][i]?.bind (predicateAt? place) := by
  rcases i with _ | _ | _ <;> rfl

end Predicate

/-- Whether a function of this name is used anywhere in an expression. -/
def Expr.Uses (e : Expr) (name : String) : Prop :=
  ∃ place, e.predicateAt? place = some (.function name)

def Step.Uses (s : Step) (name : String) : Prop :=
  ∃ place, s.predicateAt? place = some (.function name)

def Predicate.Uses (p : Predicate) (name : String) : Prop :=
  ∃ place, p.predicateAt? place = some (.function name)

section

variable {e : Expr} {s : Step} {p q : Predicate} {name : String}

theorem Step.Uses.path {absolute : Bool} {steps : List Step} (hs : s ∈ steps) (h : s.Uses name) :
    (Expr.path absolute steps).Uses name := by
  obtain ⟨i, hi⟩ := List.mem_iff_getElem?.mp hs
  obtain ⟨place, hp⟩ := h
  refine ⟨i :: place, ?_⟩
  rw [Expr.predicateAt?, hi]
  exact hp

theorem Expr.Uses.union {branches : List Expr} (he : e ∈ branches) (h : e.Uses name) :
    (Expr.union branches).Uses name := by
  obtain ⟨i, hi⟩ := List.mem_iff_getElem?.mp he
  obtain ⟨place, hp⟩ := h
  refine ⟨i :: place, ?_⟩
  rw [Expr.predicateAt?, hi]
  exact hp

theorem Predicate.Uses.step {axis : Axis} {test : NodeTest} {predicates : List Predicate}
    (hp : p ∈ predicates) (h : p.Uses name) : (Step.mk axis test predicates).Uses name := by
  obtain ⟨i, hi⟩ := List.mem_iff_getElem?.mp hp
  obtain ⟨place, hq⟩ := h
  refine ⟨i :: place, ?_⟩
  rw [Step.predicateAt?, hi]
  exact hq

theorem Predicate.uses_function (name : String) : (Predicate.function name).Uses name :=
  ⟨[], by rw [predicateAt?]⟩

theorem Expr.Uses.nested (h : e.Uses name) : (Predicate.nested e).Uses name := by
  obtain ⟨place, hp⟩ := h
  exact ⟨0 :: place, by rwa [Predicate.predicateAt?]⟩

theorem Predicate.Uses.first (h : p.Uses name) : (Predicate.either p q).Uses name := by
  obtain ⟨place, hp⟩ := h
  exact ⟨0 :: place, by rwa [Predicate.predicateAt?]⟩

theorem Predicate.Uses.second (h : q.Uses name) : (Predicate.either p q).Uses name := by
  obtain ⟨place, hp⟩ := h
  exact ⟨1 :: place, by rwa [Predicate.predicateAt?]⟩

/-- What a part uses, all around it uses. -/
theorem partsInduction_uses :
    PartsInduction
      (fun e => ∀ place p, e.predicateAt? place = some p → ∀ name, p.Uses name → e.Uses name)
      (fun s => ∀ place p, s.predicateAt? place = some p → ∀ name, p.Uses name → s.Uses name)
      (fun q => ∀ place p, q.predicateAt? place = some p → ∀ name, p.Uses name → q.Uses name) where
  path absolute steps ih
    | [], p, h, name, used => nomatch h
    | i :: place, p, h, name, used => by
      obtain ⟨s, hi, h⟩ := Option.bind_eq_some_iff.mp h
      have hs := List.mem_of_getElem? hi
      exact (ih s hs place p h name used).path hs
  union branches ih
    | [], p, h, name, used => nomatch h
    | i :: place, p, h, name, used => by
      obtain ⟨e, hi, h⟩ := Option.bind_eq_some_iff.mp h
      have he := List.mem_of_getElem? hi
      exact (ih e he place p h name used).union he
  step axis test predicates ih
    | [], p, h, name, used => nomatch h
    | i :: place, p, h, name, used => by
      obtain ⟨q, hi, h⟩ := Option.bind_eq_some_iff.mp h
      have hq := List.mem_of_getElem? hi
      exact (ih q hq place p h name used).step hq
  attributes name value
    | [], p, h, _, used => Option.some.inj h ▸ used
    | i :: place, p, h, _, used => by simp at h
  position number
    | [], p, h, _, used => Option.some.inj h ▸ used
    | i :: place, p, h, _, used => by simp at h
  nested e ih
    | [], p, h, _, used => Option.some.inj h ▸ used
    | 0 :: place, p, h, name, used => (ih place p h name used).nested
    | (i + 1) :: place, p, h, name, used => by simp [Predicate.predicateAt?_nested] at h
  function name
    | [], p, h, _, used => Option.some.inj h ▸ used
    | i :: place, p, h, _, used => by simp at h
  either q r ihq ihr
    | [], p, h, _, used => Option.some.inj h ▸ used
    | 0 :: place, p, h, name, used => (ihq place p h name used).first
    | 1 :: place, p, h, name, used => (ihr place p h name used).second
    | (i + 2) :: place, p, h, name, used => by simp [Predicate.predicateAt?_either] at h

end

/-- What is found at any places, from the first place to the last. -/
def InOrder {β : Type} (find : List Nat → Option β) (found : List β) : Prop :=
  ∃ places : List (List Nat), places.Pairwise (· < ·) ∧
    (∀ place, place ∈ places ↔ (find place).isSome) ∧ places.filterMap find = found

namespace InOrder

theorem mem_iff {β : Type} {find : List Nat → Option β} {found : List β}
    (ordered : InOrder find found) {b : β} : b ∈ found ↔ ∃ place, find place = some b := by
  obtain ⟨places, -, all, rfl⟩ := ordered
  rw [List.mem_filterMap]
  constructor
  · intro h
    obtain ⟨place, -, here⟩ := h
    exact ⟨place, here⟩
  · intro h
    obtain ⟨place, here⟩ := h
    exact ⟨place, (all place).mpr (by rw [here]; rfl), here⟩

/-- What a number followed by a place leads to, if the numbers lead to these items. -/
def findIn {α β : Type} (find : List Nat → α → Option β) (items : List α) :
    List Nat → Option β
  | [] => none
  | i :: place => items[i]?.bind (find place)

theorem mem_of_findIn {α β : Type} {find : List Nat → α → Option β} {items : List α}
    {place : List Nat} {found : β} (h : findIn find items place = some found) :
    ∃ item ∈ items, ∃ inside, find inside item = some found := by
  cases place with
  | nil => cases h
  | cons i inside =>
    obtain ⟨item, here, h⟩ := Option.bind_eq_some_iff.mp h
    exact ⟨item, List.mem_of_getElem? here, inside, h⟩

/-- The same place in the item that follows. -/
def further : List Nat → List Nat
  | [] => []
  | i :: place => (i + 1) :: place

theorem further_lt {a b : List Nat} (h : a < b) : further a < further b := by
  cases b with
  | nil => exact absurd h (List.not_lt_nil a)
  | cons j b =>
    cases a with
    | nil => exact List.nil_lt_cons (j + 1) b
    | cons i a =>
      refine List.cons_lt_cons_iff.mpr ((List.cons_lt_cons_iff.mp h).imp Nat.succ_lt_succ ?_)
      exact And.imp_left (congrArg (· + 1))

@[simp] theorem further_eq_succ_iff {i : Nat} {a b : List Nat} :
    further a = (i + 1) :: b ↔ a = i :: b := by
  cases a <;> simp [further]

@[simp] theorem further_eq_nil_iff {a : List Nat} : further a = [] ↔ a = [] := by
  cases a <;> simp [further]

@[simp] theorem further_ne_zero (a b : List Nat) : further a ≠ 0 :: b := by
  cases a <;> simp [further]

theorem zero_lt_further {b : List Nat} (a : List Nat) (h : b ≠ []) : 0 :: a < further b := by
  cases b with
  | nil => exact absurd rfl h
  | cons j b => exact List.cons_lt_cons_iff.mpr (.inl (Nat.succ_pos j))

section

variable {α β : Type} {find : List Nat → α → Option β} {item : α} {items : List α} {ps qs : List β}

theorem cons (own : InOrder (find · item) ps) (later : InOrder (findIn find items) qs) :
    InOrder (findIn find (item :: items)) (ps ++ qs) := by
  obtain ⟨owns, ownOrder, ownMem, rfl⟩ := own
  obtain ⟨laters, laterOrder, laterMem, rfl⟩ := later
  have apart : ∀ b ∈ laters, b ≠ [] := by
    rintro b hb rfl
    exact absurd ((laterMem []).mp hb) (by simp [findIn])
  refine ⟨owns.map (0 :: ·) ++ laters.map further, ?_, ?_, ?_⟩
  · refine List.pairwise_append.mpr ⟨?_, List.pairwise_map.mpr (laterOrder.imp further_lt), ?_⟩
    · exact List.pairwise_map.mpr (ownOrder.imp fun lt => List.cons_lt_cons_iff.mpr (.inr ⟨rfl, lt⟩))
    · intro a ha b hb
      obtain ⟨a, -, rfl⟩ := List.mem_map.mp ha
      obtain ⟨c, hc, rfl⟩ := List.mem_map.mp hb
      exact zero_lt_further a (apart c hc)
  · intro place
    rw [List.mem_append, List.mem_map, List.mem_map]
    match place with
    | [] => simp [findIn, further_eq_nil_iff, laterMem]
    | 0 :: place => simp [findIn, ownMem, further_ne_zero]
    | (i + 1) :: place => simp [findIn, further_eq_succ_iff, laterMem]
  · rw [List.filterMap_append, List.filterMap_map, List.filterMap_map]
    congr 1
    refine List.filterMap_congr fun b hb => ?_
    cases b with
    | nil => exact absurd rfl (apart [] hb)
    | cons i b => rfl

/-- Items one after the other list what is found in them one after the other. -/
theorem flatMap {list : α → List β}
    (each : ∀ item ∈ items, InOrder (find · item) (list item)) :
    InOrder (findIn find items) (items.flatMap list) := by
  induction items with
  | nil => exact ⟨[], .nil, fun place => by cases place <;> simp [findIn], rfl⟩
  | cons item items ih =>
    exact (each item (by simp)).cons (ih fun other h => each other (by simp [h]))

/-- What stands outside comes before all inside it. -/
theorem outermost (p : β) (inner : InOrder (findIn find items) ps) :
    InOrder (fun place => if place = [] then some p else findIn find items place) (p :: ps) := by
  obtain ⟨places, order, mem, rfl⟩ := inner
  have apart : ∀ b ∈ places, b ≠ [] := by
    rintro b hb rfl
    exact absurd ((mem []).mp hb) (by simp [findIn])
  refine ⟨[] :: places, List.pairwise_cons.mpr ⟨fun b hb => ?_, order⟩, fun place => ?_, ?_⟩
  · cases b with
    | nil => exact absurd rfl (apart [] hb)
    | cons i b => exact List.nil_lt_cons i b
  · by_cases here : place = [] <;> simp [here, mem]
  · rw [List.filterMap_cons, if_pos rfl]
    exact congrArg _ (List.filterMap_congr fun b hb => if_neg (apart b hb))

end

end InOrder

namespace Expr

theorem branchesPredicates_eq (es : List Expr) : branchesPredicates es = es.flatMap predicates := by
  induction es with
  | nil => rfl
  | cons e es ih => rw [branchesPredicates, ih, List.flatMap_cons]

theorem stepsPredicates_eq (ss : List Step) : stepsPredicates ss = ss.flatMap stepPredicates := by
  induction ss with
  | nil => rfl
  | cons s ss ih => rw [stepsPredicates, ih, List.flatMap_cons]

theorem listPredicates_eq (ps : List Predicate) : listPredicates ps = ps.flatMap withInner := by
  induction ps with
  | nil => rfl
  | cons p ps ih => rw [listPredicates, ih, List.flatMap_cons]

end Expr

/-- A predicate lists itself and then what is inside its parts. -/
theorem Predicate.inOrder {α : Type} (find : List Nat → α → Option Predicate) (items : List α)
    (list : α → List Predicate) {p : Predicate} (start : p.predicateAt? [] = some p)
    (inside : ∀ i place, p.predicateAt? (i :: place) = items[i]?.bind (find place))
    (each : ∀ item ∈ items, InOrder (find · item) (list item)) :
    InOrder (p.predicateAt? ·) (p :: items.flatMap list) := by
  have places : (p.predicateAt? ·) =
      fun place => if place = [] then some p else InOrder.findIn find items place := by
    funext place
    cases place with
    | nil => exact start
    | cons i place => exact inside i place
  rw [places]
  exact .outermost p (.flatMap each)

theorem Predicate.inOrder_alone {p : Predicate} (start : p.predicateAt? [] = some p)
    (inside : ∀ i place, p.predicateAt? (i :: place) = none) : InOrder (p.predicateAt? ·) [p] :=
  inOrder Expr.predicateAt? [] Expr.predicates start inside (by simp)

/-- All parts list their predicates from the first place to the last. -/
theorem partsInduction_inOrder :
    PartsInduction (fun e => InOrder (e.predicateAt? ·) e.predicates)
      (fun s => InOrder (s.predicateAt? ·) (Expr.stepPredicates s))
      (fun p => InOrder (p.predicateAt? ·) (Expr.withInner p)) where
  path absolute steps ih := by
    have places : ((Expr.path absolute steps).predicateAt? ·) =
        InOrder.findIn Step.predicateAt? steps := by
      funext place
      cases place <;> rfl
    rw [places, Expr.predicates, Expr.stepsPredicates_eq]
    exact .flatMap ih
  union branches ih := by
    have places : ((Expr.union branches).predicateAt? ·) =
        InOrder.findIn Expr.predicateAt? branches := by
      funext place
      cases place <;> rfl
    rw [places, Expr.predicates, Expr.branchesPredicates_eq]
    exact .flatMap ih
  step axis test predicates ih := by
    have places : ((Step.mk axis test predicates).predicateAt? ·) =
        InOrder.findIn Predicate.predicateAt? predicates := by
      funext place
      cases place <;> rfl
    rw [places, Expr.stepPredicates, Expr.listPredicates_eq]
    exact .flatMap ih
  attributes name value := Predicate.inOrder_alone rfl fun i place => by simp
  position number := Predicate.inOrder_alone rfl fun i place => by simp
  nested e ih := by
    have inside := fun i place => Predicate.predicateAt?_nested i place e
    simpa [Expr.withInner] using
      Predicate.inOrder Expr.predicateAt? [e] Expr.predicates rfl inside (by simpa)
  function name := Predicate.inOrder_alone rfl fun i place => by simp
  either p q ihp ihq := by
    have inside := fun i place => Predicate.predicateAt?_either i place p q
    simpa [Expr.withInner] using
      Predicate.inOrder Predicate.predicateAt? [p, q] Expr.withInner rfl inside
        (by simp [ihp, ihq])

/-- Adds a name behind others unless it is one of them. -/
def Expr.addName (found : List String) (name : String) : List String :=
  if name ∈ found then found else found ++ [name]

def Predicate.functionName? : Predicate → Option String
  | .function name => some name
  | _ => none

theorem Predicate.functionName?_eq_some_iff {p : Predicate} {name : String} :
    p.functionName? = some name ↔ p = .function name := by
  cases p <;> simp [functionName?]

theorem Expr.functionNames_eq (e : Expr) :
    e.functionNames = (e.predicates.filterMap Predicate.functionName?).foldl addName [] := rfl

section

variable {names : List String} {name : String}

theorem Expr.mem_foldl_addName {found : List String} :
    name ∈ names.foldl addName found ↔ name ∈ found ∨ name ∈ names := by
  induction names generalizing found with
  | nil => simp
  | cons first names ih =>
    have added : name ∈ addName found first ↔ name ∈ found ∨ name = first := by
      unfold addName
      split
      · rename_i known
        exact ⟨.inl, fun h => h.elim id fun same => same ▸ known⟩
      · rw [List.mem_append, List.mem_singleton]
    rw [List.foldl_cons, ih, added, List.mem_cons, or_assoc]

/-- Names gathered along a line of places come in the order of their first places. -/
theorem Expr.foldl_addName_ordered {places : List (List Nat)} (ordered : places.Pairwise (· < ·))
    (name? : List Nat → Option String) :
    ((places.filterMap name?).foldl addName []).Pairwise fun a b =>
      ∃ place ∈ places, name? place = some a ∧
        ∀ later ∈ places, name? later = some b → place < later := by
  induction places using List.reverseRecOn with
  | nil => exact .nil
  | append_singleton places last ih =>
    obtain ⟨ordered, -, before⟩ := List.pairwise_append.mp ordered
    have before : ∀ place ∈ places, place < last := fun place h => before place h last (by simp)
    have earlier := (ih ordered).imp fun {a b} (h : ∃ place ∈ places, name? place = some a ∧ _) => by
      obtain ⟨place, hp, here, first⟩ := h
      refine (⟨place, by simp [hp], here, fun later hl used => ?_⟩ :
        ∃ place ∈ places ++ [last], name? place = some a ∧
          ∀ later ∈ places ++ [last], name? later = some b → place < later)
      rcases List.mem_append.mp hl with hl | hl
      · exact first later hl used
      · exact List.mem_singleton.mp hl ▸ before place hp
    rw [List.filterMap_append, List.foldl_append]
    cases found : name? last with
    | none => simpa [found] using earlier
    | some name =>
      simp only [List.filterMap_cons, found, List.filterMap_nil, List.foldl_cons, List.foldl_nil]
      unfold addName
      split
      · exact earlier
      · rename_i new
        refine List.pairwise_append.mpr ⟨earlier, List.pairwise_singleton _ _, fun a ha b hb => ?_⟩
        obtain rfl := List.mem_singleton.mp hb
        have used := (mem_foldl_addName.mp ha).resolve_left List.not_mem_nil
        obtain ⟨place, hp, here⟩ := List.mem_filterMap.mp used
        refine ⟨place, by simp [hp], here, fun later hl again => ?_⟩
        rcases List.mem_append.mp hl with hl | hl
        · exact absurd (mem_foldl_addName.mpr (.inr (List.mem_filterMap.mpr ⟨later, hl, again⟩))) new
        · exact List.mem_singleton.mp hl ▸ before place hp

end

namespace Expr

/-- Whether the first use of one function stands before all uses of another. -/
def UsesBefore (e : Expr) (a b : String) : Prop :=
  ∃ place, e.predicateAt? place = some (.function a) ∧
    ∀ later, e.predicateAt? later = some (.function b) → place < later

variable (e : Expr)

/-- The functions that an expression names are those used at any place, by the order of first use. -/
theorem functionNames_spec :
    (∀ name, name ∈ e.functionNames ↔ e.Uses name) ∧ e.functionNames.Pairwise e.UsesBefore := by
  obtain ⟨places, ordered, mem, listed⟩ := partsInduction_inOrder.expr e
  have used : ∀ place name, (e.predicateAt? place).bind Predicate.functionName? = some name ↔
      e.predicateAt? place = some (.function name) := by
    intro place name
    simp [Option.bind_eq_some_iff, Predicate.functionName?_eq_some_iff]
  have here : ∀ place name, e.predicateAt? place = some (.function name) → place ∈ places :=
    fun place name h => (mem place).mpr (by simp [h])
  rw [functionNames_eq, ← listed, List.filterMap_filterMap]
  constructor
  · intro name
    simp only [mem_foldl_addName, List.not_mem_nil, false_or, List.mem_filterMap, used]
    exact ⟨fun ⟨place, _, h⟩ => ⟨place, h⟩, fun ⟨place, h⟩ => ⟨place, here place name h, h⟩⟩
  · refine (foldl_addName_ordered ordered _).imp fun {a b} h => ?_
    obtain ⟨place, -, first, before⟩ := h
    refine ⟨place, (used place a).mp first, fun later h => ?_⟩
    exact before later (here later b h) ((used later b).mpr h)

theorem mem_functionNames_iff {name : String} : name ∈ e.functionNames ↔ e.Uses name :=
  e.functionNames_spec.1 name

theorem functionNames_ordered : e.functionNames.Pairwise e.UsesBefore := e.functionNames_spec.2

theorem UsesBefore.ne {e : Expr} {a b : String} (h : e.UsesBefore a b) : a ≠ b := by
  rintro rfl
  obtain ⟨place, here, before⟩ := h
  exact List.lt_irrefl place (before place here)

end Expr

end TreeQuery
