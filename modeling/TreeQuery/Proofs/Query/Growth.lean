import TreeQuery.Proofs.Query.Bisimulation
import TreeQuery.Proofs.Query.Union
import TreeQuery.Proofs.Tree.Exposure

namespace TreeQuery

open List (Forall₂ SublistForall₂)

section

variable {α β γ δ : Type} {R : α → β → Prop} {S : γ → δ → Prop}

theorem sublistForall₂_append {l₁ l₂ : List α} {m₁ m₂ : List β} (first : SublistForall₂ R l₁ m₁)
    (second : SublistForall₂ R l₂ m₂) : SublistForall₂ R (l₁ ++ l₂) (m₁ ++ m₂) := by
  obtain ⟨k₁, same₁, sub₁⟩ := List.sublistForall₂_iff.mp first
  obtain ⟨k₂, same₂, sub₂⟩ := List.sublistForall₂_iff.mp second
  exact List.sublistForall₂_iff.mpr ⟨k₁ ++ k₂, List.rel_append same₁ same₂, sub₁.append sub₂⟩

theorem sublistForall₂_flatMap {l : List α} {m : List β} {f : α → List γ} {g : β → List δ}
    (each : ∀ a b, R a b → SublistForall₂ S (f a) (g b)) (h : SublistForall₂ R l m) :
    SublistForall₂ S (l.flatMap f) (m.flatMap g) := by
  induction h with
  | nil => exact .nil
  | cons first _ ih =>
    rw [List.flatMap_cons, List.flatMap_cons]
    exact sublistForall₂_append (each _ _ first) ih
  | cons_right _ ih =>
    rw [List.flatMap_cons]
    exact sublistForall₂_append .nil ih

/-- A test that passes at least the counterparts of what another passes keeps at least these. -/
theorem sublistForall₂_filter {l : List α} {m : List β} {p : α → Bool} {q : β → Bool}
    (weaker : ∀ a b, R a b → p a → q b) (h : Forall₂ R l m) :
    SublistForall₂ R (l.filter p) (m.filter q) := by
  induction h with
  | nil => exact .nil
  | @cons a b l m first _ ih =>
    by_cases passes : p a
    · rw [List.filter_cons_of_pos passes, List.filter_cons_of_pos (weaker a b first passes)]
      exact .cons first ih
    · rw [List.filter_cons_of_neg passes, List.filter_cons]
      split
      · exact .cons_right ih
      · exact ih

end

/-- Counterparts stand at the same places. -/
theorem Handle.Bisimulation.map_place {rel : Handle → Handle → Prop} (b : Bisimulation rel)
    {hs ks : List Handle} (h : SublistForall₂ rel hs ks) :
    (hs.map Handle.place).Sublist (ks.map Handle.place) := by
  obtain ⟨ls, same, sub⟩ := List.sublistForall₂_iff.mp h
  rw [map_eq_map_of_forall₂ (fun _ _ related => b.place related) same]
  exact sub.map Handle.place

/-- A label that differs from another at most in its offset and in having more attributes. -/
structure Label.Within (a b : Label) : Prop where
  name : a.name = b.name
  value : a.value = b.value
  attributes : ∀ key value, a.attributes.get? key = some value → b.attributes.get? key = some value

/-- A handle of a tree, and its counterpart in a tree that may have more attributes. -/
abbrev Handle.Grown : Handle → Handle → Prop := Handle.Alike Label.Within

namespace Handle.Grown

variable {h k : Handle} (same : Grown h k)

include same

theorem name_eq : h.name = k.name := same.node.label.label.name

theorem value?_eq : h.value? = k.value? := same.node.label.label.value

theorem property? {key value : String} (found : h.property? key = some value) :
    k.property? key = some value := by
  unfold Handle.property? at found ⊢
  rw [← value?_eq same, ← name_eq same]
  split_ifs at found ⊢ with own name
  · exact found
  · exact found
  · exact same.node.label.label.attributes key value found

theorem isTerminal_eq : h.isTerminal = k.isTerminal := by
  have children : h.children.isEmpty = k.children.isEmpty := by
    rw [Bool.eq_iff_iff, List.isEmpty_iff_length_eq_zero, List.isEmpty_iff_length_eq_zero,
      (bisimulation_alike.children same).length_eq]
  rw [isTerminal, isTerminal, value?_eq same, children]

end Handle.Grown

section

variable {root root' : Handle} {functions : Functions}

/-- The candidates of a step are the counterparts of those it had. -/
theorem candidatesOf_grown (top : Handle.Grown root root') (axis : Axis) (test : NodeTest)
    {h k : Handle} (same : Handle.Grown h k) :
    Forall₂ Handle.Grown (candidatesOf axis test h root) (candidatesOf axis test k root') := by
  refine List.rel_filter (fun c d candidate => ?_)
    (Handle.bisimulation_alike.follow axis same top)
  dsimp only
  rw [candidate.name_eq]

theorem answer_grown {h k : Handle} (same : Handle.Grown h k) {hs ks : List Handle}
    (all : Forall₂ Handle.Grown hs ks) (name : String) :
    Registry.builtins.functions.answer name h hs root =
      Registry.builtins.functions.answer name k ks root' := by
  rw [Registry.answer_builtins, Registry.answer_builtins, Handle.bisimulation_alike.isLast same all,
    same.isTerminal_eq]

end

/-- What an expression finds, it finds in a tree with more attributes; the predicates of a step
compare counterparts among the same candidates. -/
theorem partsInduction_grown :
    PartsInduction
      (fun e => ∀ root root' h k, Handle.Grown root root' → Handle.Grown h k →
        (e.select Registry.builtins.functions root h).value.map Handle.place ⊆
            (e.select Registry.builtins.functions root' k).value.map Handle.place ∧
          (e.isUnion = false →
            SublistForall₂ Handle.Grown (e.select Registry.builtins.functions root h).value
              (e.select Registry.builtins.functions root' k).value))
      (fun s => ∀ root root' current current', Handle.Grown root root' →
        SublistForall₂ Handle.Grown current current' →
        SublistForall₂ Handle.Grown (s.take Registry.builtins.functions root current).value
          (s.take Registry.builtins.functions root' current').value)
      (fun p => ∀ root root' h k candidates candidates', Handle.Grown root root' →
        Handle.Grown h k → Forall₂ Handle.Grown candidates candidates' →
        (p.holds Registry.builtins.functions h candidates root).value →
          (p.holds Registry.builtins.functions k candidates' root').value) where
  path absolute steps ih := by
    intro root root' h k top start
    have go : ∀ current current', SublistForall₂ Handle.Grown current current' →
        SublistForall₂ Handle.Grown
          (steps.foldl (fun current s =>
            (s.take Registry.builtins.functions root current).value) current)
          (steps.foldl (fun current s =>
            (s.take Registry.builtins.functions root' current).value) current') := by
      induction steps with
      | nil => exact fun _ _ current => current
      | cons s steps more =>
        intro current current' sub
        exact more (fun t ht => ih t (by simp [ht])) _ _
          (ih s (by simp) root root' current current' top sub)
    have found := go [h] [k] (.cons start .nil)
    rw [Expr.select_path, Expr.select_path]
    exact ⟨(Handle.bisimulation_alike.map_place found).subset, fun _ => found⟩
  union branches ih := by
    intro root root' h k top start
    refine ⟨fun place found => ?_, nofun⟩
    rw [Expr.select_union, Handle.mem_map_place_distinct, List.map_flatMap] at found ⊢
    obtain ⟨e, he, found⟩ := List.mem_flatMap.mp found
    exact List.mem_flatMap.mpr ⟨e, he, (ih e he root root' h k top start).1 found⟩
  step axis test predicates ih := by
    intro root root' current current' top sub
    rw [Step.take_value, Step.take_value]
    refine sublistForall₂_flatMap (fun h k same => ?_) sub
    have candidates := candidatesOf_grown top axis test same
    refine sublistForall₂_filter (fun c d candidate holds => ?_) candidates
    rw [List.all_eq_true] at holds ⊢
    exact fun p hp => ih p hp root root' c d _ _ top candidate candidates (holds p hp)
  attributes name value := by
    intro root root' h k candidates candidates' _ same _ holds
    rw [Predicate.holds_attribute, beq_iff_eq] at holds ⊢
    exact same.property? holds
  position number := by
    intro root root' h k candidates candidates' _ same all holds
    rw [Predicate.holds_position] at holds ⊢
    rwa [← Handle.bisimulation_alike.isAtPosition same all]
  nested e ih := by
    intro root root' h k candidates candidates' _ same _ holds
    rw [Predicate.holds_nested, Bool.and_eq_true, Bool.not_eq_true', List.isEmpty_eq_false_iff]
      at holds ⊢
    refine ⟨holds.1, fun none => holds.2 ?_⟩
    have within := (ih h k h k same same).1
    rw [none, List.map_nil, List.subset_nil, List.map_eq_nil_iff] at within
    exact within
  function name := by
    intro root root' h k candidates candidates' _ same all holds
    rw [Predicate.holds_function] at holds ⊢
    rwa [← answer_grown same all]
  either p q ihp ihq := by
    intro root root' h k candidates candidates' top same all holds
    rw [Predicate.holds_either, Bool.or_eq_true] at holds ⊢
    exact holds.imp (ihp root root' h k candidates candidates' top same all)
      (ihq root root' h k candidates candidates' top same all)

/-- Exposing terminals adds attributes and changes nothing else. -/
theorem Tree.alike_exposeTerminals (t : Tree Label) : t.Alike Label.Within t.exposeTerminals := by
  have each : ∀ n : Tree Label, n.label.Within (exposedLabel n) := by
    intro n
    refine ⟨rfl, rfl, fun key value found => ?_⟩
    rw [exposedLabel, get?_withTerminalValues, found, Option.some_or]
  rw [exposeTerminals_eq]
  exact alike_relabel each t

/-- Attributes that a tree gains lose no match. In a tree with at least the same attributes, such as that
with its terminals exposed, an expression that succeeded still succeeds and finds every place it found,
and a single path finds them in the same order. -/
theorem attributes_keep_matches :
    (∀ t : Tree Label, t.Alike Label.Within t.exposeTerminals) ∧
    ∀ (t t' : Tree Label), t.Alike Label.Within t' → ∀ (top : Option Nat),
      ∀ root root', (root, root') ∈ (t.handles top).zip (t'.handles top) →
      ∀ start start', (start, start') ∈ (t.handles top).zip (t'.handles top) →
      ∀ (e : Expr) (found : List Handle),
        (e.evaluateFrom .builtins root start).value = .ok found →
        ∃ found', (e.evaluateFrom .builtins root' start').value = .ok found' ∧
          found.map Handle.place ⊆ found'.map Handle.place ∧
          (e.isUnion = false → (found.map Handle.place).Sublist (found'.map Handle.place)) := by
  refine ⟨Tree.alike_exposeTerminals, ?_⟩
  intro t t' alike top root root' hr start start' hs e found h
  obtain ⟨missing, rfl⟩ := Expr.evaluateWith_eq_ok_iff.mp h
  have same := alike.handles top
  obtain ⟨within, path⟩ := partsInduction_grown.expr e root root' start start'
    (List.forall₂_zip same hr) (List.forall₂_zip same hs)
  exact ⟨_, Expr.evaluateWith_eq_ok_iff.mpr ⟨missing, rfl⟩, within, fun single =>
    Handle.bisimulation_alike.map_place (path single)⟩

theorem attributes_keep_matches_exposed :
    let t : Tree Label := ⟨{ name := "a" },
      [(Tree.named "b").withAttribute "kind" "x", ⟨{ name := "c" }, [.terminal "kind" "x"]⟩]⟩
    let e : Expr := .path false [.mk .child .any [.attribute "kind" "x"]]
    let root : Handle := .plain t.placed
    let root' : Handle := .plain t.exposeTerminals.placed
    t.Alike Label.Within t.exposeTerminals ∧
      (e.evaluateFrom .builtins root root).value = .ok (root.children.take 1) ∧
      ∃ found, (e.evaluateFrom .builtins root' root').value = .ok found ∧
        [1].Sublist (found.map Handle.place) := by
  intro t e root root'
  obtain ⟨exposes, keeps⟩ := attributes_keep_matches
  have first : (root, root') ∈ (t.handles none).zip (t.exposeTerminals.handles none) := .head _
  have found : (e.evaluateFrom .builtins root root).value = .ok (root.children.take 1) := rfl
  obtain ⟨found', result, -, path⟩ :=
    keeps t t.exposeTerminals (exposes t) none root root' first root root' first e _ found
  exact ⟨exposes t, found, found', result, path rfl⟩

end TreeQuery
