import TreeQuery.Proofs.Path.Token

namespace TreeQuery.Path

/-- The reading takes `a` off the front and leaves `rest`. -/
def Reading.Takes {α : Type} {s : List Char} (r : Reading α s) (a : α) (rest : List Char) : Prop :=
  ∃ shorter, r = .read a rest shorter

namespace Reading

variable {α : Type} {s : List Char} {a b : α} {rest other : List Char}

@[simp] theorem takes_read {shorter : rest.length < s.length} :
    (read a rest shorter).Takes b other ↔ a = b ∧ rest = other := by
  constructor
  · intro h
    obtain ⟨_, h⟩ := h
    exact ⟨by injection h, by injection h⟩
  · intro h
    obtain ⟨rfl, rfl⟩ := h
    exact ⟨shorter, rfl⟩

@[simp] theorem not_takes_absent {stop : List Char} {sought : Sought} :
    ¬ (absent stop sought : Reading α s).Takes a rest := by
  intro taken
  obtain ⟨_, h⟩ := taken
  cases h

@[simp] theorem not_takes_broken {cause : Breakage} :
    ¬ (broken cause : Reading α s).Takes a rest := by
  intro taken
  obtain ⟨_, h⟩ := taken
  cases h

theorem takes_ofOption {sought : Sought} {result : Option (α × List Char)}
    {shorter : ∀ value rest, result = some (value, rest) → rest.length < s.length} :
    (ofOption sought result shorter).Takes a rest ↔ result = some (a, rest) := by
  cases result with
  | none => simp [ofOption]
  | some taken => simp [ofOption, Prod.ext_iff]

end Reading

section

variable {α : Type} {bound : Nat} {one : Reader bound α} {Item : List Char → α → Prop}

theorem several_sound
    (sound : ∀ s h a rest, (one s h).Takes a rest → ∃ t, Item t a ∧ s = t ++ rest)
    (s : List Char) (h : s.length ≤ bound) (more : Several α s) (eq : several one s h = .ok more) :
    ∃ t, Repeated Item t more.values ∧ s = t ++ more.rest := by
  induction hn : s.length using Nat.strongRecOn generalizing s with
  | ind n ih =>
    rw [several] at eq
    split at eq
    · cases eq
      exact ⟨[], .nil, rfl⟩
    · cases eq
    · rename_i a rest shorter first
      split at eq
      · cases eq
      · rename_i after others
        cases eq
        obtain ⟨t, ht, hs⟩ := sound s h a rest (first ▸ Reading.takes_read.mpr ⟨rfl, rfl⟩)
        obtain ⟨u, hu, hrest⟩ := ih rest.length (hn ▸ shorter) rest _ after others rfl
        exact ⟨t ++ u, .cons ht hu, by simp [hs, ← hrest]⟩

/-- Items that may stand before any text keep a good text good. -/
theorem Repeated.good {Good : List Char → Prop} (start : ∀ t a s, Item t a → Good (t ++ s))
    {rest : List Char} (good : Good rest) {t : List Char} {as : List α}
    (items : Repeated Item t as) : Good (t ++ rest) := by
  cases items with
  | nil => exact good
  | cons first _ =>
    rw [List.append_assoc]
    exact start _ _ _ first

/-- A reader that takes an item whatever good text follows takes any number of them, up to where it
finds none. The text of an item must itself be a good one to follow. -/
theorem several_complete {Good : List Char → Prop}
    (complete : ∀ t a rest s h, Item t a → Good rest → s = t ++ rest → (one s h).Takes a rest)
    (start : ∀ t a s, Item t a → Good (t ++ s)) {rest : List Char} (good : Good rest)
    (stop : ∀ h, ∃ far sought, one rest h = .absent far sought) {t : List Char} {as : List α}
    (items : Repeated Item t as) (s : List Char) (h : s.length ≤ bound) (hs : s = t ++ rest) :
    ∃ more, several one s h = .ok more ∧ more.values = as ∧ more.rest = rest := by
  induction items generalizing s with
  | nil =>
    obtain rfl : s = rest := hs
    obtain ⟨far, sought, none⟩ := stop h
    refine ⟨⟨[], s, Nat.le_refl _⟩, ?_, rfl, rfl⟩
    rw [several]
    simp only [none]
  | @cons t u a as first others ih =>
    rw [List.append_assoc] at hs
    obtain ⟨shorter, taken⟩ := complete t a (u ++ rest) s h first (others.good start good) hs
    obtain ⟨more, eq, values, left⟩ := ih (u ++ rest) (rest_within h shorter) rfl
    have := more.notLonger
    refine ⟨⟨a :: more.values, more.rest, by omega⟩, ?_, by rw [values], left⟩
    rw [several]
    simp only [taken, eq]

end

theorem runOf_of_all {p : Char → Bool} {t : List Char} (nonempty : t ≠ []) (h : t.all p) :
    RunOf p t := ⟨nonempty, List.all_eq_true.mp h⟩

theorem runOf_isAxisChar_name (axis : Axis) : RunOf isAxisChar axis.name.toList := by
  cases axis <;> exact runOf_of_all (by decide) (by decide)

theorem isAxisChar_isNameChar {c : Char} (h : isAxisChar c) : isNameChar c := by
  have alphanum : c.isAlphanum = (c.isUpper || c.isLower || c.isDigit) := rfl
  simp only [isAxisChar, isNameChar, alphanum, Bool.or_eq_true, decide_eq_true_eq] at h ⊢
  rcases h with h | rfl
  · simp [h]
  · simp

theorem eq_name_of_ofName? {name : List Char} {axis : Axis}
    (h : Axis.ofName? (String.ofList name) = some axis) : name = axis.name.toList := by
  have found : axis.name = String.ofList name := by simpa using List.find?_some h
  rw [found, String.toList_ofList]

theorem testOmittable_iff {axis : Axis} : axis.testOmittable ↔ axis = .parent ∨ axis = .self := by
  cases axis <;> simp [Axis.testOmittable]

/-- With a full axis ahead the outcome depends on nothing but the name. -/
theorem readAxis_full {s name rest : List Char} (run : RunOf isAxisChar name)
    (hs : s = name ++ ':' :: ':' :: rest) :
    (∀ axis, Axis.ofName? (String.ofList name) = some axis → (readAxis s).Takes axis rest) ∧
    (Axis.ofName? (String.ofList name) = none → readAxis s = .broken (.unknownAxis name)) := by
  obtain ⟨c, name, rfl⟩ := List.exists_cons_of_ne_nil run.1
  have start := run.2 c (by simp)
  have whole : takeRun isAxisChar s = some (c :: name, ':' :: ':' :: rest) :=
    takeRun_eq_some_iff.mpr ⟨hs, run, by simp [isAxisChar]⟩
  have slash : c ≠ '/' := by rintro rfl; simp [isAxisChar] at start
  have dot : c ≠ '.' := by rintro rfl; simp [isAxisChar] at start
  unfold readAxis
  split
  · exact absurd (List.cons.inj hs).1.symm slash
  · exact absurd (List.cons.inj hs).1.symm dot
  · exact absurd (List.cons.inj hs).1.symm dot
  · split
    · rename_i taken
      rw [whole] at taken
      simp only [Option.some.injEq, Prod.mk.injEq, List.cons.injEq, true_and] at taken
      obtain ⟨rfl, rfl⟩ := taken
      constructor
      · intro axis known
        split <;> simp_all
      · intro unknown
        split <;> simp_all
    · rename_i other taken
      rw [whole] at taken
      simp only [Option.some.injEq, Prod.mk.injEq] at taken
      exact absurd taken.2.symm (other _)
    · rename_i taken
      rw [whole] at taken
      cases taken

theorem readAxis_sound {s rest : List Char} {axis : Axis} (h : (readAxis s).Takes axis rest) :
    ∃ a, AxisText a rest axis ∧ s = a ++ rest := by
  unfold readAxis at h
  split at h
  · obtain ⟨rfl, rfl⟩ := Reading.takes_read.mp h
    exact ⟨_, .slash, rfl⟩
  · obtain ⟨rfl, rfl⟩ := Reading.takes_read.mp h
    exact ⟨_, .twoDots, rfl⟩
  · rename_i rest' single
    obtain ⟨rfl, rfl⟩ := Reading.takes_read.mp h
    refine ⟨_, .oneDot (fun hd => ?_), rfl⟩
    obtain ⟨after, eq⟩ := List.head?_eq_some_iff.mp hd
    exact single after (by rw [eq])
  · split at h
    · rename_i run
      obtain ⟨rfl, -, -⟩ := takeRun_eq_some_iff.mp run
      split at h
      · rename_i found
        obtain ⟨rfl, rfl⟩ := Reading.takes_read.mp h
        exact ⟨_, .full _, by simp [eq_name_of_ofName? found]⟩
      · simp at h
    · simp at h
    · simp at h

theorem readAxis_complete {s a rest : List Char} {axis : Axis} (h : AxisText a rest axis)
    (hs : s = a ++ rest) : (readAxis s).Takes axis rest := by
  cases h with
  | slash =>
    subst hs
    simp [readAxis]
  | twoDots =>
    subst hs
    simp [readAxis]
  | oneDot single =>
    unfold readAxis
    split
    · simp at hs
    · obtain rfl := (List.cons.inj hs).2
      exact absurd rfl single
    · exact Reading.takes_read.mpr ⟨rfl, (List.cons.inj hs).2⟩
    · rename_i other
      exact absurd hs (other rest)
  | full =>
    have known := Axis.ofName?_name axis
    rw [← String.ofList_toList (s := axis.name)] at known
    exact (readAxis_full (runOf_isAxisChar_name axis) (by simp [hs])).1 axis known

theorem readAxis_absent_iff {s : List Char} :
    (∃ far sought, readAxis s = .absent far sought) ↔ ¬ AxisAhead s := by
  constructor
  · intro h ahead
    obtain ⟨far, sought, absent⟩ := h
    generalize hs : s = s' at ahead
    cases ahead with
    | slash =>
      subst hs
      simp [readAxis] at absent
    | dot rest =>
      unfold readAxis at absent
      split at absent <;> simp_all
    | @full name run rest =>
      cases known : Axis.ofName? (String.ofList name) with
      | none => simp [(readAxis_full run hs).2 known] at absent
      | some axis =>
        have taken := (readAxis_full run hs).1 axis known
        simp [absent] at taken
  · intro nothing
    unfold readAxis
    split
    · exact absurd (.slash _) nothing
    · exact absurd (.dot _) nothing
    · exact absurd (.dot _) nothing
    · split
      · rename_i run
        obtain ⟨rfl, hname, -⟩ := takeRun_eq_some_iff.mp run
        exact absurd (.full hname _) nothing
      · exact ⟨_, _, rfl⟩
      · exact ⟨_, _, rfl⟩

end TreeQuery.Path
