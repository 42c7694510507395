import TreeQuery.CommandLine.Arguments

namespace TreeQuery.CommandLine

/-- The options that take no value. -/
inductive Flag where
  | noBuiltins
  | noParentIndex
  | dynamicProperties
  deriving DecidableEq

def Flag.name : Flag → String
  | noBuiltins => "no-builtins"
  | noParentIndex => "no-parent-index"
  | dynamicProperties => "dynamic-properties"

def Arguments.has (a : Arguments) : Flag → Bool
  | .noBuiltins => !a.builtins
  | .noParentIndex => !a.parentIndex
  | .dynamicProperties => a.exposeTerminals

/-- The same arguments, with the option. -/
def Arguments.set (a : Arguments) : Flag → Arguments
  | .noBuiltins => { a with builtins := false }
  | .noParentIndex => { a with parentIndex := false }
  | .dynamicProperties => { a with exposeTerminals := true }

namespace Progress

def has (p : Progress) : Flag → Bool
  | .noBuiltins => p.noBuiltins
  | .noParentIndex => p.noParentIndex
  | .dynamicProperties => p.dynamicProperties

/-- The same progress, with the option. -/
def set (p : Progress) : Flag → Progress
  | .noBuiltins => { p with noBuiltins := true }
  | .noParentIndex => { p with noParentIndex := true }
  | .dynamicProperties => { p with dynamicProperties := true }

variable (p : Progress) (flag : Flag)

theorem has_set_self : (p.set flag).has flag = true := by
  cases flag <;> rfl

theorem has_set_of_ne {other : Flag} (ne : other ≠ flag) : (p.set other).has flag = p.has flag := by
  cases flag <;> cases other <;> simp_all [has, set]

theorem set_comm (other : Flag) : (p.set other).set flag = (p.set flag).set other := by
  cases flag <;> cases other <;> rfl

theorem addFlag?_name (other : Flag) :
    p.addFlag? other.name =
      some (if p.has other then .error (.repeatedOption other.name) else .ok (p.set other)) := by
  cases other <;> rfl

theorem addFlag?_cases (name : String) :
    (∃ other : Flag, name = other.name) ∨ ∀ p : Progress, p.addFlag? name = none := by
  by_cases known : name = Flag.noBuiltins.name ∨ name = Flag.noParentIndex.name ∨
      name = Flag.dynamicProperties.name
  · left
    rcases known with rfl | rfl | rfl
    · exact ⟨_, rfl⟩
    · exact ⟨_, rfl⟩
    · exact ⟨_, rfl⟩
  · right
    intro p
    unfold addFlag?
    dsimp only
    split
    · exact absurd (.inl rfl) known
    · exact absurd (.inr (.inl rfl)) known
    · exact absurd (.inr (.inr rfl)) known
    · rfl

/-- Two ways to go on that agree but for the option. -/
def Agrees (p : Progress) (flag : Flag) (next next' : Except UsageError Progress) : Prop :=
  next' = next.map (set · flag) ∧ ∀ q, next = .ok q → q.has flag = p.has flag

theorem agrees_error (cause : UsageError) : p.Agrees flag (.error cause) (.error cause) := by
  refine ⟨rfl, fun q hq => ?_⟩
  cases hq

theorem agrees_ok {next next' : Progress} (same : next.has flag = p.has flag)
    (set : next' = next.set flag) : p.Agrees flag (.ok next) (.ok next') := by
  refine ⟨by rw [set]; rfl, fun q hq => ?_⟩
  cases hq
  exact same

theorem addPositional_agrees (argument : String) :
    p.Agrees flag (p.addPositional argument) ((p.set flag).addPositional argument) := by
  have positional : (p.set flag).positional = p.positional := by cases flag <;> rfl
  have add (arguments : List String) :
      p.Agrees flag (.ok { p with positional := arguments })
        (.ok { p.set flag with positional := arguments }) := by
    cases flag <;> exact agrees_ok _ _ rfl rfl
  unfold addPositional
  rw [positional]
  split
  · exact add _
  · split
    · exact agrees_error _ _ _
    · exact add _
  · exact agrees_error _ _ _

theorem addValue_agrees (name value : String) :
    p.Agrees flag (p.addValue name value) ((p.set flag).addValue name value) := by
  have format : (p.set flag).format = p.format := by cases flag <;> rfl
  have mode : (p.set flag).mode = p.mode := by cases flag <;> rfl
  unfold addValue
  rw [format, mode]
  split
  · split
    · exact agrees_error _ _ _
    · split
      · cases flag <;> exact agrees_ok _ _ rfl rfl
      · exact agrees_error _ _ _
  · split
    · exact agrees_error _ _ _
    · split
      · cases flag <;> exact agrees_ok _ _ rfl rfl
      · exact agrees_error _ _ _

/-- The option itself is noted; other options do not look at that. -/
theorem addFlag?_agrees (name : String) :
    (∃ next, p.addFlag? name = some next ∧ ∀ q, next = .ok q → q.has flag = true) ∨
      (p.addFlag? name = none ∧ (p.set flag).addFlag? name = none) ∨
      ∃ next next', p.addFlag? name = some next ∧ (p.set flag).addFlag? name = some next' ∧
        p.Agrees flag next next' := by
  rcases addFlag?_cases name with ⟨other, rfl⟩ | unknown
  · by_cases own : other = flag
    · refine .inl ⟨_, p.addFlag?_name other, fun q hq => ?_⟩
      split at hq
      · cases hq
      · cases hq
        rw [own, has_set_self]
    · refine .inr (.inr ⟨_, _, p.addFlag?_name other, addFlag?_name _ other, ?_⟩)
      rw [has_set_of_ne _ _ (Ne.symm own)]
      split
      · exact agrees_error _ _ _
      · exact agrees_ok _ _ (has_set_of_ne p flag own) (set_comm p other flag)
  · exact .inr (.inl ⟨unknown p, unknown _⟩)

theorem addFlag?_none {name : String} (h : p.addFlag? name = none) :
    (p.set flag).addFlag? name = none := by
  rcases p.addFlag?_agrees flag name with ⟨_, eq, -⟩ | ⟨-, none⟩ | ⟨_, _, eq, -, -⟩
  · rw [h] at eq
    cases eq
  · exact none
  · rw [h] at eq
    cases eq

theorem Agrees.ok {p next : Progress} {flag : Flag} {next' : Except UsageError Progress}
    (h : p.Agrees flag (.ok next) next') :
    next' = .ok (next.set flag) ∧ next.has flag = p.has flag :=
  ⟨h.1, h.2 next rfl⟩

theorem foldlM_addPositional {p q : Progress} {arguments : List String}
    (h : arguments.foldlM addPositional p = .ok q) :
    arguments.foldlM addPositional (p.set flag) = .ok (q.set flag) ∧ q.has flag = p.has flag := by
  induction arguments generalizing p with
  | nil =>
    cases h
    exact ⟨rfl, rfl⟩
  | cons argument arguments ih =>
    rw [List.foldlM_cons] at h ⊢
    have agrees := p.addPositional_agrees flag argument
    cases added : p.addPositional argument with
    | error error =>
      rw [added] at h
      cases h
    | ok next =>
      rw [added] at h agrees
      obtain ⟨added', same⟩ := agrees.ok
      obtain ⟨read, keeps⟩ := ih h
      rw [added']
      exact ⟨read, keeps.trans same⟩

/-- Arguments that do not have the option can be read behind it. -/
theorem readAll_set {q : Progress} (arguments : List String) :
    readAll p arguments = .ok q → q.has flag = true ∨
      (p.has flag = false ∧ readAll (p.set flag) arguments = .ok (q.set flag)) := by
  -- an argument read before `rest` passes on what is known of the option
  have step : ∀ {p next : Progress} {given rest : List String},
      p.has flag = next.has flag →
      readAll (p.set flag) given = readAll (next.set flag) rest →
      (q.has flag = true ∨
        (next.has flag = false ∧ readAll (next.set flag) rest = .ok (q.set flag))) →
      q.has flag = true ∨
        (p.has flag = false ∧ readAll (p.set flag) given = .ok (q.set flag)) := by
    intro p next given rest same behind known
    rwa [same, behind]
  fun_induction readAll p arguments with
  | case1 p =>
    intro h
    rw [← Except.ok.inj h]
    cases known : p.has flag with
    | true => exact .inl rfl
    | false => exact .inr ⟨rfl, by rw [readAll]⟩
  | case2 p rest =>
    intro h
    obtain ⟨read, keeps⟩ := foldlM_addPositional flag h
    cases known : p.has flag with
    | true => exact .inl (keeps.trans known)
    | false => exact .inr ⟨rfl, by rw [readAll, if_pos rfl, read]⟩
  | case4 p value rest notEnd option dashes name next whole added ih =>
    intro h
    rcases p.addFlag?_agrees flag name with ⟨_, eq, noted⟩ | ⟨none, -⟩ | ⟨_, _, eq, eq', agrees⟩
    · obtain rfl := Option.some.inj (added.symm.trans eq)
      rcases ih h with left | ⟨fresh, -⟩
      · exact .inl left
      · rw [noted next rfl] at fresh
        cases fresh
    · rw [added] at none
      cases none
    · obtain rfl := Option.some.inj (added.symm.trans eq)
      obtain ⟨rfl, same⟩ := agrees.ok
      refine step same.symm ?_ (ih h)
      rw [readAll, if_neg notEnd]
      simp only [dashes, whole, eq']
  | case6 p value rest notEnd option dashes name text takes noFlag next added whole ih =>
    intro h
    have agrees := p.addValue_agrees flag name text
    rw [added] at agrees
    obtain ⟨added', same⟩ := agrees.ok
    refine step same.symm ?_ (ih h)
    rw [readAll, if_neg notEnd]
    simp only [dashes, whole, p.addFlag?_none flag noFlag, takes, added']
  | case10 p value notEnd option dashes name takes noFlag text rest plain next added whole ih =>
    intro h
    have agrees := p.addValue_agrees flag name text
    rw [added] at agrees
    obtain ⟨added', same⟩ := agrees.ok
    refine step same.symm ?_ (ih h)
    rw [readAll, if_neg notEnd]
    simp [dashes, whole, p.addFlag?_none flag noFlag, takes, plain, added']
  | case14 p value rest notEnd plain next added dashes ih =>
    intro h
    have agrees := p.addPositional_agrees flag value
    rw [added] at agrees
    obtain ⟨added', same⟩ := agrees.ok
    refine step same.symm ?_ (ih h)
    rw [readAll, if_neg notEnd]
    simp [plain, added']
  | _ =>
    intro h
    cases h

theorem readAll_flag (fresh : p.has flag = false) (rest : List String) :
    readAll p (("--" ++ flag.name) :: rest) = readAll (p.set flag) rest := by
  have notEnd : "--" ++ flag.name ≠ "--" := by cases flag <;> decide
  have dashes : ("--" ++ flag.name).toList = '-' :: '-' :: flag.name.toList := by
    cases flag <;> decide
  have whole : splitOption flag.name.toList = (flag.name, none) := by cases flag <;> decide
  rw [readAll, if_neg notEnd]
  simp [dashes, whole, addFlag?_name, fresh]

theorem arguments_set {a : Arguments} (h : p.arguments = .ok a) :
    a.has flag = p.has flag ∧ (p.set flag).arguments = .ok (a.set flag) := by
  have positional : (p.set flag).positional = p.positional := by cases flag <;> rfl
  unfold arguments at h
  split at h
  · cases h
  · rename_i expression file given
    cases h
    unfold arguments
    rw [positional, given]
    cases flag with
    | noBuiltins => exact ⟨Bool.not_not _, rfl⟩
    | noParentIndex => exact ⟨Bool.not_not _, rfl⟩
    | dynamicProperties => exact ⟨rfl, rfl⟩

end Progress

/-- Put in front of arguments that do not have it, an option changes nothing but what it stands for. -/
theorem Arguments.ofList_cons {given : List String} {a : Arguments} (flag : Flag)
    (h : Arguments.ofList given = .ok a) (fresh : a.has flag = false) :
    Arguments.ofList (("--" ++ flag.name) :: given) = .ok (a.set flag) := by
  have start : Progress.has {} flag = false := by cases flag <;> rfl
  unfold Arguments.ofList at h ⊢
  rw [Progress.readAll_flag {} flag start]
  cases read : Progress.readAll {} given with
  | error error =>
    rw [read] at h
    cases h
  | ok q =>
    rw [read] at h
    obtain ⟨same, set⟩ := q.arguments_set flag h
    rw [fresh] at same
    rcases Progress.readAll_set {} flag given read with noted | ⟨-, read⟩
    · rw [noted] at same
      cases same
    · rw [read]
      exact set

/-- Put in front of arguments that keep the index, the option only leaves it away. -/
theorem Arguments.ofList_flag {given : List String} {a : Arguments}
    (h : Arguments.ofList given = .ok a) (keeps : a.parentIndex = true) :
    Arguments.ofList ("--no-parent-index" :: given) = .ok { a with parentIndex := false } :=
  Arguments.ofList_cons .noParentIndex h (by rw [has, keeps]; rfl)

end TreeQuery.CommandLine
