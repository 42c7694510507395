import TreeQuery.Proofs.Path.Places
import TreeQuery.Proofs.Query.Builtin
import TreeQuery.Proofs.Query.Depth

namespace TreeQuery

/-- The functions that an expression uses and a registry lacks: each once, in the order of first
use. -/
structure Expr.Lacks (e : Expr) (registry : Registry) (missing : List String) : Prop where
  nodup : missing.Nodup
  mem_iff : ∀ name, name ∈ missing ↔ e.Uses name ∧ registry.get? name = none
  ordered : missing.Pairwise e.UsesBefore

theorem Registry.functions_isNone (registry : Registry) (name : String) :
    (registry.functions name).isNone = (registry.get? name).isNone :=
  registry.functionsWithin_isNone maxCallDepth name

theorem Expr.lacks_missing (e : Expr) (registry : Registry) :
    e.Lacks registry (e.missing registry.functions) where
  nodup := (e.functionNames_ordered.imp UsesBefore.ne).filter _
  mem_iff name := by
    rw [missing, List.mem_filter, mem_functionNames_iff, registry.functions_isNone,
      Option.isNone_iff_eq_none]
  ordered := e.functionNames_ordered.filter _

theorem Expr.isAboutText_of_parse {text : String} {error : PathError}
    (h : Expr.parse text = .error error) : error.isAboutText := by
  unfold Expr.parse at h
  dsimp only at h
  split at h <;> cases h <;> rfl

/-- An evaluation that lacks functions fails with all of their names, and refusing the expression is
all that happens. One that lacks none succeeds, whatever the functions answer as long as they do answer;
so it does with those of the registry if none of their calls was cut off, and with any higher limit on
them the nodes are the same. A text is read first, and if it cannot be read nothing happens at all,
whatever functions there are. -/
theorem missing_functions_found_first (registry : Registry) (root start : Handle) :
    (∀ e : Expr, ∃ missing, e.Lacks registry missing ∧
      (missing ≠ [] → e.evaluateFrom registry root start =
        ⟨.error (.missingFunctions missing), #[.refused e missing]⟩) ∧
      (missing = [] →
        (∀ functions : Functions,
          (∀ name, (functions name).isNone = (registry.get? name).isNone) →
          ∃ matched, (e.evaluateWith functions root start).value = .ok matched) ∧
        ((e.evaluateFrom registry root start).Finished → ∃ matched,
          ∀ depth ≥ Registry.maxCallDepth,
            (e.evaluateWith (registry.functionsWithin depth) root start).value = .ok matched))) ∧
    ∀ text, match Expr.parse text with
      | .ok e => evaluateText text registry root start = e.evaluateFrom registry root start
      | .error error =>
        error.isAboutText ∧ evaluateText text registry root start = ⟨.error error, #[]⟩ := by
  constructor
  · intro e
    refine ⟨e.missing registry.functions, e.lacks_missing registry, fun some => ?_, fun none => ?_⟩
    · unfold Expr.evaluateFrom Expr.evaluateWith
      cases lacking : e.missing registry.functions with
      | nil => exact absurd lacking some
      | cons name names => rfl
    · have answered (functions : Functions)
          (names : ∀ name, (functions name).isNone = (registry.get? name).isNone) :
          (e.evaluateWith functions root start).value = .ok (e.select functions root start).value := by
        have same : e.missing functions = e.missing registry.functions := by
          unfold Expr.missing
          simp only [names, registry.functions_isNone]
        rw [Expr.evaluateWith_value, if_pos (same.trans none)]
      refine ⟨fun functions names => ⟨_, answered functions names⟩, fun finished => ?_⟩
      obtain ⟨deeper, -⟩ := Expr.evaluateFrom_of_finished finished
      refine ⟨e.select registry.functions root start |>.value, fun depth enough => ?_⟩
      rw [deeper depth enough]
      exact answered registry.functions registry.functions_isNone
  · intro text
    unfold evaluateText
    cases read : Expr.parse text with
    | ok e => exact rfl
    | error error => exact ⟨Expr.isAboutText_of_parse read, rfl⟩

/-- A function that calls another one, and one that is missing. -/
theorem missing_functions_found_first_calling :
    let calling : PredicateFunction := fun node candidates root =>
      .call "last" node candidates root fun holds => .answer (holds.getD false)
    let registry := Registry.builtins.register "f" calling
    let children (name : String) : Expr := .path false [.mk .child .any [.function name]]
    let root : Handle := .plain (Tree.placed ⟨{ name := "a" }, [.named "b"]⟩)
    ((children "f").evaluateFrom registry root root).Finished ∧
      (∃ matched, ∀ depth ≥ Registry.maxCallDepth, ((children "f").evaluateWith
        (registry.functionsWithin depth) root root).value = .ok matched) ∧
      (children "g").evaluateFrom registry root root =
        ⟨.error (.missingFunctions ["g"]), #[.refused (children "g") ["g"]]⟩ := by
  intro calling registry children root
  have known (name : String) : registry.get? name = if "f" = name then some calling else
      if "last" = name then some .last else if "terminal" = name then some .terminal else none := by
    change (Registry.builtins.register "f" calling).get? name = _
    rw [Registry.register, Dictionary.get?_insert, Registry.get?_builtins]
  have used (name other : String) : (children name).Uses other ↔ other = name := by
    rw [← Expr.mem_functionNames_iff]
    exact List.mem_singleton
  have finished : ((children "f").evaluateFrom registry root root).Finished := by
    unfold Trace.Finished
    decide +kernel
  obtain ⟨each, -⟩ := missing_functions_found_first registry root root
  refine ⟨finished, ?_, ?_⟩
  · obtain ⟨missing, lacks, -, answers⟩ := each (children "f")
    have none : missing = [] := by
      refine List.eq_nil_iff_forall_not_mem.mpr fun name mem => ?_
      obtain ⟨same, absent⟩ := (lacks.mem_iff name).mp mem
      rw [(used "f" name).mp same, known] at absent
      cases absent
    exact (answers none).2 finished
  · obtain ⟨missing, lacks, refused, -⟩ := each (children "g")
    have g : missing = ["g"] := by
      have absent : registry.get? "g" = none := by rw [known]; decide
      apply List.perm_singleton.mp
      refine (List.perm_ext_iff_of_nodup lacks.nodup (List.nodup_singleton "g")).mpr fun name => ?_
      rw [lacks.mem_iff, used, List.mem_singleton]
      exact ⟨And.left, fun same => ⟨same, same ▸ absent⟩⟩
    rw [← g]
    exact refused (g ▸ List.cons_ne_nil "g" [])

end TreeQuery
