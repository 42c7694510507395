import TreeQuery.Proofs.Json.ReadBack

namespace TreeQuery.Json

/-- Nothing but characters from U+0020 on is written in front of `rest`. -/
def PlainBefore (s rest : List Char) : Prop := ∀ c ∈ s, c ∈ rest ∨ 0x20 ≤ c.toNat

namespace PlainBefore

variable {s t rest : List Char}

theorem refl (s : List Char) : PlainBefore s s := fun _ => .inl

theorem trans (first : PlainBefore s t) (later : PlainBefore t rest) : PlainBefore s rest :=
  fun c hc => (first c hc).elim (later c) .inr

theorem append (plain : ∀ c ∈ s, 0x20 ≤ c.toNat) (rest : List Char) : PlainBefore (s ++ rest) rest :=
  fun c hc => (List.mem_append.mp hc).elim (fun h => .inr (plain c h)) .inl

theorem cons {c : Char} (plain : 0x20 ≤ c.toNat) (h : PlainBefore s rest) :
    PlainBefore (c :: s) rest := by
  intro d hd
  rcases List.mem_cons.mp hd with rfl | hd
  · exact .inr plain
  · exact h d hd

end PlainBefore

theorem hexDigit_plain (n : Nat) : 0x20 ≤ (hexDigit n).toNat := by
  have digits : ∀ m < 16, 0x20 ≤ ((Nat.toDigits 16 m).headD '0').toNat := by decide
  exact digits (n % 16) (Nat.mod_lt n (by decide))

theorem escapeChar_plain (c : Char) : ∀ d ∈ escapeChar c, 0x20 ≤ d.toNat := by
  unfold escapeChar
  -- the seven characters that have a letter of their own
  iterate 7
    split
    · simp
  split
  · simp [hexDigit_plain]
  · rename_i plain
    simpa using plain

theorem writeText_plain (text : String) (rest : List Char) :
    PlainBefore (writeText text rest) rest := by
  have body (cs : List Char) :
      PlainBefore (cs.foldr (fun c written => escapeChar c ++ written) ('"' :: rest)) rest := by
    induction cs with
    | nil => exact .cons (by decide) (.refl rest)
    | cons c cs ih => exact (PlainBefore.append (escapeChar_plain c) _).trans ih
  exact .cons (by decide) (body text.toList)

theorem writeParts_plain {α : Type} {write : α → List Char → List Char} {closing : Char}
    (bracket : 0x20 ≤ closing.toNat) {parts : List α}
    (each : ∀ a ∈ parts, ∀ rest, PlainBefore (write a rest) rest) (rest : List Char) :
    PlainBefore (writeParts write closing rest parts) rest := by
  have more (later : List α) (each : ∀ a ∈ later, ∀ rest, PlainBefore (write a rest) rest) :
      PlainBefore (writeMore write closing later rest) rest := by
    induction later with
    | nil => exact .cons bracket (.refl rest)
    | cons a later ih =>
      obtain ⟨first, others⟩ := List.forall_mem_cons.mp each
      exact .cons (by decide) ((first _).trans (ih others))
  cases parts with
  | nil => exact .cons bracket (.refl rest)
  | cons a parts =>
    obtain ⟨first, others⟩ := List.forall_mem_cons.mp each
    exact (first _).trans (more parts others)

/-- Whatever is written without loss has no control characters. -/
theorem Value.write_plain {v : Value} (exact : v.Exact) (rest : List Char) :
    PlainBefore (v.write rest) rest := by
  induction v using Value.byParts generalizing rest with
  | step v ih =>
    match v, exact with
    | .null, _ => exact .append (s := ['n', 'u', 'l', 'l']) (by simp) rest
    | .boolean true, _ => exact .append (s := ['t', 'r', 'u', 'e']) (by simp) rest
    | .boolean false, _ => exact .append (s := ['f', 'a', 'l', 's', 'e']) (by simp) rest
    | .text s, _ => exact writeText_plain s rest
    | .number (.natural n), _ =>
      refine .append (fun c hc => ?_) rest
      have digit := isDigit_toDigits hc
      rw [Char.isDigit, Bool.and_eq_true, decide_eq_true_eq, decide_eq_true_eq] at digit
      exact Nat.le_trans (by decide) (UInt32.le_iff_toNat_le.mp digit.1)
    | .array items none, whole =>
      rw [write, writeItems_eq]
      exact .cons (by decide) (writeParts_plain (by decide)
        (fun v hv => ih v hv (allExact_iff.mp whole v hv)) rest)
    | .object members none, whole =>
      rw [write, writeMembers_eq]
      refine .cons (by decide) (writeParts_plain (by decide) (fun m hm rest => ?_) rest)
      obtain ⟨key, v⟩ := m
      rw [writeMember]
      have inner := ih v (List.mem_map_of_mem hm) (membersExact_iff.mp whole _ hm) rest
      exact (writeText_plain key _).trans (.cons (by decide) inner)

end TreeQuery.Json
