import TreeQuery.Proofs.Json.Token

namespace TreeQuery.Json

theorem isDigit_toDigits {n : Nat} {c : Char} (h : c ∈ Nat.toDigits 10 n) : c.isDigit :=
  Nat.isDigit_of_mem_toDigits (by decide) (by decide) h

/-- No number but zero starts with a zero. -/
theorem head?_toDigits_ne {n : Nat} (pos : 0 < n) : (Nat.toDigits 10 n).head? ≠ some '0' := by
  induction n using Nat.strongRecOn with
  | ind n ih =>
    rw [Nat.toDigits_eq_if (by decide)]
    split
    · simpa using Nat.ne_of_gt pos
    · have shorter := ih (n / 10) (by omega) (by omega)
      cases digits : Nat.toDigits 10 (n / 10) with
      | nil => exact absurd digits Nat.toDigits_ne_nil
      | cons d s =>
        rw [digits] at shorter
        exact shorter

theorem wholeText_toDigits (n : Nat) : WholeText (Nat.toDigits 10 n) := by
  refine ⟨⟨Nat.toDigits_ne_nil, fun _ => isDigit_toDigits⟩, fun zero => ?_⟩
  rcases Nat.eq_zero_or_pos n with rfl | pos
  · exact Nat.toDigits_zero 10
  · exact absurd zero (head?_toDigits_ne pos)

theorem numeralText_toDigits (n : Nat) :
    NumeralText (Nat.toDigits 10 n) ⟨false, Nat.toDigits 10 n, none, none⟩ := by
  have text : UnsignedText false (Nat.toDigits 10 n ++ ([] ++ [])) _ :=
    .intro (wholeText_toDigits n) .none .none
  rw [List.append_nil, List.append_nil] at text
  exact .unsigned text

theorem wholeValue_toDigits {n : Nat} (fits : n < wholeLimit) :
    wholeValue (Nat.toDigits 10 n) = (n, 0) := by
  induction n using Nat.strongRecOn with
  | ind n ih =>
    rw [Nat.toDigits_eq_if (by decide)]
    split
    · rename_i small
      have digit : digitValue (Nat.digitChar n) = n := Nat.toNat_digitChar_sub_48_of_lt_ten small
      simp [wholeValue, digit, fits]
    · have front := ih (n / 10) (by omega) (by omega)
      have digit : digitValue (Nat.digitChar (n % 10)) = n % 10 :=
        Nat.toNat_digitChar_sub_48_of_lt_ten (by omega)
      have whole : n / 10 * 10 + n % 10 = n := by omega
      rw [wholeValue, List.foldl_append, ← wholeValue, front]
      simp [digit, whole, fits]

theorem Numeral.value_toDigits (n : UInt64) :
    Numeral.value ⟨false, Nat.toDigits 10 n.toNat, none, none⟩ = .ok (.natural n) := by
  simp [Numeral.value, wholeValue_toDigits n.toNat_lt]

end TreeQuery.Json
