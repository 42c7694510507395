import TreeQuery.Proofs.Json.Token

namespace TreeQuery.Json

open TreeQuery.Path (Repeated)

theorem hexValue?_hexDigit (n : Nat) : hexValue? (hexDigit n) = some (n % 16) := by
  have digits : ∀ m < 16, hexValue? ((Nat.toDigits 16 m).headD '0') = some m := by decide
  exact digits (n % 16) (Nat.mod_lt n (by decide))

theorem unitText_hexDigits {n : Nat} (small : n < 256) :
    UnitText ['0', '0', hexDigit (n / 16), hexDigit n] n := by
  have zero : hexValue? '0' = some 0 := by decide
  have value : ((0 * 16 + 0) * 16 + n / 16 % 16) * 16 + n % 16 = n := by omega
  have text := UnitText.intro zero zero (hexValue?_hexDigit (n / 16)) (hexValue?_hexDigit n)
  rwa [value] at text

theorem escapeText_control {c : Char} (h : c.toNat < 0x20) :
    EscapeText ['u', '0', '0', hexDigit (c.toNat / 16), hexDigit c.toNat] c := by
  have text := EscapeText.unit (unitText_hexDigits (n := c.toNat) (by omega)) (by omega)
  rwa [Char.ofNat_toNat] at text

theorem charText_escapeChar (c : Char) : CharText (escapeChar c) c := by
  unfold escapeChar
  -- the seven characters that have a letter of their own
  iterate 7
    split
    · rename_i short
      subst short
      exact .escape (by constructor)
  rename_i quote backslash _ _ _ _ _
  split
  · rename_i control
    exact .escape (escapeText_control control)
  · rename_i plain
    exact .plain quote backslash plain

theorem exists_charTexts (cs : List Char) :
    ∃ t, Repeated CharText t cs ∧
      ∀ rest, cs.foldr (fun c written => escapeChar c ++ written) rest = t ++ rest := by
  induction cs with
  | nil => exact ⟨[], .nil, fun _ => rfl⟩
  | cons c cs ih =>
    obtain ⟨t, chars, same⟩ := ih
    refine ⟨escapeChar c ++ t, .cons (charText_escapeChar c) chars, fun rest => ?_⟩
    rw [List.foldr_cons, same, List.append_assoc]

theorem exists_quotedText (text : String) :
    ∃ q, QuotedText q text ∧ ∀ rest, writeText text rest = q ++ rest := by
  obtain ⟨t, chars, same⟩ := exists_charTexts text.toList
  refine ⟨'"' :: (t ++ ['"']), ?_, fun rest => ?_⟩
  · have quoted := QuotedText.intro chars
    rwa [String.ofList_toList] at quoted
  · rw [writeText, same, List.cons_append, List.append_assoc, List.singleton_append]

end TreeQuery.Json
