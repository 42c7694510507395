import TreeQuery.Json.Value

/-!
Numbers as JSON writes them. Whole numbers below 2⁶⁴ are exact. Of all others the digits beyond 64 bits
are dropped, and the rest is scaled by a power of ten in floating-point arithmetic.
-/

namespace TreeQuery.Json

/-- The parts of a written number. -/
structure Numeral where
  negative : Bool
  whole : List Char
  fraction : Option (List Char)
  /-- Whether the exponent is below zero, and its digits. -/
  exponent : Option (Bool × List Char)
  deriving DecidableEq, Repr

/-- The fault of a text that has no digit where one has to be. -/
def noDigit : List Char → Fault
  | [] => .unfinished
  | _ :: _ => .malformed

/-- Takes the digits before the point. A leading zero stands alone. -/
def takeWhole : List Char → Except Fault (List Char × List Char)
  | '0' :: s =>
    match s with
    | c :: _ => if c.isDigit then .error .malformed else .ok (['0'], s)
    | [] => .ok (['0'], s)
  | s =>
    match s.takeWhile Char.isDigit with
    | [] => .error (noDigit s)
    | digits => .ok (digits, s.dropWhile Char.isDigit)

/-- Takes a point and the digits behind it, if there is a point. -/
def takeFraction : List Char → Except Fault (Option (List Char) × List Char)
  | '.' :: s =>
    match s.takeWhile Char.isDigit with
    | [] => .error (noDigit s)
    | digits => .ok (some digits, s.dropWhile Char.isDigit)
  | s => .ok (none, s)

/-- Takes the sign of an exponent, if there is one; tells whether it is below zero. -/
def takeSign : List Char → Bool × List Char
  | '+' :: s => (false, s)
  | '-' :: s => (true, s)
  | s => (false, s)

/-- Takes an exponent, if there is one. -/
def takeExponent (s : List Char) : Except Fault (Option (Bool × List Char) × List Char) :=
  match s with
  | [] => .ok (none, [])
  | c :: rest =>
    if c = 'e' ∨ c = 'E' then
      match takeSign rest with
      | (below, s) =>
        match s.takeWhile Char.isDigit with
        | [] => .error (noDigit s)
        | digits => .ok (some (below, digits), s.dropWhile Char.isDigit)
    else .ok (none, c :: rest)

/-- Takes a number without its sign. -/
def takeUnsigned (negative : Bool) (s : List Char) : Except Fault (Numeral × List Char) := do
  let (whole, s) ← takeWhole s
  let (fraction, s) ← takeFraction s
  let (exponent, s) ← takeExponent s
  pure (⟨negative, whole, fraction, exponent⟩, s)

/-- Takes a number. -/
def takeNumeral : List Char → Except Fault (Numeral × List Char)
  | '-' :: s => takeUnsigned true s
  | s => takeUnsigned false s

theorem length_dropWhile_isDigit_lt {s digits : List Char} (h : s.takeWhile Char.isDigit = digits)
    (nonempty : digits ≠ []) : (s.dropWhile Char.isDigit).length < s.length := by
  have whole := congrArg List.length (List.takeWhile_append_dropWhile (p := Char.isDigit) (l := s))
  rw [List.length_append, h] at whole
  have := List.length_pos_iff.mpr nonempty
  omega

theorem takeWhole_shorter {s digits rest : List Char} (h : takeWhole s = .ok (digits, rest)) :
    rest.length < s.length := by
  unfold takeWhole at h
  split at h
  · split at h
    · split at h
      · cases h
      · cases h
        simp
    · cases h
      simp
  · split at h
    · cases h
    · rename_i nonempty
      cases h
      exact length_dropWhile_isDigit_lt rfl nonempty

theorem takeFraction_notLonger {s rest : List Char} {digits : Option (List Char)}
    (h : takeFraction s = .ok (digits, rest)) : rest.length ≤ s.length := by
  unfold takeFraction at h
  split at h
  · split at h
    · cases h
    · rename_i nonempty
      cases h
      have := length_dropWhile_isDigit_lt rfl nonempty
      simp only [List.length_cons]
      omega
  · cases h
    exact Nat.le_refl _

theorem takeSign_notLonger (s : List Char) : (takeSign s).2.length ≤ s.length := by
  unfold takeSign
  split <;> simp

theorem takeExponent_notLonger {s rest : List Char} {digits : Option (Bool × List Char)}
    (h : takeExponent s = .ok (digits, rest)) : rest.length ≤ s.length := by
  unfold takeExponent at h
  split at h
  · cases h
    exact Nat.le_refl _
  · rename_i c s
    split at h
    · have sign := takeSign_notLonger s
      split at h
      rename_i below t eq
      rw [eq] at sign
      split at h
      · cases h
      · rename_i nonempty
        cases h
        have := length_dropWhile_isDigit_lt rfl nonempty
        simp only [List.length_cons] at sign ⊢
        omega
    · cases h
      exact Nat.le_refl _

theorem takeUnsigned_shorter {negative : Bool} {s rest : List Char} {n : Numeral}
    (h : takeUnsigned negative s = .ok (n, rest)) : rest.length < s.length := by
  unfold takeUnsigned at h
  cases whole : takeWhole s with
  | error => simp [whole, bind, Except.bind] at h
  | ok w =>
    cases fraction : takeFraction w.2 with
    | error => simp [whole, fraction, bind, Except.bind] at h
    | ok f =>
      cases exponent : takeExponent f.2 with
      | error => simp [whole, fraction, exponent, bind, Except.bind] at h
      | ok e =>
        simp only [whole, fraction, exponent, bind, Except.bind, pure, Except.pure,
          Except.ok.injEq, Prod.mk.injEq] at h
        obtain ⟨-, rfl⟩ := h
        have := takeWhole_shorter whole
        have := takeFraction_notLonger fraction
        have := takeExponent_notLonger exponent
        omega

theorem takeNumeral_shorter {s rest : List Char} {n : Numeral}
    (h : takeNumeral s = .ok (n, rest)) : rest.length < s.length := by
  unfold takeNumeral at h
  split at h
  · exact Nat.lt_succ_of_lt (takeUnsigned_shorter h)
  · exact takeUnsigned_shorter h

def digitValue (c : Char) : Nat := c.toNat - '0'.toNat

/-- Whole numbers from 2⁶⁴ on do not fit. -/
def wholeLimit : Nat := 0x10000000000000000

/-- The digits before the point as far as they fit 64 bits, and the number of digits dropped. -/
def wholeValue (digits : List Char) : Nat × Nat :=
  digits.foldl (fun (value, dropped) c =>
    let next := value * 10 + digitValue c
    if dropped = 0 ∧ next < wholeLimit then (next, 0) else (value, dropped + 1)) (0, 0)

/-- Goes on with the digits behind the point up to the first that does not fit 64 bits; counts those
taken. -/
def fractionValue (value taken : Nat) : List Char → Nat × Nat
  | [] => (value, taken)
  | c :: digits =>
    let next := value * 10 + digitValue c
    if next < wholeLimit then fractionValue next (taken + 1) digits else (value, taken)

/-- A power of ten up to 10³⁰⁸. -/
def powerOfTen (n : Nat) : Float := Float.ofScientific 1 false n

/-- `x` divided by 10ⁿ, in steps whose powers of ten are finite. -/
def divideByPower (x : Float) (n : Nat) : Float :=
  if n ≤ 308 then x / powerOfTen n
  else if x == 0 then x
  else divideByPower (x / powerOfTen 308) (n - 308)
termination_by n

/-- `x` times a power of ten; `none` if that is too large. -/
def scale? (x : Float) : Int → Option Float
  | .ofNat n =>
    if n ≤ 308 then
      let y := x * powerOfTen n
      if y.isInf then none else some y
    else if x == 0 then some x
    else none
  | .negSucc n => some (divideByPower x (n + 1))

/-- The largest exponent that is computed with. -/
def exponentLimit : Nat := 0x7fffffff

/-- A number that is not whole, or does not fit 64 bits. -/
def realValue (negative : Bool) (significand : Nat) (shift : Int) (exponent : Option (Bool × Nat)) :
    Except Fault Number :=
  let signed (x : Float) : Number := .real (if negative then -x else x)
  let scaled (e : Int) : Except Fault Number :=
    match scale? significand.toUInt64.toFloat e with
    | some x => .ok (signed x)
    | none => .error .malformed
  match exponent with
  | none => scaled shift
  | some (below, e) =>
    if e ≤ exponentLimit then scaled (if below then shift - e else shift + e)
    else if significand = 0 ∨ below then .ok (signed 0)
    else .error .malformed

/-- Negative whole numbers reach down to -2⁶³. -/
def negativeLimit : Nat := 0x8000000000000000

/-- The number that is written. One that is too large is a fault. -/
def Numeral.value (n : Numeral) : Except Fault Number :=
  let (significand, dropped) := wholeValue n.whole
  match n.fraction, n.exponent with
  | none, none =>
    if 0 < dropped then realValue n.negative significand dropped none
    else if !n.negative then .ok (.natural significand.toUInt64)
    else if 0 < significand ∧ significand ≤ negativeLimit then .ok (.negative significand.toUInt64)
    else .ok (.real (-significand.toUInt64.toFloat))
  | fraction, exponent =>
    let (significand, taken) := fractionValue significand 0 (fraction.getD [])
    realValue n.negative significand (dropped - taken)
      (exponent.map fun (below, digits) => (below, Nat.ofDigitChars 10 digits 0))

end TreeQuery.Json
