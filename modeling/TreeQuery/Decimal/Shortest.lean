/-!
The shortest decimal of a floating-point number: the fewest digits that read back as it, of these the
nearest, and of two that are equally near the one whose last digit is even. A number m · 2^q is the
rounding of every real in an interval around it; decimals are looked for in this interval on coarse
grids first.
-/

namespace TreeQuery.Decimal

/-- A positive number m · 2^q of floating point. The neighbour below is nearer than the one above where
`closeBelow` says so. -/
structure Binary where
  significand : Nat
  exponent : Int
  closeBelow : Bool
  deriving DecidableEq, Repr

/-- A decimal d · 10^e. -/
structure Digits where
  digits : Nat
  exponent : Int
  deriving DecidableEq, Repr, Inhabited

/-- A fraction has 52 bits. -/
def fractionLimit : Nat := 0x10000000000000

/-- The magnitude of a finite number; the significand of zero is 0. -/
def Binary.ofFloat (x : Float) : Binary :=
  let bits := x.toBits.toNat
  let field := bits / fractionLimit % 0x800
  let fraction := bits % fractionLimit
  if field = 0 then ⟨fraction, -1074, false⟩
  else ⟨fraction + fractionLimit, field - 1075, fraction = 0 && 1 < field⟩

/-- The decimal on the grid of multiples of 10^e that reads back as `b` and is nearest to it; halfway
between two of them, the even multiple. -/
def Binary.onGrid? (b : Binary) (e : Int) : Option Digits :=
  let up := Nat.pow 2 (b.exponent - 2).toNat * Nat.pow 10 (-e).toNat
  let unit := Nat.pow 2 (2 - b.exponent).toNat * Nat.pow 10 e.toNat
  let value := 4 * b.significand * up
  let low := (4 * b.significand - if b.closeBelow then 1 else 2) * up
  let high := (4 * b.significand + 2) * up
  let inside (d : Nat) : Bool :=
    if b.significand % 2 = 0 then low ≤ d * unit && d * unit ≤ high
    else low < d * unit && d * unit < high
  let below := value / unit
  let twice := 2 * (value % unit)
  let preferBelow : Bool := twice < unit || (twice = unit && below % 2 = 0)
  match 0 < below && inside below, inside (below + 1) with
  | true, true => some ⟨if preferBelow then below else below + 1, e⟩
  | true, false => some ⟨below, e⟩
  | false, true => some ⟨below + 1, e⟩
  | false, false => none

example : (Binary.mk 0x10000000000003 (-2) false).onGrid? (-1) = some ⟨11258999068426248, -1⟩ := by
  decide +kernel

example : (Binary.mk 0x10000000000001 (-2) false).onGrid? (-1) = some ⟨11258999068426242, -1⟩ := by
  decide +kernel

/-- The first hit on `count` grids, from that of 10^e on towards finer ones. -/
def Binary.search (b : Binary) (e : Int) : Nat → Digits
  | 0 => ⟨0, 0⟩
  | count + 1 => (b.onGrid? e).getD (b.search (e - 1) count)

/-- The shortest decimal. No finite number lies beyond these grids. -/
def Binary.shortest (b : Binary) : Digits := b.search 310 650

/-- Positional with a fraction from 10⁻⁵ up to below 10¹⁶, otherwise with a signed exponent. -/
def Digits.layout (d : Digits) : String :=
  let digits := Nat.toDigits 10 d.digits
  let point : Int := digits.length + d.exponent
  let zeros (n : Int) : List Char := List.replicate n.toNat '0'
  if 0 ≤ d.exponent ∧ point ≤ 16 then
    String.ofList (digits ++ zeros d.exponent ++ ['.', '0'])
  else if 0 < point ∧ point ≤ 16 then
    String.ofList (digits.take point.toNat ++ ['.'] ++ digits.drop point.toNat)
  else if -5 < point ∧ point ≤ 0 then
    String.ofList (['0', '.'] ++ zeros (-point) ++ digits)
  else
    let fraction := match digits.drop 1 with
      | [] => []
      | more => '.' :: more
    let sign := if 0 < point then "+" else "-"
    String.ofList (digits.take 1 ++ fraction ++ ['e']) ++ sign ++ toString (point - 1).natAbs

example : (Digits.mk 1 15).layout = "1000000000000000.0" := by cbv

example : (Digits.mk 125 15).layout = "1.25e+17" := by cbv

example : (Digits.mk 1 (-5)).layout = "0.00001" := by cbv

example : (Digits.mk 1 (-6)).layout = "1e-6" := by cbv

/-- A finite number as messages show it. -/
def ofFloat (x : Float) : String :=
  let b := Binary.ofFloat x
  let sign := if x.toBits.toNat < 0x8000000000000000 then "" else "-"
  sign ++ if b.significand = 0 then "0.0" else b.shortest.layout

end TreeQuery.Decimal
