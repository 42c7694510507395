import TreeQuery.Json.Reader
import TreeQuery.Proofs.Path.Grammar

namespace TreeQuery.Json

open TreeQuery.Path (RunOf Repeated)

/-- The blanks that may stand between any two parts of a text, or nothing. -/
def Blanks (t : List Char) : Prop := ∀ c ∈ t, isBlank c

/-- Four hexadecimal digits. -/
inductive UnitText : List Char → Nat → Prop where
  | intro {a b c d : Char} {k l m n : Nat} (first : hexValue? a = some k)
    (second : hexValue? b = some l) (third : hexValue? c = some m) (fourth : hexValue? d = some n) :
    UnitText [a, b, c, d] (((k * 16 + l) * 16 + m) * 16 + n)

/-- What stands behind a backslash. The halves of a surrogate pair only stand together. -/
inductive EscapeText : List Char → Char → Prop where
  | quote : EscapeText ['"'] '"'
  | backslash : EscapeText ['\\'] '\\'
  | slash : EscapeText ['/'] '/'
  | backspace : EscapeText ['b'] '\x08'
  | formFeed : EscapeText ['f'] '\x0c'
  | lineFeed : EscapeText ['n'] '\n'
  | carriageReturn : EscapeText ['r'] '\r'
  | tab : EscapeText ['t'] '\t'
  | unit {t : List Char} {n : Nat} (text : UnitText t n) (alone : n < 0xD800 ∨ 0xDFFF < n) :
    EscapeText ('u' :: t) (Char.ofNat n)
  | pair {t u : List Char} {high low : Nat} (first : UnitText t high)
    (isHigh : 0xD800 ≤ high ∧ high ≤ 0xDBFF) (second : UnitText u low)
    (isLow : 0xDC00 ≤ low ∧ low ≤ 0xDFFF) :
    EscapeText ('u' :: (t ++ '\\' :: 'u' :: u))
      (Char.ofNat (0x10000 + (high - 0xD800) * 0x400 + (low - 0xDC00)))

/-- One character between quotes. -/
inductive CharText : List Char → Char → Prop where
  | plain {c : Char} (quote : c ≠ '"') (backslash : c ≠ '\\') (control : ¬ c.toNat < 0x20) :
    CharText [c] c
  | escape {t : List Char} {c : Char} (escape : EscapeText t c) : CharText ('\\' :: t) c

inductive QuotedText : List Char → String → Prop where
  | intro {t cs : List Char} (chars : Repeated CharText t cs) :
    QuotedText ('"' :: (t ++ ['"'])) (String.ofList cs)

/-- The digits before the point. A leading zero stands alone. -/
def WholeText (digits : List Char) : Prop :=
  RunOf Char.isDigit digits ∧ (digits.head? = some '0' → digits = ['0'])

inductive FractionText : List Char → Option (List Char) → Prop where
  | none : FractionText [] none
  | some {digits : List Char} (run : RunOf Char.isDigit digits) :
    FractionText ('.' :: digits) (some digits)

/-- The sign of an exponent, and whether that is below zero. -/
inductive SignText : List Char → Bool → Prop where
  | none : SignText [] false
  | plus : SignText ['+'] false
  | minus : SignText ['-'] true

inductive ExponentText : List Char → Option (Bool × List Char) → Prop where
  | none : ExponentText [] none
  | some {e : Char} {sign digits : List Char} {below : Bool} (letter : e = 'e' ∨ e = 'E')
    (signed : SignText sign below) (run : RunOf Char.isDigit digits) :
    ExponentText (e :: (sign ++ digits)) (some (below, digits))

/-- A number without its sign. -/
inductive UnsignedText (negative : Bool) : List Char → Numeral → Prop where
  | intro {whole t u : List Char} {fraction : Option (List Char)}
    {exponent : Option (Bool × List Char)} (digits : WholeText whole)
    (hasFraction : FractionText t fraction) (hasExponent : ExponentText u exponent) :
    UnsignedText negative (whole ++ (t ++ u)) ⟨negative, whole, fraction, exponent⟩

inductive NumeralText : List Char → Numeral → Prop where
  | unsigned {t : List Char} {n : Numeral} (text : UnsignedText false t n) : NumeralText t n
  | negative {t : List Char} {n : Numeral} (text : UnsignedText true t n) : NumeralText ('-' :: t) n

section

variable {α : Type} (Part : List Char → α → Prop)

/-- Something with blanks before it. -/
inductive AfterBlanks : List Char → α → Prop where
  | intro {a t : List Char} {part : α} (before : Blanks a) (text : Part t part) :
    AfterBlanks (a ++ t) part

/-- What stands between two brackets, from the first part on or from behind a part on. -/
inductive SequenceText : (first : Bool) → List Char → List α → Prop where
  | nil {first : Bool} {a : List Char} (blank : Blanks a) : SequenceText first a []
  | first {t u : List Char} {part : α} {parts : List α} (text : AfterBlanks Part t part)
    (more : SequenceText false u parts) : SequenceText true (t ++ u) (part :: parts)
  | next {a t u : List Char} {part : α} {parts : List α} (before : Blanks a)
    (text : AfterBlanks Part t part) (more : SequenceText false u parts) :
    SequenceText false (a ++ ',' :: (t ++ u)) (part :: parts)

end

mutual

/-- A value with no blanks around it. A number that is out of range stands for nothing. -/
inductive ValueText : List Char → Value → Prop where
  | null : ValueText ['n', 'u', 'l', 'l'] .null
  | isTrue : ValueText ['t', 'r', 'u', 'e'] (.boolean true)
  | isFalse : ValueText ['f', 'a', 'l', 's', 'e'] (.boolean false)
  | number {t : List Char} {numeral : Numeral} {n : Number} (text : NumeralText t numeral)
    (value : numeral.value = .ok n) : ValueText t (.number n)
  | text {t : List Char} {s : String} (quoted : QuotedText t s) : ValueText t (.text s)
  | array {t : List Char} {items : List Value} (sequence : SequenceText ValueText true t items) :
    ValueText ('[' :: (t ++ [']'])) (.array items none)
  | object {t : List Char} {members : List Member}
    (sequence : SequenceText MemberText true t members) :
    ValueText ('\x7b' :: (t ++ ['\x7d'])) (.object members none)

inductive MemberText : List Char → Member → Prop where
  | intro {q a t : List Char} {key : String} {v : Value} (quoted : QuotedText q key)
    (before : Blanks a) (text : AfterBlanks ValueText t v) :
    MemberText (q ++ (a ++ ':' :: t)) (.mk key v)

end

/-- A value and the blanks around it. -/
inductive DocumentText : List Char → Value → Prop where
  | intro {t b : List Char} {v : Value} (text : AfterBlanks ValueText t v) (after : Blanks b) :
    DocumentText (t ++ b) v

end TreeQuery.Json
