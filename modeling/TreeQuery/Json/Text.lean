import TreeQuery.Json.Value
import TreeQuery.Text.Bytes

namespace TreeQuery.Json

/-- The digit of this value, in lower case. -/
def hexDigit (n : Nat) : Char := (Nat.toDigits 16 (n % 16)).headD '0'

/-- One character as it stands between the quotes. -/
def escapeChar (c : Char) : List Char :=
  if c = '"' then ['\\', '"']
  else if c = '\\' then ['\\', '\\']
  else if c = '\x08' then ['\\', 'b']
  else if c = '\x09' then ['\\', 't']
  else if c = '\x0a' then ['\\', 'n']
  else if c = '\x0c' then ['\\', 'f']
  else if c = '\x0d' then ['\\', 'r']
  else if c.toNat < 0x20 then ['\\', 'u', '0', '0', hexDigit (c.toNat / 16), hexDigit c.toNat]
  else [c]

/-- A text in quotes, followed by `rest`. -/
def writeText (text : String) (rest : List Char) : List Char :=
  '"' :: text.toList.foldr (fun c written => escapeChar c ++ written) ('"' :: rest)

/-- The value of a hexadecimal digit in either case. -/
def hexValue? (c : Char) : Option Nat :=
  if '0' ≤ c ∧ c ≤ '9' then some (c.toNat - '0'.toNat)
  else if 'a' ≤ c ∧ c ≤ 'f' then some (c.toNat - 'a'.toNat + 10)
  else if 'A' ≤ c ∧ c ≤ 'F' then some (c.toNat - 'A'.toNat + 10)
  else none

/-- Takes four hexadecimal digits. A text with fewer than four bytes left is unfinished, whatever
these are. -/
def takeUnit (s : List Char) : Except Fault (Nat × List Char) :=
  if TreeQuery.Text.byteLength (s.take 4) < 4 then .error .unfinished
  else
    match s with
    | a :: b :: c :: d :: rest =>
      match hexValue? a, hexValue? b, hexValue? c, hexValue? d with
      | some a, some b, some c, some d => .ok (((a * 16 + b) * 16 + c) * 16 + d, rest)
      | _, _, _, _ => .error .malformed
    | _ => .error .malformed

/-- Takes the second half of a surrogate pair, whose first half is `high`. -/
def takeLowSurrogate (high : Nat) : List Char → Except Fault (Char × List Char)
  | [] | ['\\'] => .error .unfinished
  | '\\' :: 'u' :: s =>
    match takeUnit s with
    | .error fault => .error fault
    | .ok (low, rest) =>
      if 0xDC00 ≤ low ∧ low ≤ 0xDFFF then
        .ok (Char.ofNat (0x10000 + (high - 0xD800) * 0x400 + (low - 0xDC00)), rest)
      else .error .malformed
  | _ => .error .malformed

/-- Takes what follows a backslash. -/
def takeEscape : List Char → Except Fault (Char × List Char)
  | [] => .error .unfinished
  | '"' :: s => .ok ('"', s)
  | '\\' :: s => .ok ('\\', s)
  | '/' :: s => .ok ('/', s)
  | 'b' :: s => .ok ('\x08', s)
  | 'f' :: s => .ok ('\x0c', s)
  | 'n' :: s => .ok ('\n', s)
  | 'r' :: s => .ok ('\r', s)
  | 't' :: s => .ok ('\t', s)
  | 'u' :: s =>
    match takeUnit s with
    | .error fault => .error fault
    | .ok (unit, rest) =>
      if 0xDC00 ≤ unit ∧ unit ≤ 0xDFFF then .error .malformed
      else if 0xD800 ≤ unit ∧ unit ≤ 0xDBFF then takeLowSurrogate unit rest
      else .ok (Char.ofNat unit, rest)
  | _ => .error .malformed

theorem takeUnit_shorter {s rest : List Char} {n : Nat} (h : takeUnit s = .ok (n, rest)) :
    rest.length < s.length := by
  unfold takeUnit at h
  split at h
  · cases h
  · split at h
    · split at h
      · simp only [Except.ok.injEq, Prod.mk.injEq] at h
        obtain ⟨-, rfl⟩ := h
        simp only [List.length_cons]
        omega
      · cases h
    · cases h

theorem takeLowSurrogate_shorter {high : Nat} {s rest : List Char} {c : Char}
    (h : takeLowSurrogate high s = .ok (c, rest)) : rest.length < s.length := by
  unfold takeLowSurrogate at h
  split at h
  · cases h
  · cases h
  · split at h
    · cases h
    · rename_i unit
      have := takeUnit_shorter unit
      split at h
      · simp only [Except.ok.injEq, Prod.mk.injEq] at h
        obtain ⟨-, rfl⟩ := h
        simp only [List.length_cons]
        omega
      · cases h
  · cases h

theorem takeEscape_shorter {s rest : List Char} {c : Char} (h : takeEscape s = .ok (c, rest)) :
    rest.length < s.length := by
  unfold takeEscape at h
  split at h
  case h_10 =>
    split at h
    · cases h
    · rename_i unit
      have := takeUnit_shorter unit
      split at h
      · cases h
      · split at h
        · have := takeLowSurrogate_shorter h
          simp only [List.length_cons]
          omega
        · simp only [Except.ok.injEq, Prod.mk.injEq] at h
          obtain ⟨-, rfl⟩ := h
          simp only [List.length_cons]
          omega
  all_goals cases h
  all_goals simp

/-- Takes the rest of a text up to its closing quote; `done` holds what came before, last first. -/
def takeText (done : List Char) (s : List Char) : Except Fault (String × List Char) :=
  match s with
  | [] => .error .unfinished
  | '"' :: rest => .ok (String.ofList done.reverse, rest)
  | '\\' :: rest =>
    match escape : takeEscape rest with
    | .error fault => .error fault
    | .ok (c, rest') =>
      have := takeEscape_shorter escape
      takeText (c :: done) rest'
  | c :: rest => if c.toNat < 0x20 then .error .malformed else takeText (c :: done) rest
termination_by s.length
decreasing_by
  · simp only [List.length_cons]
    omega
  · simp

theorem takeText_shorter {done s rest : List Char} {text : String}
    (h : takeText done s = .ok (text, rest)) : rest.length < s.length := by
  fun_induction takeText done s with
  | case1 => cases h
  | case2 done tail =>
    cases h
    simp
  | case3 => cases h
  | case4 done tail c rest' escape this ih =>
    have := ih h
    simp only [List.length_cons]
    omega
  | case5 => cases h
  | case6 done c tail _ _ _ ih =>
    have := ih h
    simp only [List.length_cons]
    omega

end TreeQuery.Json
