namespace TreeQuery.Text

def byteLength (text : List Char) : Nat := text.foldl (fun n c => n + c.utf8Size) 0

/-- Splits off the first `count` bytes; `none` if that falls inside a character or past the end. -/
def splitBytes? : Nat → List Char → Option (List Char × List Char)
  | 0, text => some ([], text)
  | _ + 1, [] => none
  | count, c :: rest =>
    if c.utf8Size ≤ count then
      (splitBytes? (count - c.utf8Size) rest).map fun (front, back) => (c :: front, back)
    else none

/-- The text from byte `start` up to byte `stop`, where both lie between characters of `text`. -/
def slice? (text : List Char) (start stop : Nat) : Option (List Char) :=
  if start ≤ stop then do
    let (_, fromStart) ← splitBytes? start text
    let (piece, _) ← splitBytes? (stop - start) fromStart
    pure piece
  else none

theorem byteLength_nil : byteLength [] = 0 := rfl

theorem foldl_utf8Size (n : Nat) (text : List Char) :
    text.foldl (fun n c => n + c.utf8Size) n = n + byteLength text := by
  induction text generalizing n with
  | nil => rfl
  | cons c rest ih => rw [byteLength, List.foldl_cons, List.foldl_cons, ih, ih (0 + _)]; omega

theorem byteLength_cons (c : Char) (text : List Char) :
    byteLength (c :: text) = c.utf8Size + byteLength text := by
  rw [byteLength, List.foldl_cons, foldl_utf8Size, Nat.zero_add]

theorem byteLength_append (a b : List Char) :
    byteLength (a ++ b) = byteLength a + byteLength b := by
  rw [byteLength, List.foldl_append, foldl_utf8Size]
  rfl

theorem byteLength_ofList (text : List Char) :
    (String.ofList text).utf8ByteSize = byteLength text := by
  induction text with
  | nil => rfl
  | cons c rest ih =>
    rw [← List.singleton_append, String.ofList_append, String.utf8ByteSize_append, ih,
      byteLength_append, ← String.singleton_eq_ofList, String.utf8ByteSize_singleton,
      byteLength_cons, byteLength_nil, Nat.add_zero]

theorem byteLength_toList (text : String) : byteLength text.toList = text.utf8ByteSize := by
  rw [← byteLength_ofList, String.ofList_toList]

/-- A cut neither loses nor adds text, and its first part has the asked number of bytes. -/
theorem splitBytes?_eq_some {count : Nat} {text front back : List Char}
    (h : splitBytes? count text = some (front, back)) :
    text = front ++ back ∧ byteLength front = count := by
  induction text generalizing count front back with
  | nil => cases count <;> simp_all [splitBytes?, byteLength_nil]
  | cons c rest ih =>
    cases count with
    | zero => simp_all [splitBytes?, byteLength_nil]
    | succ n =>
      simp only [splitBytes?] at h
      split at h
      · rename_i fits
        obtain ⟨⟨f, b⟩, hcut, heq⟩ := Option.map_eq_some_iff.mp h
        obtain ⟨rfl, rfl⟩ := Prod.mk.inj heq
        obtain ⟨rfl, hlen⟩ := ih hcut
        refine ⟨rfl, ?_⟩
        rw [byteLength_cons, hlen]
        exact Nat.add_sub_of_le fits
      · cases h

/-- Two texts one behind the other are cut where the first of them ends. -/
theorem splitBytes?_append (front back : List Char) :
    splitBytes? (byteLength front) (front ++ back) = some (front, back) := by
  induction front with
  | nil => simp [byteLength_nil, splitBytes?]
  | cons c rest ih =>
    obtain ⟨n, size⟩ : ∃ n, c.utf8Size + byteLength rest = n + 1 :=
      Nat.exists_eq_add_one.mpr (Nat.add_pos_left c.utf8Size_pos _)
    have fits : c.utf8Size ≤ n + 1 := size ▸ Nat.le_add_right ..
    have left : n + 1 - c.utf8Size = byteLength rest := by omega
    rw [byteLength_cons, size, List.cons_append, splitBytes?, if_pos fits, left, ih]
    · rfl
    · exact n.succ_ne_zero

/-- A slice is what stands between its two bounds; there is one only if both lie between characters. -/
theorem slice?_eq_some_iff {text piece : List Char} {start stop : Nat} :
    slice? text start stop = some piece ↔
      ∃ before after, text = before ++ piece ++ after ∧ byteLength before = start ∧
        start + byteLength piece = stop := by
  constructor
  · intro h
    unfold slice? at h
    split at h
    · rename_i le
      simp only [Option.bind_eq_bind, Option.bind_eq_some_iff, Option.pure_def, Option.some.injEq] at h
      obtain ⟨⟨before, rest⟩, first, ⟨found, after⟩, second, rfl⟩ := h
      obtain ⟨rfl, size⟩ := splitBytes?_eq_some first
      obtain ⟨rfl, length⟩ := splitBytes?_eq_some second
      refine ⟨before, after, (List.append_assoc ..).symm, size, ?_⟩
      dsimp only
      omega
    · cases h
  · intro h
    obtain ⟨before, after, rfl, rfl, rfl⟩ := h
    have rest : byteLength before + byteLength piece - byteLength before = byteLength piece := by omega
    rw [slice?, if_pos (Nat.le_add_right ..), List.append_assoc, splitBytes?_append, rest]
    dsimp only [Option.bind_eq_bind, Option.bind_some]
    rw [splitBytes?_append]
    rfl

end TreeQuery.Text
