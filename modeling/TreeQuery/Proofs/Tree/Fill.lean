import TreeQuery.Json.TreeForm
import TreeQuery.Proofs.Tree.Ends
import TreeQuery.Proofs.Tree.Relabel

namespace TreeQuery

/-- The piece of a text from byte `start` up to byte `stop`, which both lie between characters. -/
def Text.IsSlice (text : String) (start stop : Nat) (piece : String) : Prop :=
  ∃ before after, text = before ++ piece ++ after ∧ before.utf8ByteSize = start ∧
    start + piece.utf8ByteSize = stop

theorem Text.map_slice?_eq_some_iff {text piece : String} {start stop : Nat} :
    (slice? text.toList start stop).map String.ofList = some piece ↔
      IsSlice text start stop piece := by
  have found : (slice? text.toList start stop).map String.ofList = some piece ↔
      slice? text.toList start stop = some piece.toList := by
    rw [Option.map_eq_some_iff]
    constructor
    · intro h
      obtain ⟨cs, h, rfl⟩ := h
      rw [h, String.toList_ofList]
    · exact fun h => ⟨_, h, String.ofList_toList⟩
  rw [found, slice?_eq_some_iff]
  constructor
  · intro h
    obtain ⟨before, after, whole, size, length⟩ := h
    refine ⟨.ofList before, .ofList after, ?_, ?_, ?_⟩
    · apply String.toList_inj.mp
      simpa using whole
    · rw [byteLength_ofList, size]
    · rw [← byteLength_toList, length]
  · intro h
    obtain ⟨before, after, rfl, size, length⟩ := h
    refine ⟨before.toList, after.toList, by simp, ?_, ?_⟩
    · rw [byteLength_toList, size]
    · rw [byteLength_toList, length]

namespace Tree

/-- The label of a node after the pass. -/
def filled (source : String) (n : Tree Label) : Label :=
  match n.children with
  | [] => n.label
  | _ :: _ => filledLabel source.toList n.label n.terminalEnds.max?

mutual
/-- The pass changes labels only, each by its node as it was, and keeps track of the last end, unless it
comes to a terminal whose end no word can count. -/
theorem fillWithEnd_eq (source : String) : ∀ t : Tree Label,
    fillWithEnd source.toList t =
      unlessAny (t.preorder.filterMap overflow?) (t.relabel (filled source), t.terminalEnds.max?)
  | ⟨label, []⟩ => by
    have alone : (preorder ⟨label, []⟩).filterMap overflow? = (overflow? ⟨label, []⟩).toList := by
      rw [preorder, preorders, List.filterMap_cons]
      cases overflow? ⟨label, []⟩ <;> rfl
    have last : label.exactEnd?.toList.max? = label.exactEnd? := by
      cases label.exactEnd? <;> rfl
    rw [fillWithEnd, ownEnd_eq, alone, terminalEnds_childless, last]
    cases overflow? ⟨label, []⟩ <;> rfl
  | ⟨label, child :: more⟩ => by
    have below : (preorder ⟨label, child :: more⟩).filterMap overflow? =
        (preorders (child :: more)).filterMap overflow? := by
      rw [preorder, List.filterMap_cons_none rfl]
    rw [fillWithEnd, fillsWithEnd_eq source (child :: more), below,
      terminalEnds_parent (List.cons_ne_nil child more)]
    cases (preorders (child :: more)).filterMap overflow? <;> rfl
theorem fillsWithEnd_eq (source : String) : ∀ ts : List (Tree Label),
    fillsWithEnd source.toList ts =
      unlessAny ((preorders ts).filterMap overflow?)
        (relabels (filled source) ts, (endsAmong (preorders ts)).max?)
  | [] => rfl
  | t :: ts => by
    rw [fillsWithEnd, fillWithEnd_eq source t, fillsWithEnd_eq source ts, preorders,
      List.filterMap_append, endsAmong_append, max?_append]
    cases t.preorder.filterMap overflow? with
    | nil => cases (preorders ts).filterMap overflow? <;> rfl
    | cons overflow more => rfl
end

/-- Either some terminal ends past what a word can count, and the first of these is why nothing is filled
in, or each label is filled in by its node as it was. -/
theorem fillValues_eq (source : String) (t : Tree Label) :
    t.fillValues source =
      unlessAny (t.preorder.filterMap overflow?) (t.relabel (filled source)) := by
  rw [fillValues, fillWithEnd_eq]
  cases t.preorder.filterMap overflow? <;> rfl

theorem fillValues_eq_ok {source : String} {t : Tree Label}
    (fits : ∀ stop ∈ t.terminalEnds, stop < UInt64.size) :
    t.fillValues source = .ok (t.relabel (filled source)) := by
  rw [fillValues_eq, filterMap_overflow?_eq_nil_iff.mpr fits]
  rfl

/-- A node with children lacks a value, and this is the text of the source from its offset to the last
of the ends. -/
def Receives (n : Tree Label) (source : String) (ends : List Nat) (text : String) : Prop :=
  n.children ≠ [] ∧ n.label.value = none ∧ ∃ offset stop, n.label.offset = some offset ∧
    ends.max? = some stop ∧ Text.IsSlice source offset.toNat stop text

theorem filled_childless {source : String} {n : Tree Label} (childless : n.children = []) :
    filled source n = n.label := by
  rw [filled, childless]

theorem filled_parent {source : String} {n : Tree Label} (parent : n.children ≠ []) :
    filled source n = filledLabel source.toList n.label n.terminalEnds.max? := by
  rw [filled]
  split
  · exact absurd ‹_› parent
  · rfl

/-- Nothing but the value of a label can change. -/
theorem filled_keeps (source : String) (n : Tree Label) :
    (filled source n).name = n.label.name ∧ (filled source n).offset = n.label.offset ∧
      (filled source n).attributes = n.label.attributes := by
  by_cases childless : n.children = []
  · rw [filled_childless childless]
    exact ⟨rfl, rfl, rfl⟩
  · rw [filled_parent childless]
    unfold filledLabel
    split <;> exact ⟨rfl, rfl, rfl⟩

theorem value_filledLabel_iff {source text : String} {label : Label} {last : Option Nat} :
    (filledLabel source.toList label last).value = some text ↔
      label.value = some text ∨ label.value = none ∧ ∃ offset stop, label.offset = some offset ∧
        last = some stop ∧ Text.IsSlice source offset.toNat stop text := by
  unfold filledLabel
  split
  · rename_i offset stop hv ho
    simp only [Text.map_slice?_eq_some_iff]
    simp [hv, ho]
  · rename_i other
    refine ⟨.inl, fun h => ?_⟩
    rcases h with own | ⟨none, offset, stop, ho, hs, -⟩
    · exact own
    · exact absurd hs (other offset stop none ho)

theorem value_filled_iff {source text : String} {n : Tree Label} :
    (filled source n).value = some text ↔
      n.label.value = some text ∨ n.Receives source n.terminalEnds text := by
  by_cases childless : n.children = []
  · rw [filled_childless childless]
    simp [Receives, childless]
  · rw [filled_parent childless, value_filledLabel_iff, Receives, and_iff_right childless]

/-- The ends stay as they are if no childless node's does change. -/
theorem terminalEnds_relabel {f : Tree Label → Label}
    (same : ∀ c, c.children = [] → (f c).exactEnd? = c.label.exactEnd?) (n : Tree Label) :
    (n.relabel f).terminalEnds = n.terminalEnds := by
  rw [terminalEnds, endsAmong, preorder_relabel, List.filter_map, List.filterMap_map, terminalEnds,
    endsAmong]
  have shape : (fun c : Tree Label => c.children.isEmpty) ∘ relabel f =
      fun c => c.children.isEmpty := by
    funext c
    simp
  rw [shape]
  apply List.filterMap_congr
  intro c hc
  have childless : c.children = [] := by simpa using (List.mem_filter.mp hc).2
  rw [Function.comp_apply, label_relabel, same c childless]

theorem terminalEnds_filled (source : String) (n : Tree Label) :
    (n.relabel (filled source)).terminalEnds = n.terminalEnds :=
  terminalEnds_relabel (fun _ childless => by rw [filled_childless childless]) n

theorem filledLabel_filledLabel (source : List Char) (label : Label) (last : Option Nat) :
    filledLabel source (filledLabel source label last) last = filledLabel source label last := by
  obtain ⟨name, value, offset, attributes⟩ := label
  cases value with
  | some value => rfl
  | none =>
    cases offset with
    | none => rfl
    | some start =>
      cases last with
      | none => rfl
      | some stop => cases slice : Text.slice? source start.toNat stop <;> simp [filledLabel, slice]

theorem filled_relabel (source : String) (n : Tree Label) :
    filled source (n.relabel (filled source)) = filled source n := by
  by_cases childless : n.children = []
  · rw [filled_childless (by simp [childless]), label_relabel]
  · rw [filled_parent (by simp [childless]), label_relabel, terminalEnds_filled,
      filled_parent childless, filledLabel_filledLabel]

/-- As long as no terminal ends beyond what a word can count, a node that lacks a value gets the text of
the source from its offset to the end of its last terminal, if there is such a text. Nothing else of the
tree changes, and a second pass finds nothing to fill in. -/
theorem fillValues_at_each_node (source : String) (t : Tree Label)
    (fits : ∀ stop ∈ t.terminalEnds, stop < UInt64.size) :
    t.fillValues source = .ok (t.relabel (filled source)) ∧
    (∀ n ∈ t.preorder,
      (filled source n).name = n.label.name ∧ (filled source n).offset = n.label.offset ∧
      (filled source n).attributes = n.label.attributes ∧
      ∀ text, (filled source n).value = some text ↔
        n.label.value = some text ∨ n.Receives source n.terminalEnds text) ∧
    (t.fillValues source).bind (fillValues source) = t.fillValues source := by
  refine ⟨fillValues_eq_ok fits, fun n _ => ?_, ?_⟩
  · obtain ⟨name, offset, attributes⟩ := filled_keeps source n
    exact ⟨name, offset, attributes, fun _ => value_filled_iff⟩
  · have again : ∀ stop ∈ (t.relabel (filled source)).terminalEnds, stop < UInt64.size := by
      rwa [terminalEnds_filled]
    rw [fillValues_eq_ok fits, Except.bind, fillValues_eq_ok again, relabel_relabel]
    exact congrArg (fun f => Except.ok (t.relabel f)) (funext (filled_relabel source))

/-- Values that are filled in lie beside values that are there; an offset inside a character gives none. -/
theorem fillValues_at_each_node_nested :
    let inner : Tree Label := ⟨{ name := "k", offset := some 0 },
      [(terminal "b" "b").withOffset 2, (terminal "u" "ä").withOffset 0, .terminal "v" "x"]⟩
    let torn : Tree Label := ⟨{ name := "m", offset := some 1 }, [(terminal "b" "b").withOffset 2]⟩
    let t : Tree Label := ⟨{ name := "a", offset := some 0 },
      [(terminal "c" "c").withOffset 4, inner, torn]⟩
    (∀ stop ∈ t.terminalEnds, stop < UInt64.size) ∧
      t.fillValues "äb c" = .ok (t.relabel (filled "äb c")) ∧ (filled "äb c" t).value = some "äb c" ∧
      (filled "äb c" inner).value = some "äb" ∧ (filled "äb c" torn).value = none ∧
      (t.fillValues "äb c").bind (fillValues "äb c") = t.fillValues "äb c" := by
  intro inner torn t
  have fits : ∀ stop ∈ t.terminalEnds, stop < UInt64.size := by decide
  obtain ⟨succeeds, each, again⟩ := fillValues_at_each_node "äb c" t fits
  refine ⟨fits, succeeds, ?_, ?_, ?_, again⟩
  · refine ((each t (by decide)).2.2.2 "äb c").mpr (.inr ⟨by decide, rfl, 0, 5, rfl, by decide, ?_⟩)
    exact ⟨"", "", rfl, rfl, rfl⟩
  · refine ((each inner (by decide)).2.2.2 "äb").mpr (.inr ⟨by decide, rfl, 0, 3, rfl, by decide, ?_⟩)
    exact ⟨"", " c", rfl, rfl, rfl⟩
  · decide

/-- If all terminals end where words can count, each of their ends is the exact sum of offset and length,
and nodes get the text that these ends say. Otherwise nothing is filled in at all: the pass fails at the
first terminal of the tree for which that is not so. -/
theorem fillValues_in_words (source : String) (t : Tree Label) :
    ((∀ stop ∈ t.terminalEnds, stop < UInt64.size) →
      t.fillValues source = .ok (t.relabel (filled source)) ∧
      ∀ n ∈ t.preorder, ∀ text, (filled source n).value = some text ↔
        n.label.value = some text ∨ n.Receives source n.terminalEnds text) ∧
    ((∃ stop ∈ t.terminalEnds, UInt64.size ≤ stop) →
      ∃ before c after offset value, t.preorder = before ++ c :: after ∧
        (∀ stop ∈ endsAmong before, stop < UInt64.size) ∧ c.children = [] ∧
        c.label.offset = some offset ∧ c.label.value = some value ∧
        UInt64.size ≤ offset.toNat + value.utf8ByteSize ∧
        t.fillValues source = .error ⟨offset, value.utf8ByteSize⟩) := by
  refine ⟨fun fits => ⟨fillValues_eq_ok fits, fun n _ text => value_filled_iff⟩, fun past => ?_⟩
  rw [fillValues_eq]
  cases found : t.preorder.filterMap overflow? with
  | nil =>
    obtain ⟨stop, mem, large⟩ := past
    exact absurd (filterMap_overflow?_eq_nil_iff.mp found stop mem) (Nat.not_lt.mpr large)
  | cons overflow more =>
    obtain ⟨before, c, after, split, none, here, -⟩ := List.filterMap_eq_cons_iff.mp found
    obtain ⟨childless, offset, value, ho, hv, large, rfl⟩ := overflow?_eq_some_iff.mp here
    refine ⟨before, c, after, offset, value, split, ?_, childless, ho, hv, large, rfl⟩
    exact filterMap_overflow?_eq_nil_iff.mp (List.filterMap_eq_nil_iff.mpr none)

theorem fillValues_in_words_past :
    let b : Tree Label := (terminal "b" "xy").withOffset 18446744073709551615
    let c : Tree Label := ⟨{ name := "c", offset := some 1 }, [(terminal "d" "el").withOffset 1]⟩
    let t : Tree Label := ⟨{ name := "a", offset := some 0 }, [c, b, b]⟩
    (∀ stop ∈ c.terminalEnds, stop < UInt64.size) ∧
      c.fillValues "hello" = .ok (c.relabel (filled "hello")) ∧ (filled "hello" c).value = some "el" ∧
      (∃ stop ∈ t.terminalEnds, UInt64.size ≤ stop) ∧
      ∃ overflow, t.fillValues "hello" = .error overflow := by
  intro b c t
  have fits : ∀ stop ∈ c.terminalEnds, stop < UInt64.size := by decide
  have past : ∃ stop ∈ t.terminalEnds, UInt64.size ≤ stop := ⟨UInt64.size + 1, by decide, by decide⟩
  obtain ⟨succeeds, each⟩ := (fillValues_in_words "hello" c).1 fits
  obtain ⟨before, d, after, offset, value, -, -, -, -, -, -, fails⟩ :=
    (fillValues_in_words "hello" t).2 past
  refine ⟨fits, succeeds, ?_, past, _, fails⟩
  refine (each c (by decide) "el").mpr (.inr ⟨by decide, rfl, 1, 3, rfl, by decide, ?_⟩)
  exact ⟨"h", "lo", rfl, rfl, rfl⟩

/-- A tree may be read whose last terminal ends past what a word can count, and its values cannot be
filled in, although no node would get a text. -/
theorem fillValues_past_word :
    let json := "\x7b\"$name\":\"a\",\"$offset\":0,\"$children\":[" ++
      "\x7b\"$name\":\"b\",\"$value\":\"xy\",\"$offset\":18446744073709551615\x7d]\x7d"
    let b : Tree Label := (terminal "b" "xy").withOffset 18446744073709551615
    let t : Tree Label := ⟨{ name := "a", offset := some 0 }, [b]⟩
    ofJson json false = .ok t ∧ b.label.exactEnd? = some (UInt64.size + 1) ∧
      t.fillValues "hello" = .error ⟨18446744073709551615, 2⟩ ∧
      ¬ ∃ text, t.Receives "hello" t.terminalEnds text := by
  intro json b t
  refine ⟨by decide +kernel, by decide, by decide, ?_⟩
  intro h
  obtain ⟨text, -, -, offset, stop, -, last, before, after, whole, start, length⟩ := h
  have long : UInt64.size + 1 = stop := Option.some.inj last
  have size := congrArg String.utf8ByteSize whole
  rw [String.utf8ByteSize_append, String.utf8ByteSize_append] at size
  have five : "hello".utf8ByteSize = 5 := rfl
  have large : UInt64.size = 18446744073709551616 := rfl
  omega

end Tree

end TreeQuery
