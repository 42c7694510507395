import TreeQuery.Proofs.Xml.View

namespace TreeQuery.Xml

open TreeQuery.Tree

namespace Node

/-- The texts that a node that shows stands for: itself, or all inside if there are no elements. -/
def texts (n : Node) : List Node :=
  if n.isText then [n] else if n.isTextOnly then n.children.filter isText else []

variable {n c : Node}

theorem not_isElement_of_isText (h : isText n) : isElement n = false := by
  unfold isText text? at h
  split at h
  · rename_i isText
    simp [isElement, isText]
  · cases h

theorem not_isElement_of_isTextOnly (h : isTextOnly n) : ∀ c ∈ n.children, isElement c = false := by
  simp only [isTextOnly, Bool.and_eq_true, Bool.not_eq_true', List.any_eq_false] at h
  exact fun c hc => Bool.eq_false_iff.mpr (h.1.2 c hc)

/-- Children that do not show have no text. -/
theorem flatMap_inside {ns : List Node} {f : Node → List Node}
    (hidden : ∀ c ∈ ns, shows c = false → f c = []) :
    (ns.filter shows).flatMap f = ns.flatMap f := by
  induction ns with
  | nil => rfl
  | cons c ns ih =>
    have others := ih fun c hc => hidden c (List.mem_cons_of_mem _ hc)
    rw [List.filter_cons, List.flatMap_cons]
    split
    · rw [List.flatMap_cons, others]
    · rename_i hides
      rw [hidden c List.mem_cons_self (Bool.eq_false_iff.mpr hides), others, List.nil_append]

/-- If only elements have anything inside, all texts belong to nodes that show. What hides has no text,
except in an element that stands for its texts itself. -/
theorem flatMap_texts_visible (own : isText n → n.children = [])
    (below : ∀ c ∈ preorders n.children, c.children ≠ [] → isElement c) :
    (visible n).flatMap texts = n.preorder.filter isText := by
  induction n using byChildren with
  | step n ih =>
    have leaf {c : Node} (hc : c ∈ n.children) (other : isElement c = false) : c.children = [] := by
      by_contra parent
      have element := below c (mem_preorders_iff.mpr ⟨c, hc, c.self_mem_preorder⟩) parent
      rw [other] at element
      cases element
    have inner {c : Node} (hc : c ∈ n.children) :
        (visible c).flatMap texts = c.preorder.filter isText := by
      refine ih c hc (fun h => leaf hc (not_isElement_of_isText h)) fun m hm => below m ?_
      exact mem_preorders_iff.mpr ⟨c, hc, preorder_eq c ▸ List.mem_cons_of_mem c hm⟩
    rw [visible_eq, List.flatMap_cons, List.flatMap_assoc, preorder_eq, preorders_eq_flatMap,
      List.filter_cons, List.filter_flatMap, texts]
    by_cases isText : isText n
    · rw [if_pos isText, if_pos isText, inside, own isText]
      simp
    rw [if_neg isText, if_neg isText, inside]
    by_cases textOnly : isTextOnly n
    · -- nothing shows inside, and each child is a leaf
      have alone {c : Node} (hc : c ∈ n.children) : c.preorder = [c] := by
        rw [preorder_eq, leaf hc (not_isElement_of_isTextOnly textOnly c hc), preorders]
      rw [if_pos textOnly, if_pos textOnly, List.flatMap_nil, List.append_nil,
        ← List.filter_flatMap, List.flatMap_congr fun c hc => alone hc, List.flatMap_singleton']
    · have hidden : ∀ c ∈ n.children, shows c = false → (visible c).flatMap texts = [] := by
        intro c hc hides
        rw [shows, Bool.or_eq_false_iff] at hides
        rw [inner hc, preorder_eq, leaf hc hides.1, preorders, List.filter_singleton]
        simp [hides.2]
      rw [if_neg textOnly, if_neg textOnly, List.nil_append, flatMap_inside hidden]
      exact List.flatMap_congr fun c hc => inner hc

theorem shows_of_visible {m : Node} (h : m ∈ visible n) : m = n ∨ shows m := by
  induction n using byChildren with
  | step n ih =>
    rw [visible_eq] at h
    rcases List.mem_cons.mp h with rfl | h
    · exact .inl rfl
    · obtain ⟨c, hc, hm⟩ := List.mem_flatMap.mp h
      refine .inr ((ih c ((inside_sublist n).subset hc) hm).elim (fun same => same ▸ ?_) id)
      unfold inside at hc
      split at hc
      · cases hc
      · exact (List.mem_filter.mp hc).2

/-- The texts that a node stands for, as texts. -/
def strings (n : Node) : List String := (texts n).filterMap text?

theorem strings_eq (n : Node) : strings n =
    if isText n then (text? n).toList
    else if isTextOnly n then n.children.filterMap text? else [] := by
  rw [strings, texts]
  split
  · rename_i isText
    obtain ⟨text, here⟩ := Option.isSome_iff_exists.mp isText
    rw [List.filterMap_cons, here]
    rfl
  · split
    · rw [List.filterMap_filter]
      congr 1
      funext c
      unfold isText
      cases text? c <;> rfl
    · rfl

theorem ne_empty_of_text? {text : String} (h : text? n = some text) : text ≠ "" := by
  unfold text? at h
  split at h
  · split at h
    · rename_i significant
      obtain rfl := Option.some.inj h
      rintro rfl
      exact absurd significant (by decide)
    · cases h
  · cases h

theorem strings_ne_empty : ∀ text ∈ strings n, text ≠ "" := by
  intro text h
  obtain ⟨m, -, hm⟩ := List.mem_filterMap.mp h
  exact ne_empty_of_text? hm

/-- What shows as a value is the first text. -/
theorem value_seen (h : n.label.part = .document ∨ shows n) :
    (seen n).value = (strings n).head? := by
  rw [strings_eq, seen]
  cases part : n.label.part with
  | document => simp [isText, text?, isTextOnly, isElement, part]
  | element offset name attributes =>
    have noText : isText n = false := by simp [isText, text?, part]
    rw [noText, if_neg Bool.false_ne_true]
    by_cases textOnly : isTextOnly n
    · rw [if_pos textOnly, if_pos textOnly, List.head?_filterMap]
    · rw [if_neg textOnly, if_neg textOnly]
      rfl
  | text offset text =>
    have showsText : isText n := by simpa [shows, isElement, part] using h
    have here : text? n = some text := by simpa [isText, text?, part] using showsText
    rw [if_pos showsText, here]
    rfl
  | aside => simp [isText, text?, isTextOnly, isElement, part]

theorem join_eq_head_iff {texts : List String} (nonempty : ∀ text ∈ texts, text ≠ "") :
    texts.head? = some (String.join texts) ↔ texts.length = 1 := by
  cases texts with
  | nil => simp
  | cons first texts =>
    rw [List.head?_cons, Option.some.injEq, String.join_cons]
    cases texts with
    | nil => simp
    | cons second texts =>
      have longer : second.length ≠ 0 := by
        rw [Ne, String.length_eq_zero_iff]
        exact nonempty second (by simp)
      refine iff_of_false (fun same => longer ?_) (by simp)
      have lengths := congrArg String.length same
      rw [String.length_append, String.join_cons, String.length_append] at lengths
      omega

end Node

/-- Listing the texts of the nodes that show gives all texts of the document that are not blank, in its
order, and each of them belongs to one node. The value of a node is the first of its texts, so it is all
of them joined only if there is one. -/
theorem texts_of_document (d : Document) :
    d.node.visible.flatMap Node.texts = d.node.preorder.filter Node.isText ∧
    (∀ m ∈ d.node.preorder, Node.isText m → ∃! n, n ∈ d.node.visible ∧ m ∈ Node.texts n) ∧
    ∀ n ∈ d.node.visible, n.seen.value = n.strings.head? ∧
      (n.seen.value = some (String.join n.strings) ↔ n.strings.length = 1) := by
  have whole : d.node.visible.flatMap Node.texts = d.node.preorder.filter Node.isText :=
    Node.flatMap_texts_visible (fun h => nomatch h) (isElement_nodes d.content 1)
  refine ⟨whole, fun m hm isText => ?_, fun n hn => ?_⟩
  · have nodup : (d.node.visible.flatMap Node.texts).Nodup := by
      rw [whole]
      exact d.nodup_place.of_map.filter _
    have mem : m ∈ d.node.visible.flatMap Node.texts := by
      rw [whole]
      exact List.mem_filter.mpr ⟨hm, isText⟩
    obtain ⟨n, hn, belongs⟩ := List.mem_flatMap.mp mem
    exact ⟨n, ⟨hn, belongs⟩, fun k ⟨hk, also⟩ => eq_of_nodup_flatMap nodup hk hn also belongs⟩
  · have shows : n.label.part = .document ∨ Node.shows n := by
      refine (Node.shows_of_visible hn).imp_left ?_
      rintro rfl
      rfl
    rw [Node.value_seen shows]
    exact ⟨rfl, Node.join_eq_head_iff Node.strings_ne_empty⟩

theorem texts_of_document_in_two :
    let x : Content := .text 3 "x"
    let y : Content := .text 12 "y"
    let a : Content := .element 0 "a" .empty [x, .aside, y]
    let d : Document := ⟨[a]⟩
    (∃! n, n ∈ d.node.visible ∧ y.node 4 ∈ Node.texts n) ∧
      (a.node 1).seen.value = (a.node 1).strings.head? ∧
      ((a.node 1).seen.value = some (String.join (a.node 1).strings) ↔
        (a.node 1).strings.length = 1) := by
  intro x y a d
  have hy : y.node 4 ∈ d.node.preorder := .tail _ (.tail _ (.tail _ (.tail _ (.head _))))
  have ha : a.node 1 ∈ d.node.visible := .tail _ (.head _)
  obtain ⟨-, one, first⟩ := texts_of_document d
  exact ⟨one _ hy (by decide), first _ ha⟩

/-- A comment breaks a text in two, and the second half does not show. -/
theorem texts_of_document_with_comment :
    ((Document.ofText? "<a>x<!--c-->y</a>").map fun d =>
      d.node.visible.map fun n => (n.seen.name, n.strings, n.seen.value)) =
        some [("#document", [], none), ("a", ["x", "y"], some "x")] := by
  decide +kernel

end TreeQuery.Xml
