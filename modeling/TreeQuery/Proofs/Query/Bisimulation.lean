import TreeQuery.Proofs.Tree.Alike
import TreeQuery.Proofs.Query.Builtin

namespace TreeQuery

open List (Forall₂)

section

variable {α β : Type} {R : α → β → Prop} {p : α → Bool} {q : β → Bool} {l : List α} {l' : List β}

theorem forall₂_dropWhile (same : ∀ a b, R a b → p a = q b) (h : Forall₂ R l l') :
    Forall₂ R (l.dropWhile p) (l'.dropWhile q) := by
  induction h with
  | nil => exact .nil
  | cons first others ih =>
    rw [List.dropWhile_cons, List.dropWhile_cons, same _ _ first]
    split
    · exact ih
    · exact .cons first others

theorem forall₂_takeWhile (same : ∀ a b, R a b → p a = q b) (h : Forall₂ R l l') :
    Forall₂ R (l.takeWhile p) (l'.takeWhile q) := by
  induction h with
  | nil => exact .nil
  | cons first others ih =>
    rw [List.takeWhile_cons, List.takeWhile_cons, same _ _ first]
    split
    · exact .cons first ih
    · exact .nil

theorem forall₂_dropLast (h : Forall₂ R l l') : Forall₂ R l.dropLast l'.dropLast := by
  rw [List.dropLast_eq_take, List.dropLast_eq_take, h.length_eq]
  exact List.forall₂_take _ h

theorem rel_head? (h : Forall₂ R l l') : Option.Rel R l.head? l'.head? := by
  cases h with
  | nil => exact .none
  | cons first _ => exact .some first

theorem rel_getLast? (h : Forall₂ R l l') : Option.Rel R l.getLast? l'.getLast? := by
  rw [List.getLast?_eq_head?_reverse, List.getLast?_eq_head?_reverse]
  exact rel_head? (List.rel_reverse h)

theorem forall₂_findIdx? (same : ∀ a b, R a b → p a = q b) (h : Forall₂ R l l') :
    l.findIdx? p = l'.findIdx? q := by
  induction h with
  | nil => rfl
  | cons first _ ih => rw [List.findIdx?_cons, List.findIdx?_cons, same _ _ first, ih]

theorem forall₂_toList {o : Option α} {o' : Option β} (h : Option.Rel R o o') :
    Forall₂ R o.toList o'.toList := by
  cases h with
  | none => exact .nil
  | some same => exact .cons same .nil

end

namespace Handle

/-- A relation between handles that stand at the same place and whose children and known parents are
related again. -/
structure Bisimulation (rel : Handle → Handle → Prop) : Prop where
  place : ∀ {h k}, rel h k → h.place = k.place
  children : ∀ {h k}, rel h k → Forall₂ rel h.children k.children
  parent? : ∀ {h k}, rel h k → Option.Rel rel h.parent? k.parent?

namespace Bisimulation

variable {rel : Handle → Handle → Prop} (b : Bisimulation rel) {h k root root' : Handle}

include b

theorem beq {h' k' : Handle} (hk : rel h k) (hk' : rel h' k') : (h == h') = (k == k') := by
  rw [Bool.eq_iff_iff, beq_iff, beq_iff, b.place hk, b.place hk']

theorem isAtPosition (hk : rel h k) {hs ks : List Handle} (same : Forall₂ rel hs ks)
    (number : Nat) : isAtPosition number h hs = isAtPosition number k ks := by
  rw [TreeQuery.isAtPosition, TreeQuery.isAtPosition,
    forall₂_findIdx? (fun _ _ member => b.beq member hk) same]

theorem isLast (hk : rel h k) {hs ks : List Handle} (same : Forall₂ rel hs ks) :
    isLast h hs = isLast k ks := by
  unfold TreeQuery.isLast
  match hs.getLast?, ks.getLast?, rel_getLast? same with
  | _, _, .none => rfl
  | _, _, .some last => exact b.beq last hk

theorem bne {h' k' : Handle} (hk : rel h k) (hk' : rel h' k') : (h != h') = (k != k') :=
  congrArg not (b.beq hk hk')

theorem gatherBelow {found found' : Array Handle} {pending pending' : List Handle}
    (before : Forall₂ rel found.toList found'.toList) (next : Forall₂ rel pending pending') :
    Forall₂ rel (gatherBelow found pending).toList (gatherBelow found' pending').toList := by
  induction found, pending using gatherBelow.induct generalizing found' pending' with
  | case1 found =>
    cases next
    rw [Handle.gatherBelow, Handle.gatherBelow]
    exact before
  | case2 found h pending ih =>
    obtain _ | ⟨first, others⟩ := next
    have children := b.children first
    rw [Handle.gatherBelow, Handle.gatherBelow]
    exact ih (by simpa using List.rel_append before children) (List.rel_append children others)

omit b in
theorem leadOn (first : rel h k) {path path' : Array Handle}
    (before : Forall₂ rel path.toList path'.toList) (depth : Nat) :
    Forall₂ rel (leadOn path depth h).toList (leadOn path' depth k).toList := by
  rw [toList_leadOn, toList_leadOn]
  exact List.rel_append (List.forall₂_take depth before) (.cons first .nil)

theorem searchAll {target target' : Handle} (same : rel target target') {path path' : Array Handle}
    {pending pending' : List (Handle × Nat)} (before : Forall₂ rel path.toList path'.toList)
    (next : Forall₂ (fun x y => rel x.1 y.1 ∧ x.2 = y.2) pending pending') :
    Option.Rel (Forall₂ rel) ((searchAll target path pending).map Array.toList)
      ((searchAll target' path' pending').map Array.toList) := by
  induction path, pending using searchAll.induct target generalizing path' pending' with
  | case1 path =>
    cases next
    rw [Handle.searchAll, Handle.searchAll]
    exact .none
  | case2 path h depth pending here =>
    obtain _ | ⟨⟨first, rfl⟩, others⟩ := next
    rw [Handle.searchAll, Handle.searchAll, if_pos here, if_pos (b.beq first same ▸ here)]
    exact .some (leadOn first before _)
  | case3 path h depth pending other ih =>
    obtain _ | ⟨⟨first, rfl⟩, others⟩ := next
    rw [Handle.searchAll, Handle.searchAll, if_neg other, if_neg (b.beq first same ▸ other)]
    refine ih (leadOn first before _) (List.rel_append ?_ others)
    rw [List.forall₂_map_left_iff, List.forall₂_map_right_iff]
    exact (b.children first).imp fun _ _ child => ⟨child, rfl⟩

theorem pathDownTo (hk : rel h k) (top : rel root root') :
    Option.Rel (Forall₂ rel) (pathDownTo h root) (pathDownTo k root') :=
  b.searchAll hk .nil (.cons ⟨top, rfl⟩ .nil)

theorem parentUnder (hk : rel h k) (top : rel root root') :
    Option.Rel rel (h.parentUnder root) (k.parentUnder root') := by
  unfold Handle.parentUnder
  match h.parent?, k.parent?, b.parent? hk with
  | _, _, .some parent => exact .some parent
  | _, _, .none =>
    match Handle.pathDownTo h root, Handle.pathDownTo k root', b.pathDownTo hk top with
    | _, _, .none => exact .none
    | _, _, .some path =>
      dsimp only [Option.bind_some]
      rw [lastButOne?_eq, lastButOne?_eq]
      exact rel_getLast? (forall₂_dropLast path)

theorem climb (top : rel root root') (steps : Nat) (hk : rel h k) {passed passed' : List Handle}
    (before : Forall₂ rel passed passed') :
    rel (climb root steps h passed).1 (climb root' steps k passed').1 ∧
      Forall₂ rel (climb root steps h passed).2 (climb root' steps k passed').2 := by
  induction steps generalizing h k passed passed' with
  | zero => exact ⟨hk, before⟩
  | succ steps ih =>
    rw [Handle.climb, Handle.climb, b.beq hk top]
    split
    · exact ⟨hk, before⟩
    · match h.parent?, k.parent?, b.parent? hk with
      | _, _, .none => exact ⟨hk, before⟩
      | _, _, .some parent => exact ih parent (.cons hk before)

theorem pathFromRoot (hk : rel h k) (top : rel root root') :
    Option.Rel (Forall₂ rel) (pathFromRoot h root) (pathFromRoot k root') := by
  obtain ⟨highest, passed⟩ := b.climb top h.place hk .nil
  have path := b.pathDownTo highest top
  unfold Handle.pathFromRoot
  rw [← b.place hk]
  dsimp only
  rw [b.beq highest top]
  split
  · exact .some (.cons highest passed)
  · match Handle.pathDownTo _ root, Handle.pathDownTo _ root', path with
    | _, _, .none => exact .none
    | _, _, .some nodes => exact .some (List.rel_append nodes passed)

theorem nextSibling? (hk : rel h k) (top : rel root root') :
    Option.Rel rel (h.nextSibling? root) (k.nextSibling? root') := by
  unfold Handle.nextSibling?
  match h.parentUnder root, k.parentUnder root', b.parentUnder hk top with
  | _, _, .none => exact .none
  | _, _, .some parent =>
    have rest := forall₂_dropWhile (fun _ _ same => b.bne same hk) (b.children parent)
    dsimp only [Option.bind_some]
    rw [← List.drop_one, ← List.drop_one]
    exact rel_head? (List.forall₂_drop 1 rest)

theorem previousSibling? (hk : rel h k) (top : rel root root') :
    Option.Rel rel (h.previousSibling? root) (k.previousSibling? root') := by
  unfold Handle.previousSibling?
  match h.parentUnder root, k.parentUnder root', b.parentUnder hk top with
  | _, _, .none => exact .none
  | _, _, .some parent =>
    exact rel_getLast? (forall₂_takeWhile (fun _ _ same => b.bne same hk) (b.children parent))

/-- No axis tells related handles apart. -/
theorem follow (axis : Axis) (hk : rel h k) (top : rel root root') :
    Forall₂ rel (axis.follow h root) (axis.follow k root') := by
  have below : Forall₂ rel h.descendants k.descendants := b.gatherBelow .nil (.cons hk .nil)
  have path := b.pathFromRoot hk top
  cases axis with
  | child => exact b.children hk
  | descendant => exact below
  | descendantOrSelf => exact List.rel_append below (.cons hk .nil)
  | self => exact .cons hk .nil
  | parent => exact forall₂_toList (b.parentUnder hk top)
  | ancestor =>
    rw [Axis.follow, Axis.follow, ancestors, ancestors]
    match Handle.pathFromRoot h root, Handle.pathFromRoot k root', path with
    | _, _, .none => exact .nil
    | _, _, .some nodes => exact forall₂_dropLast nodes
  | ancestorOrSelf =>
    rw [Axis.follow, Axis.follow, ancestorsOrSelf, ancestorsOrSelf]
    match Handle.pathFromRoot h root, Handle.pathFromRoot k root', path with
    | _, _, .none => exact .cons hk .nil
    | _, _, .some nodes => exact nodes
  | followingSibling => exact forall₂_toList (b.nextSibling? hk top)
  | precedingSibling => exact forall₂_toList (b.previousSibling? hk top)

end Bisimulation

section

variable {R : Label → Label → Prop}

/-- Handles on nodes alike, either without an index or with indexes that lead to nodes alike. -/
structure Alike (R : Label → Label → Prop) (h k : Handle) : Prop where
  node : h.node.Alike (Placed.Alike R) k.node
  index : Option.Rel (ParentIndex.Alike R) h.index k.index

theorem bisimulation_alike : Bisimulation (Alike R) where
  place same := same.node.place_eq
  children same := by
    rw [children_eq, children_eq, List.forall₂_map_left_iff, List.forall₂_map_right_iff]
    exact same.node.children.imp fun _ _ child => ⟨child, same.index⟩
  parent? := by
    rintro ⟨m, i⟩ ⟨n, j⟩ ⟨node, index⟩
    rw [Handle.parent?, Handle.parent?]
    cases index with
    | none => exact .none
    | @some i j leads =>
      have parent := leads m n node.place_eq
      dsimp only [Option.bind_some]
      match i.parent? m, j.parent? n, parent with
      | _, _, .none => exact .none
      | _, _, .some above => exact .some ⟨above, .some leads⟩

end

end Handle

/-- Trees alike have handles alike. -/
theorem Tree.Alike.handles {R : Label → Label → Prop} {t u : Tree Label} (h : t.Alike R u)
    (top : Option Nat) : Forall₂ (Handle.Alike R) (t.handles top) (u.handles top) := by
  have nodes := h.placed.preorder
  have found : Option.Rel (Tree.Alike (Placed.Alike R)) (top.bind (t.placed.preorder[·]?))
      (top.bind (u.placed.preorder[·]?)) := by
    cases top with
    | none => exact .none
    | some place =>
      dsimp only [Option.bind_some]
      rw [← List.head?_drop, ← List.head?_drop]
      exact rel_head? (List.forall₂_drop place nodes)
  unfold Tree.handles
  dsimp only
  match top.bind (t.placed.preorder[·]?), top.bind (u.placed.preorder[·]?), found with
  | _, _, .none =>
    rw [List.forall₂_map_left_iff, List.forall₂_map_right_iff]
    exact nodes.imp fun _ _ node => ⟨node, .none⟩
  | _, _, .some same =>
    rw [List.forall₂_map_left_iff, List.forall₂_map_right_iff]
    exact nodes.imp fun _ _ node => ⟨node, .some (ParentIndex.alike_build same)⟩

end TreeQuery
