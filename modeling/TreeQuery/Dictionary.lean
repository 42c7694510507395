namespace TreeQuery

/-- A finite map from text to `β`; its entries ascend strictly by key. -/
structure Dictionary (β : Type) where
  entries : List (String × β)
  ascending : entries.Pairwise (fun a b => a.1 < b.1)

namespace Dictionary

variable {β : Type}

theorem ext_entries {d e : Dictionary β} (h : d.entries = e.entries) : d = e := by
  cases d; cases e; cases h; rfl

instance [DecidableEq β] : DecidableEq (Dictionary β) := fun d e =>
  decidable_of_iff (d.entries = e.entries) ⟨ext_entries, fun h => h ▸ rfl⟩

def empty : Dictionary β := ⟨[], .nil⟩

instance : EmptyCollection (Dictionary β) := ⟨empty⟩

instance : Inhabited (Dictionary β) := ⟨empty⟩

def get? (d : Dictionary β) (key : String) : Option β :=
  d.entries.findSome? fun entry => if entry.1 = key then some entry.2 else none

def contains (d : Dictionary β) (key : String) : Bool := (d.get? key).isSome

def keys (d : Dictionary β) : List String := d.entries.map (·.1)

/-- Puts an entry at its place, over an older one with the same key. -/
def place (key : String) (value : β) : List (String × β) → List (String × β)
  | [] => [(key, value)]
  | entry :: rest =>
    if key < entry.1 then (key, value) :: entry :: rest
    else if key = entry.1 then (key, value) :: rest
    else entry :: place key value rest

theorem mem_place {key : String} {value : β} {e : String × β} {entries : List (String × β)}
    (h : e ∈ place key value entries) : e = (key, value) ∨ e ∈ entries := by
  induction entries with
  | nil => simpa [place] using h
  | cons entry rest ih =>
    rw [place] at h
    split at h
    · simpa using h
    · split at h
      · rcases List.mem_cons.mp h with h | h
        · exact .inl h
        · exact .inr (List.mem_cons_of_mem _ h)
      · rcases List.mem_cons.mp h with h | h
        · exact .inr (h ▸ List.mem_cons_self ..)
        · exact (ih h).imp_right (List.mem_cons_of_mem _)

theorem place_ascending (key : String) (value : β) {entries : List (String × β)}
    (h : entries.Pairwise (fun a b => a.1 < b.1)) :
    (place key value entries).Pairwise (fun a b => a.1 < b.1) := by
  induction entries with
  | nil => simp [place]
  | cons entry rest ih =>
    obtain ⟨above, tail⟩ := List.pairwise_cons.mp h
    rw [place]
    split
    · rename_i lt
      refine List.pairwise_cons.mpr ⟨fun e he => ?_, h⟩
      rcases List.mem_cons.mp he with rfl | he
      · exact lt
      · exact String.lt_trans lt (above e he)
    · split
      · rename_i eq
        exact List.pairwise_cons.mpr ⟨fun e he => eq ▸ above e he, tail⟩
      · rename_i ge ne
        refine List.pairwise_cons.mpr ⟨fun e he => ?_, ih tail⟩
        rcases mem_place he with rfl | he
        · exact Decidable.byContradiction fun other =>
            ne (String.le_antisymm (String.not_lt.mp other) (String.not_lt.mp ge))
        · exact above e he

/-- Adds an entry, replacing one with the same key. -/
def insert (d : Dictionary β) (key : String) (value : β) : Dictionary β :=
  ⟨place key value d.entries, place_ascending key value d.ascending⟩

/-- Adds an entry unless the key already has one. -/
def insertNew (d : Dictionary β) (key : String) (value : β) : Dictionary β :=
  if d.contains key then d else d.insert key value

/-- Removes the entry with this key, if any. -/
def erase (d : Dictionary β) (key : String) : Dictionary β :=
  ⟨d.entries.filter (fun entry => entry.1 ≠ key), d.ascending.filter _⟩

/-- Adds the entries in turn, so the last one of several with the same key stays. -/
def ofList (entries : List (String × β)) : Dictionary β :=
  entries.foldl (fun d entry => d.insert entry.1 entry.2) empty

theorem get?_empty (key : String) : (empty : Dictionary β).get? key = none := rfl

theorem get?_insert (d : Dictionary β) (key : String) (value : β) (other : String) :
    (d.insert key value).get? other = if key = other then some value else d.get? other := by
  obtain ⟨entries, ascending⟩ := d
  simp only [insert, get?]
  induction entries with
  | nil => simp [place]
  | cons entry rest ih =>
    have ih := ih (List.pairwise_cons.mp ascending).2
    rw [place]
    split
    · simp only [List.findSome?_cons]
      by_cases h : key = other <;> simp [h]
    · split
      · rename_i same
        by_cases h : key = other
        · simp [h]
        · simp [h, ← same]
      · rename_i differ
        by_cases h : entry.1 = other
        · have apart : ¬ key = other := fun same => differ (same.trans h.symm)
          simp [h, apart]
        · simpa [h] using ih

theorem get?_insertNew (d : Dictionary β) (key : String) (value : β) (other : String) :
    (d.insertNew key value).get? other =
      if key = other then some ((d.get? key).getD value) else d.get? other := by
  unfold insertNew contains
  by_cases h : key = other
  · subst h
    cases found : d.get? key with
    | none => simp [get?_insert]
    | some old => simp [found]
  · split <;> simp [get?_insert, h]

theorem get?_erase (d : Dictionary β) (key other : String) :
    (d.erase key).get? other = if key = other then none else d.get? other := by
  obtain ⟨entries, ascending⟩ := d
  simp only [erase, get?]
  induction entries with
  | nil => simp
  | cons entry rest ih =>
    have ih := ih (List.pairwise_cons.mp ascending).2
    by_cases here : entry.1 = key
    · by_cases h : key = other <;> simp_all
    · by_cases h : entry.1 = other
      · have apart : ¬ key = other := fun same => here (h.trans same.symm)
        rw [List.filter_cons_of_pos (by simpa using here)]
        simp [h, apart]
      · rw [List.filter_cons_of_pos (by simpa using here)]
        simpa [h] using ih

theorem get?_eq_some_iff (d : Dictionary β) (key : String) (value : β) :
    d.get? key = some value ↔ (key, value) ∈ d.entries := by
  obtain ⟨entries, ascending⟩ := d
  simp only [get?]
  induction entries with
  | nil => simp
  | cons entry rest ih =>
    obtain ⟨above, ascending⟩ := List.pairwise_cons.mp ascending
    have ih := ih ascending
    obtain ⟨first, stored⟩ := entry
    by_cases h : first = key
    · subst h
      have absent : (first, value) ∉ rest := fun found =>
        String.lt_irrefl first (above (first, value) found)
      simp [absent, eq_comm]
    · have apart : ¬ key = first := fun same => h same.symm
      simpa [h, apart] using ih

theorem mem_keys_iff (d : Dictionary β) (key : String) : key ∈ d.keys ↔ d.contains key := by
  rw [contains, Option.isSome_iff_exists]
  simp [get?_eq_some_iff, keys]

/-- Dictionaries with the same look-ups are the same. -/
theorem ext_get? {d e : Dictionary β} (h : ∀ key, d.get? key = e.get? key) : d = e := by
  have same (entry : String × β) : entry ∈ d.entries ↔ entry ∈ e.entries := by
    rw [← get?_eq_some_iff, ← get?_eq_some_iff, h]
  obtain ⟨xs, hx⟩ := d
  obtain ⟨ys, hy⟩ := e
  simp only at same
  refine ext_entries (show xs = ys from ?_)
  clear h
  induction xs generalizing ys with
  | nil =>
    cases ys with
    | nil => rfl
    | cons y ys => simpa using same y
  | cons x xs ih =>
    cases ys with
    | nil => simpa using same x
    | cons y ys =>
      obtain ⟨aboveX, restX⟩ := List.pairwise_cons.mp hx
      obtain ⟨aboveY, restY⟩ := List.pairwise_cons.mp hy
      have first : x = y := by
        rcases List.mem_cons.mp ((same x).mp (List.mem_cons_self ..)) with h | h
        · exact h
        · rcases List.mem_cons.mp ((same y).mpr (List.mem_cons_self ..)) with h' | h'
          · exact h'.symm
          · exact absurd (String.lt_trans (aboveX y h') (aboveY x h)) (String.lt_irrefl _)
      subst first
      refine congrArg _ (ih restX ys restY fun entry => ⟨fun h => ?_, fun h => ?_⟩)
      · rcases List.mem_cons.mp ((same entry).mp (List.mem_cons_of_mem _ h)) with rfl | h'
        · exact absurd (aboveX _ h) (String.lt_irrefl _)
        · exact h'
      · rcases List.mem_cons.mp ((same entry).mpr (List.mem_cons_of_mem _ h)) with rfl | h'
        · exact absurd (aboveY _ h) (String.lt_irrefl _)
        · exact h'

theorem place_last {key : String} {value : β} {entries : List (String × β)}
    (h : ∀ entry ∈ entries, entry.1 < key) :
    place key value entries = entries ++ [(key, value)] := by
  induction entries with
  | nil => rfl
  | cons entry rest ih =>
    obtain ⟨below, others⟩ := List.forall_mem_cons.mp h
    have apart : key ≠ entry.1 := fun same => String.lt_irrefl key (same ▸ below)
    rw [place, if_neg (String.lt_asymm below), if_neg apart, ih others, List.cons_append]

/-- The entries of a dictionary make it up again. -/
theorem ofList_entries (d : Dictionary β) : ofList d.entries = d := by
  have fold (e : Dictionary β) (entries : List (String × β))
      (ascending : (e.entries ++ entries).Pairwise (fun a b => a.1 < b.1)) :
      (entries.foldl (fun d entry => d.insert entry.1 entry.2) e).entries =
        e.entries ++ entries := by
    induction entries generalizing e with
    | nil => rw [List.foldl_nil, List.append_nil]
    | cons entry entries ih =>
      have last : (e.insert entry.1 entry.2).entries = e.entries ++ [entry] :=
        place_last fun other h => (List.pairwise_append.mp ascending).2.2 other h entry (by simp)
      have same : e.entries ++ entry :: entries = e.entries ++ [entry] ++ entries := by simp
      rw [List.foldl_cons, same, ← last, ih]
      rwa [last, ← same]
  exact ext_entries (fold empty d.entries d.ascending)

end Dictionary

end TreeQuery
