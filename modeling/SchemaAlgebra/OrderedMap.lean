/-!
# Maps in insertion order

An `OrderedMap κ α` holds at most one value under each key and remembers the order in which the
keys were first inserted.  Inserting under a key that is present replaces the value and keeps its
place; erasing and filtering keep the order of the rest.

The view of a map is its list of `entries`, whose keys are distinct by the map's invariant.  Each
operation has one lemma that says what it does to look-ups, and the order of keys follows from the
equations for `keys`.
-/

namespace SchemaAlgebra

/-- A finite map that remembers the order of its keys. -/
structure OrderedMap (κ α : Type) where
  /-- The keys with their values, in the order of first insertion. -/
  entries : List (κ × α)
  /-- No key stands twice. -/
  nodup : (entries.map Prod.fst).Nodup

namespace OrderedMap

variable {κ α β : Type}

/-! ## Views -/

/-- The keys in order. -/
def keys (m : OrderedMap κ α) : List κ := m.entries.map Prod.fst

/-- The values in the order of their keys. -/
def values (m : OrderedMap κ α) : List α := m.entries.map Prod.snd

/-- The number of keys. -/
def size (m : OrderedMap κ α) : Nat := m.entries.length

/-- A map without keys. -/
def isEmpty (m : OrderedMap κ α) : Bool := m.entries.isEmpty

theorem keys_nodup (m : OrderedMap κ α) : m.keys.Nodup := m.nodup

/-- Two maps are the same if they have the same entries in the same order. -/
theorem ext {m n : OrderedMap κ α} (h : m.entries = n.entries) : m = n := by
  cases m; cases n; simp_all

instance [DecidableEq κ] [DecidableEq α] : DecidableEq (OrderedMap κ α) := fun m n =>
  if h : m.entries = n.entries then isTrue (ext h)
  else isFalse fun e => h (congrArg entries e)

/-- The map without entries. -/
def empty : OrderedMap κ α := ⟨[], List.nodup_nil⟩

instance : EmptyCollection (OrderedMap κ α) := ⟨empty⟩
instance : Inhabited (OrderedMap κ α) := ⟨empty⟩

section Search

variable [DecidableEq κ]

/-- The value under a key. -/
def get? (m : OrderedMap κ α) (key : κ) : Option α :=
  (m.entries.find? fun entry => entry.1 = key).map Prod.snd

/-- Whether a key has a value. -/
def contains (m : OrderedMap κ α) (key : κ) : Bool := (m.get? key).isSome

/-! ## Insertion -/

/-- Replaces the value under a key that is present in a list of entries. -/
private def replaceEntry (key : κ) (value : α) (entries : List (κ × α)) : List (κ × α) :=
  entries.map fun entry => if entry.1 = key then (entry.1, value) else entry

private theorem map_fst_replaceEntry (key : κ) (value : α) (entries : List (κ × α)) :
    (replaceEntry key value entries).map Prod.fst = entries.map Prod.fst := by
  simp only [replaceEntry, List.map_map]
  apply List.map_congr_left
  intro entry _
  by_cases h : entry.1 = key <;> simp [h]

/-- Puts a value under a key: in the place that the key has, or at the end. -/
def insert (m : OrderedMap κ α) (key : κ) (value : α) : OrderedMap κ α :=
  if h : key ∈ m.keys then
    ⟨replaceEntry key value m.entries, by rw [map_fst_replaceEntry]; exact m.nodup⟩
  else
    ⟨m.entries ++ [(key, value)], by
      have fresh : key ∉ m.entries.map Prod.fst := h
      rw [List.map_append, List.nodup_append]
      refine ⟨m.nodup, by simp, ?_⟩
      intro a ha b hb
      simp only [List.map_cons, List.map_nil, List.mem_singleton] at hb
      rintro rfl
      exact fresh (hb ▸ ha)⟩

/-- Inserts the entries of a list one after the other. -/
def insertAll (m : OrderedMap κ α) (entries : List (κ × α)) : OrderedMap κ α :=
  entries.foldl (fun acc entry => acc.insert entry.1 entry.2) m

/-- The map that a list of entries builds: of several values under one key the last one counts, in
the place of the first. -/
def ofList (entries : List (κ × α)) : OrderedMap κ α := empty.insertAll entries

theorem keys_insert (m : OrderedMap κ α) (key : κ) (value : α) :
    (m.insert key value).keys = if key ∈ m.keys then m.keys else m.keys ++ [key] := by
  unfold insert
  split
  · exact map_fst_replaceEntry key value m.entries
  · simp [keys]

private theorem find?_replaceEntry (key other : κ) (value : α) (entries : List (κ × α))
    (present : key ∈ entries.map Prod.fst) :
    ((replaceEntry key value entries).find? fun entry => entry.1 = other).map Prod.snd =
      if other = key then some value
      else (entries.find? fun entry => entry.1 = other).map Prod.snd := by
  induction entries with
  | nil => simp at present
  | cons entry rest ih =>
    obtain ⟨k, v⟩ := entry
    by_cases hk : k = key
    · subst hk
      by_cases ho : other = k
      · subst ho; simp [replaceEntry]
      · have ho' : ¬ k = other := fun e => ho e.symm
        simp only [ho, if_false] at ih ⊢
        simp only [replaceEntry, List.map_cons, List.find?_cons, if_true, ho', decide_false]
        by_cases later : k ∈ rest.map Prod.fst
        · exact ih later
        · -- The key stands only once, so nothing after it is replaced.
          congr 2
          have same : ∀ e ∈ rest, (if e.1 = k then (e.1, value) else e) = e := by
            intro e he
            have : ¬ e.1 = k := fun h => later (h ▸ List.mem_map_of_mem he)
            simp [this]
          exact (List.map_congr_left same).trans (List.map_id' rest)
    · have present' : key ∈ rest.map Prod.fst := by
        simp only [List.map_cons, List.mem_cons] at present
        exact present.resolve_left fun e => hk e.symm
      have ih := ih present'
      by_cases ho : k = other
      · subst ho; simp [replaceEntry, hk]
      · simp only [replaceEntry, List.map_cons, List.find?_cons, hk, if_false, ho, decide_false]
          at ih ⊢
        exact ih

/-- Under a key that no item has nothing is found. -/
theorem find?_eq_none_of_fresh {ι : Type} {items : List ι} {keyOf : ι → κ} {key : κ}
    (fresh : key ∉ items.map keyOf) : (items.find? fun item => keyOf item = key) = none := by
  rw [List.find?_eq_none]
  intro item hitem
  simp only [decide_eq_true_eq]
  exact fun h => fresh (h ▸ List.mem_map_of_mem hitem)

/-- Insertion changes the value under its own key only. -/
theorem get?_insert (m : OrderedMap κ α) (key other : κ) (value : α) :
    (m.insert key value).get? other = if other = key then some value else m.get? other := by
  unfold insert
  split
  case isTrue present => exact find?_replaceEntry key other value m.entries present
  case isFalse absent =>
    simp only [get?, List.find?_append]
    by_cases ho : other = key
    · subst ho
      simp [find?_eq_none_of_fresh (show other ∉ m.entries.map Prod.fst from absent)]
    · have ho' : ¬ key = other := fun e => ho e.symm
      simp [ho, ho']

/-- Of the entries that are inserted, the last one of a key counts; a key that none of them has
keeps its value. -/
theorem get?_insertAll (m : OrderedMap κ α) (entries : List (κ × α)) (key : κ) :
    (m.insertAll entries).get? key =
      ((entries.reverse.find? fun entry => entry.1 = key).map Prod.snd).or (m.get? key) := by
  unfold insertAll
  induction entries generalizing m with
  | nil => simp
  | cons entry rest ih =>
    rw [List.foldl_cons, ih, get?_insert, List.reverse_cons, List.find?_append]
    cases later : rest.reverse.find? fun entry => entry.1 = key with
    | some found => simp
    | none =>
      by_cases h : key = entry.1
      · simp [h]
      · have h' : ¬ entry.1 = key := fun e => h e.symm
        simp [h, h']

/-- What stands in a map is found under its key. -/
theorem get?_of_mem {m : OrderedMap κ α} {key : κ} {value : α} (h : (key, value) ∈ m.entries) :
    m.get? key = some value := by
  obtain ⟨entries, nodup⟩ := m
  simp only [get?] at h ⊢
  induction entries with
  | nil => cases h
  | cons entry rest ih =>
    obtain ⟨hfresh, hrest⟩ := List.nodup_cons.mp nodup
    rcases List.mem_cons.mp h with rfl | hlater
    · simp
    · have hne : ¬ entry.1 = key := fun e => hfresh (e ▸ List.mem_map_of_mem hlater)
      rw [List.find?_cons_of_neg (by simpa using hne)]
      exact ih hrest hlater

theorem mem_of_get? {m : OrderedMap κ α} {key : κ} {value : α} (h : m.get? key = some value) :
    (key, value) ∈ m.entries := by
  obtain ⟨entry, hfound, rfl⟩ := Option.map_eq_some_iff.mp h
  have hkey : entry.1 = key := by simpa using List.find?_some hfound
  exact hkey ▸ List.mem_of_find?_eq_some hfound

/-! ## Removal -/

/-- Keeps the entries that satisfy a condition. -/
def filter (m : OrderedMap κ α) (keep : κ → α → Bool) : OrderedMap κ α :=
  ⟨m.entries.filter fun entry => keep entry.1 entry.2,
    m.nodup.sublist (List.filter_sublist.map Prod.fst)⟩

/-- Removes a key and its value. -/
def erase (m : OrderedMap κ α) (key : κ) : OrderedMap κ α := m.filter fun k _ => k ≠ key

/-- Changes or drops the value under each key. -/
def filterMap (m : OrderedMap κ α) (f : κ → α → Option β) : OrderedMap κ β :=
  ⟨m.entries.filterMap fun entry => (f entry.1 entry.2).map (entry.1, ·), by
    have sub : ((m.entries.filterMap fun entry => (f entry.1 entry.2).map (entry.1, ·)).map
        Prod.fst).Sublist (m.entries.map Prod.fst) := by
      induction m.entries with
      | nil => simp
      | cons entry rest ih =>
        cases h : f entry.1 entry.2 with
        | none => simpa [List.filterMap_cons, h] using ih.cons _
        | some value => simpa [List.filterMap_cons, h] using ih
    exact m.nodup.sublist sub⟩

/-- Changing the values under all keys changes or drops the value under each. -/
theorem get?_filterMap (m : OrderedMap κ α) (f : κ → α → Option β) (key : κ) :
    (m.filterMap f).get? key = (m.get? key).bind (f key) := by
  obtain ⟨entries, nodup⟩ := m
  simp only [get?, filterMap]
  induction entries with
  | nil => simp
  | cons entry rest ih =>
    obtain ⟨k, v⟩ := entry
    simp only [List.map_cons, List.nodup_cons] at nodup
    have ih := ih nodup.2
    by_cases hk : k = key
    · subst hk
      -- The key does not stand again further on.
      cases hf : f k v with
      | none => simpa [List.filterMap_cons, hf, find?_eq_none_of_fresh nodup.1] using ih
      | some value => simp [hf]
    · cases hf : f k v <;> simpa [List.filterMap_cons, List.find?_cons, hk, hf] using ih

/-- A condition on entries takes away the values under the keys that fail it. -/
theorem get?_filter (m : OrderedMap κ α) (keep : κ → α → Bool) (key : κ) :
    (m.filter keep).get? key = (m.get? key).filter (keep key) := by
  have same : m.filter keep = m.filterMap fun k v => if keep k v then some v else none := by
    apply ext
    simp only [filter, filterMap]
    induction m.entries with
    | nil => rfl
    | cons entry rest ih =>
      cases h : keep entry.1 entry.2 <;> simp [h, ih]
  rw [same, get?_filterMap]
  cases m.get? key with
  | none => rfl
  | some value => cases h : keep key value <;> simp [Option.filter, h]

theorem keys_erase (m : OrderedMap κ α) (key : κ) :
    (m.erase key).keys = m.keys.filter (· ≠ key) := by
  simp only [erase, filter, keys, List.filter_map]
  rfl

/-- Erasure takes away the value under its own key only. -/
theorem get?_erase (m : OrderedMap κ α) (key other : κ) :
    (m.erase key).get? other = if other = key then none else m.get? other := by
  simp only [get?, erase, filter]
  induction m.entries with
  | nil => simp
  | cons entry rest ih =>
    obtain ⟨k, v⟩ := entry
    by_cases hk : k = key
    · subst hk
      by_cases ho : other = k
      · simp [ho]
      · have ho' : ¬ k = other := fun e => ho e.symm
        simpa [List.filter_cons, List.find?_cons, ho, ho'] using ih
    · by_cases ho : k = other
      · subst ho; simp [hk]
      · simpa [List.filter_cons, List.find?_cons, hk, ho] using ih

end Search

end OrderedMap

end SchemaAlgebra
