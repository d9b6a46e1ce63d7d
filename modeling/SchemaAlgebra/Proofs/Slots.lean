import SchemaAlgebra.Arena

/-!
# What the index of an arena knows

An arena keeps its definitions in slots and, apart from them, an index of the slots of each key.
An arena is `Indexed` if the index says what the slots hold.  A document's arena is, and every
operation keeps it so; `replace` does if the new definition has the key of the old one.

For an indexed arena a look-up takes the slots apart at the first definition of the key, which is
how merging and paring walk through them.

## Main statements

* `Indexed.push`, `Indexed.remove`, `Indexed.replace`, `indexed_ofDocument`.
* `Indexed.findAll_eq_nil_iff`: nothing is found exactly if no definition has the key.
* `Indexed.exists_split`: the first slot that is found, with what stands before and behind it.
-/

namespace SchemaAlgebra.Arena

/-! ## The slots of a key -/

/-- Whether a slot holds a definition of a key. -/
def holds (key : DefinitionKey) (content : Option Definition) : Bool :=
  content.any (·.key = key)

/-- The numbers of the slots that hold a definition of a key, where the first slot has the number
`first`. -/
def slotsFrom (key : DefinitionKey) : Nat → List (Option Definition) → List Nat
  | _, [] => []
  | first, content :: rest =>
    if holds key content then first :: slotsFrom key (first + 1) rest
    else slotsFrom key (first + 1) rest

theorem slotsFrom_append (key : DefinitionKey) (first : Nat) (front back : List (Option Definition)) :
    slotsFrom key first (front ++ back) =
      slotsFrom key first front ++ slotsFrom key (first + front.length) back := by
  induction front generalizing first with
  | nil => simp [slotsFrom]
  | cons content rest ih =>
    have hplace : first + (rest.length + 1) = first + 1 + rest.length := by omega
    simp only [List.cons_append, slotsFrom, ih, List.length_cons, hplace]
    split <;> simp

/-- Slots are numbered upwards. -/
theorem le_of_mem_slotsFrom {key : DefinitionKey} {first slot : Nat}
    {contents : List (Option Definition)} (h : slot ∈ slotsFrom key first contents) :
    first ≤ slot := by
  induction contents generalizing first with
  | nil => cases h
  | cons content rest ih =>
    simp only [slotsFrom] at h
    split at h
    · rcases List.mem_cons.mp h with rfl | hlater
      · exact Nat.le_refl _
      · exact Nat.le_of_succ_le (ih hlater)
    · exact Nat.le_of_succ_le (ih h)

theorem slotsFrom_eq_nil_iff {key : DefinitionKey} {first : Nat}
    {contents : List (Option Definition)} :
    slotsFrom key first contents = [] ↔
      ∀ definition ∈ contents.filterMap id, definition.key ≠ key := by
  induction contents generalizing first with
  | nil => simp [slotsFrom]
  | cons content rest ih =>
    cases content with
    | none => simpa [slotsFrom, holds] using ih
    | some definition =>
      by_cases hkey : definition.key = key
      · simp [slotsFrom, holds, hkey]
      · simpa [slotsFrom, holds, hkey] using ih

/-- Other contents of a slot that count the same for a key change nothing for that key. -/
theorem slotsFrom_set {key : DefinitionKey} {first place : Nat}
    {contents : List (Option Definition)} {old new : Option Definition}
    (hold : contents[place]? = some old) (hsame : holds key new = holds key old) :
    slotsFrom key first (contents.set place new) = slotsFrom key first contents := by
  induction contents generalizing first place with
  | nil => simp at hold
  | cons content rest ih =>
    cases place with
    | zero =>
      obtain rfl : content = old := by simpa using hold
      simp [slotsFrom, hsame]
    | succ place =>
      have hrest : rest[place]? = some old := by simpa using hold
      simp [slotsFrom, ih hrest]

/-- An emptied slot is no slot of any key. -/
theorem slotsFrom_set_none (key : DefinitionKey) (first place : Nat)
    (contents : List (Option Definition)) :
    slotsFrom key first (contents.set place none) =
      (slotsFrom key first contents).filter (· ≠ first + place) := by
  induction contents generalizing first place with
  | nil => simp [slotsFrom]
  | cons content rest ih =>
    cases place with
    | zero =>
      -- The slots behind are numbered higher, so none of them is filtered out.
      have hlater : (slotsFrom key (first + 1) rest).filter (fun slot => !decide (slot = first)) =
          slotsFrom key (first + 1) rest := by
        rw [List.filter_eq_self]
        intro slot hslot
        have := le_of_mem_slotsFrom hslot
        simp only [Bool.not_eq_true', decide_eq_false_iff_not]
        omega
      have hnone : holds key none = false := rfl
      simp only [List.set_cons_zero, slotsFrom, Nat.add_zero, hnone, Bool.false_eq_true, if_false]
      split <;> simp [hlater]
    | succ place =>
      have hplace : first + (place + 1) = first + 1 + place := by omega
      simp only [List.set_cons_succ, slotsFrom, ih, hplace]
      split
      · have hne : first ≠ first + 1 + place := by omega
        simp [hne]
      · rfl

/-- The first slot of a key takes the slots apart. -/
theorem exists_split_of_slotsFrom {key : DefinitionKey} {first slot : Nat}
    {contents : List (Option Definition)} {more : List Nat}
    (h : slotsFrom key first contents = slot :: more) :
    ∃ front definition back, contents = front ++ some definition :: back ∧
      definition.key = key ∧ slot = first + front.length ∧ slotsFrom key first front = [] ∧
      more = slotsFrom key (slot + 1) back := by
  induction contents generalizing first with
  | nil => cases h
  | cons content rest ih =>
    by_cases hcontent : holds key content
    · simp only [slotsFrom, hcontent, if_true, List.cons.injEq] at h
      obtain ⟨rfl, rfl⟩ := h
      cases content with
      | none => simp [holds] at hcontent
      | some definition =>
        exact ⟨[], definition, rest, rfl, by simpa [holds] using hcontent, rfl, rfl, rfl⟩
    · simp only [slotsFrom, hcontent] at h
      obtain ⟨front, definition, back, rfl, hkey, rfl, hfront, rfl⟩ := ih h
      refine ⟨content :: front, definition, back, rfl, hkey, ?_, ?_, rfl⟩
      · simp only [List.length_cons]
        omega
      · simpa [slotsFrom, hcontent] using hfront

/-! ## Indexed arenas -/

/-- The index gives the slots that hold each key, in increasing order. -/
def Indexed (arena : Arena) : Prop := ∀ key, arena.findAll key = slotsFrom key 0 arena.slots

theorem indexed_empty : (∅ : Arena).Indexed := fun _ => rfl

/-- The definitions of an arena, in order. -/
theorem definitions_toDocument (arena : Arena) :
    arena.toDocument.definitions = arena.slots.filterMap id := rfl

theorem definitions_push (arena : Arena) (definition : Definition) :
    (arena.push definition).toDocument.definitions =
      arena.toDocument.definitions ++ [definition] := by
  simp [definitions_toDocument]

theorem findAll_push (arena : Arena) (definition : Definition) (key : DefinitionKey) :
    (arena.push definition).findAll key =
      if key = definition.key then arena.findAll key ++ [arena.slots.length]
      else arena.findAll key := by
  simp only [findAll, push, OrderedMap.get?_insert]
  split
  · next h => simp [h]
  · rfl

theorem findAll_replace (arena : Arena) (slot : Nat) (definition : Definition)
    (key : DefinitionKey) : (arena.replace slot definition).findAll key = arena.findAll key := rfl

/-- Removal takes a slot out of the index. -/
theorem findAll_remove {arena : Arena} {slot : Nat} {definition : Definition}
    (h : arena.get? slot = some definition) (key : DefinitionKey) :
    (arena.remove slot).findAll key =
      if key = definition.key then (arena.findAll key).filter (· ≠ slot)
      else arena.findAll key := by
  obtain ⟨others, hothers⟩ :
      ∃ others, others = (arena.findAll definition.key).filter (· ≠ slot) := ⟨_, rfl⟩
  have hindex : (arena.remove slot).index =
      if others.isEmpty then arena.index.erase definition.key
      else arena.index.insert definition.key others := by
    simp [remove, h, hothers]
  show ((arena.remove slot).index.get? key).getD [] = _
  rw [hindex]
  -- A key that loses its last slot leaves the index, and nothing is found for it from then on.
  split
  case isTrue hnone =>
    rw [OrderedMap.get?_erase]
    split
    · next hkey =>
      rw [hkey, ← hothers]
      simpa using hnone.symm
    · rfl
  case isFalse =>
    rw [OrderedMap.get?_insert]
    split
    · next hkey => simp [hkey, hothers]
    · rfl

theorem slots_remove {arena : Arena} {slot : Nat} {definition : Definition}
    (h : arena.get? slot = some definition) :
    (arena.remove slot).slots = arena.slots.set slot none := by
  simp [remove, h]

/-- What is found in a slot stands there. -/
theorem getElem?_of_get? {arena : Arena} {slot : Nat} {definition : Definition}
    (h : arena.get? slot = some definition) : arena.slots[slot]? = some (some definition) := by
  simpa [get?, Option.join_eq_some_iff] using h

theorem get?_of_slots {arena : Arena} {front back : List (Option Definition)}
    {content : Option Definition} (h : arena.slots = front ++ content :: back) :
    arena.get? front.length = content := by
  simp [get?, h]

/-- Overwriting a slot with what stands in it changes nothing. -/
theorem replace_self {arena : Arena} {slot : Nat} {definition : Definition}
    (h : arena.get? slot = some definition) : arena.replace slot definition = arena := by
  obtain ⟨hplace, hcontent⟩ := List.getElem?_eq_some_iff.mp (getElem?_of_get? h)
  have hslots : arena.slots.set slot (some definition) = arena.slots := by
    rw [← hcontent, List.set_getElem_self]
  rw [replace, hslots]

namespace Indexed

variable {arena : Arena}

protected theorem push (h : arena.Indexed) (definition : Definition) :
    (arena.push definition).Indexed := by
  intro key
  rw [findAll_push, slots_push, slotsFrom_append, h key]
  by_cases hkey : definition.key = key
  · simp [slotsFrom, holds, hkey]
  · have hkey' : ¬ key = definition.key := fun e => hkey e.symm
    simp [slotsFrom, holds, hkey, hkey']

protected theorem remove (h : arena.Indexed) {slot : Nat} {definition : Definition}
    (hslot : arena.get? slot = some definition) : (arena.remove slot).Indexed := by
  intro key
  rw [findAll_remove hslot, slots_remove hslot, h key]
  split
  · rw [slotsFrom_set_none, Nat.zero_add]
  · next hkey =>
    have hother : holds key none = holds key (some definition) := by
      have hkey' : ¬ definition.key = key := fun e => hkey e.symm
      simp [holds, hkey']
    exact (slotsFrom_set (getElem?_of_get? hslot) hother).symm

protected theorem replace (h : arena.Indexed) {slot : Nat} {old new : Definition}
    (hslot : arena.get? slot = some old) (hkey : new.key = old.key) :
    (arena.replace slot new).Indexed := by
  intro key
  rw [findAll_replace, slots_replace, h key]
  -- The new definition has the key of the old one, so its slot counts as before.
  have hsame : holds key (some new) = holds key (some old) := by simp [holds, hkey]
  exact (slotsFrom_set (getElem?_of_get? hslot) hsame).symm

/-- Nothing is found exactly if no definition has the key. -/
theorem findAll_eq_nil_iff (h : arena.Indexed) (key : DefinitionKey) :
    arena.findAll key = [] ↔
      ∀ definition ∈ arena.toDocument.definitions, definition.key ≠ key := by
  rw [h key, slotsFrom_eq_nil_iff, definitions_toDocument]

/-- The first slot that is found takes the arena apart. -/
theorem exists_split (h : arena.Indexed) {key : DefinitionKey} {slot : Nat} {more : List Nat}
    (hfind : arena.findAll key = slot :: more) :
    ∃ front definition back, arena.slots = front ++ some definition :: back ∧
      definition.key = key ∧ slot = front.length ∧
      (∀ earlier ∈ front.filterMap id, earlier.key ≠ key) ∧
      more = slotsFrom key (front.length + 1) back := by
  rw [h key] at hfind
  obtain ⟨front, definition, back, hslots, hkey, hslot, hfront, hmore⟩ :=
    exists_split_of_slotsFrom hfind
  rw [Nat.zero_add] at hslot
  exact ⟨front, definition, back, hslots, hkey, hslot, slotsFrom_eq_nil_iff.mp hfront,
    hslot ▸ hmore⟩

end Indexed

/-- The arena of a document is indexed. -/
theorem indexed_ofDocument (document : Document) : (ofDocument document).Indexed := by
  -- Definitions are pushed one by one, so the induction is for any arena that is indexed so far.
  have loop : ∀ (definitions : List Definition) (arena : Arena), arena.Indexed →
      (definitions.foldl push arena).Indexed := by
    intro definitions
    induction definitions with
    | nil => exact fun _ h => h
    | cons definition rest ih => exact fun _ h => ih _ (h.push definition)
  exact loop document.definitions ∅ indexed_empty

end SchemaAlgebra.Arena
