import Mathlib.Data.List.Nodup
import SchemaAlgebra.ResolverMap

/-!
# Cutting resolver maps down

Every removal takes leaves out of a resolver map and leaves the rest alone: what stays keeps its resolver
and its place, and a type entry goes with its last leaf.  `ResolverMap.cut` says so once, for any condition
on leaves.  An entry that was empty to begin with has no leaf to lose, so a cut lets it stand.

## Main statements

* `leaves_cut`: a cut filters the leaves.
* `cut_cut`, `cut_congr`: two cuts in a row are one, and only what is said about leaves counts.
* `cut_eq_self_iff`: a cut changes the map exactly if it takes a leaf away.
* `value_removePath`: the removal of a field is a cut, and it reports whether it took a leaf away.
-/

namespace SchemaAlgebra

variable {R : Type}

/-! ## Changing the entries of a map -/

namespace OrderedMap

variable {κ α β : Type}

theorem filterMap_congr {m : OrderedMap κ α} {f g : κ → α → Option β}
    (h : ∀ key value, (key, value) ∈ m.entries → f key value = g key value) :
    m.filterMap f = m.filterMap g := by
  apply ext
  apply List.filterMap_congr
  intro entry hentry
  rw [h entry.1 entry.2 hentry]

theorem filterMap_some (m : OrderedMap κ α) : (m.filterMap fun _ value => some value) = m := by
  apply ext
  exact List.filterMap_some

theorem filterMap_filterMap {γ : Type} (m : OrderedMap κ α) (f : κ → α → Option β)
    (g : κ → β → Option γ) :
    (m.filterMap f).filterMap g = m.filterMap fun key value => (f key value).bind (g key) := by
  apply ext
  show (m.entries.filterMap _).filterMap _ = m.entries.filterMap _
  rw [List.filterMap_filterMap]
  apply List.filterMap_congr
  intro entry _
  cases hfirst : f entry.1 entry.2 <;> simp [hfirst]

variable [DecidableEq κ]

/-- Erasure drops what stands under its key. -/
theorem erase_eq_filterMap (m : OrderedMap κ α) (key : κ) :
    m.erase key = m.filterMap fun other value => if other = key then none else some value := by
  apply ext
  show m.entries.filter _ = m.entries.filterMap _
  rw [← List.filterMap_eq_filter]
  apply List.filterMap_congr
  intro entry _
  by_cases hkey : entry.1 = key <;> simp [hkey, Option.guard]

/-- Insertion under a key that is there changes the value under it. -/
theorem insert_eq_filterMap {m : OrderedMap κ α} {key : κ} (h : key ∈ m.keys) (value : α) :
    m.insert key value =
      m.filterMap fun other old => if other = key then some value else some old := by
  apply ext
  have hentries : (m.insert key value).entries =
      m.entries.map fun entry => if entry.1 = key then (entry.1, value) else entry := by
    rw [insert, dif_pos h]
    rfl
  show _ = m.entries.filterMap _
  rw [hentries, ← List.filterMap_eq_map]
  apply List.filterMap_congr
  intro entry _
  by_cases hkey : entry.1 = key <;> simp [hkey]

end OrderedMap

namespace ResolverMap

/-- The resolvers of an entry, each with its type, if it stands in a type entry, and its field. -/
def leavesIn (key : String) : ResolverEntry R → List (Option String × String × R)
  | .type fields => fields.entries.map fun item => (some key, item.1, item.2)
  | .rootField resolver => [(none, key, resolver)]

/-- Where a leaf stands: its type, if it stands in a type entry, and its field. -/
def address (leaf : Option String × String × R) : Option String × String := (leaf.1, leaf.2.1)

/-- The name of the entry that a leaf stands in. -/
def entryName (leaf : Option String × String × R) : String := leaf.1.getD leaf.2.1

theorem entryName_of_mem_leavesIn {key : String} {entry : ResolverEntry R}
    {leaf : Option String × String × R} (h : leaf ∈ leavesIn key entry) : entryName leaf = key := by
  cases entry with
  | type fields =>
    obtain ⟨item, -, rfl⟩ := List.mem_map.mp h
    rfl
  | rootField resolver =>
    rw [List.mem_singleton.mp h]
    rfl

/-- If what happens to each entry amounts to a condition on its leaves, then what happens to the map
amounts to that condition. -/
theorem leaves_filterMap {map : ResolverMap R}
    {change : String → ResolverEntry R → Option (ResolverEntry R)}
    {keep : Option String × String × R → Bool}
    (h : ∀ key entry, map.entries.get? key = some entry →
      ((change key entry).map (leavesIn key)).getD [] = (leavesIn key entry).filter keep) :
    (⟨map.entries.filterMap change⟩ : ResolverMap R).leaves = map.leaves.filter keep := by
  have hsplit : ∀ entries : List (String × ResolverEntry R),
      (entries.filterMap fun item => (change item.1 item.2).map (item.1, ·)).flatMap
          (fun item => leavesIn item.1 item.2) =
        entries.flatMap fun item => ((change item.1 item.2).map (leavesIn item.1)).getD [] := by
    -- Induction on the entries: one that is dropped shows no leaves on either side.
    intro entries
    induction entries with
    | nil => rfl
    | cons item rest ih =>
      cases hchange : change item.1 item.2 <;> simp [hchange, ih]
  calc (⟨map.entries.filterMap change⟩ : ResolverMap R).leaves
      = map.entries.entries.flatMap fun item =>
          ((change item.1 item.2).map (leavesIn item.1)).getD [] := hsplit map.entries.entries
    _ = map.entries.entries.flatMap fun item => (leavesIn item.1 item.2).filter keep :=
        List.flatMap_congr fun item hitem => h item.1 item.2 (OrderedMap.get?_of_mem hitem)
    _ = map.leaves.filter keep := List.filter_flatMap.symm

/-- No two leaves of a map stand in one place. -/
theorem nodup_address (map : ResolverMap R) : (map.leaves.map address).Nodup := by
  show ((map.entries.entries.flatMap fun item => leavesIn item.1 item.2).map address).Nodup
  rw [List.map_flatMap, List.nodup_flatMap]
  constructor
  · -- Within an entry the fields are distinct.
    rintro ⟨key, entry⟩ -
    cases entry with
    | type fields =>
      have hfields : ((leavesIn key (.type fields)).map address) =
          fields.keys.map fun field => (some key, field) := by
        simp [leavesIn, address, OrderedMap.keys, Function.comp_def]
      rw [hfields]
      exact fields.keys_nodup.map fun one other h => (Prod.mk.inj h).2
    | rootField resolver => exact List.nodup_singleton _
  · -- Between entries the names are.
    refine (List.pairwise_map.mp map.entries.nodup).imp ?_
    rintro ⟨key, entry⟩ ⟨other, otherEntry⟩ hne place hplace hother
    obtain ⟨leaf, hleaf, rfl⟩ := List.mem_map.mp hplace
    obtain ⟨otherLeaf, hotherLeaf, hsame⟩ := List.mem_map.mp hother
    refine hne ?_
    rw [← entryName_of_mem_leavesIn hleaf, ← entryName_of_mem_leavesIn hotherLeaf]
    exact (congrArg (fun place : Option String × String => place.1.getD place.2) hsame).symm

/-! ## Cuts -/

/-- What is left of an entry without the leaves that fail a condition.  A type entry goes with its last
leaf. -/
def cutEntry (keep : Option String × String × R → Bool) (key : String) :
    ResolverEntry R → Option (ResolverEntry R)
  | .type fields =>
    let kept := fields.filter fun field resolver => keep (some key, field, resolver)
    -- An entry that was empty before has lost nothing, so it stays.
    if kept.isEmpty && !fields.isEmpty then none else some (.type kept)
  | .rootField resolver => if keep (none, key, resolver) then some (.rootField resolver) else none

/-- A map without the leaves that fail a condition. -/
def cut (keep : Option String × String × R → Bool) (map : ResolverMap R) : ResolverMap R :=
  ⟨map.entries.filterMap (cutEntry keep)⟩

section Cut

variable {keep more : Option String × String × R → Bool} {key : String} {entry : ResolverEntry R}
  {map : ResolverMap R}

theorem leavesIn_cutEntry :
    ((cutEntry keep key entry).map (leavesIn key)).getD [] = (leavesIn key entry).filter keep := by
  cases entry with
  | type fields =>
    have hkept : (leavesIn key (.type fields)).filter keep =
        leavesIn key (.type (fields.filter fun field resolver => keep (some key, field, resolver))) :=
      List.filter_map
    rw [hkept, cutEntry]
    split
    · next hgone =>
      have hnone := List.isEmpty_iff.mp (Bool.and_eq_true_iff.mp hgone).1
      simp [leavesIn, hnone]
    · rfl
  | rootField resolver =>
    by_cases hkeep : keep (none, key, resolver) <;> simp [cutEntry, leavesIn, hkeep]

theorem cutEntry_congr (h : ∀ leaf ∈ leavesIn key entry, keep leaf = more leaf) :
    cutEntry keep key entry = cutEntry more key entry := by
  cases entry with
  | type fields =>
    have hsame : (fields.filter fun field resolver => keep (some key, field, resolver)) =
        fields.filter fun field resolver => more (some key, field, resolver) := by
      apply OrderedMap.ext
      apply List.filter_congr
      intro item hitem
      exact h _ (List.mem_map_of_mem hitem)
    rw [cutEntry, cutEntry, hsame]
  | rootField resolver =>
    rw [cutEntry, cutEntry, h _ (List.mem_singleton_self _)]

theorem cutEntry_of_forall (h : ∀ leaf ∈ leavesIn key entry, keep leaf) :
    cutEntry keep key entry = some entry := by
  have hnothing : cutEntry keep key entry = cutEntry (fun _ => true) key entry := cutEntry_congr h
  rw [hnothing]
  cases entry with
  | type fields =>
    have hall : (fields.filter fun _ _ => true) = fields :=
      OrderedMap.ext (List.filter_eq_self.mpr fun _ _ => rfl)
    simp [cutEntry, hall]
  | rootField resolver => rfl

theorem cutEntry_cutEntry :
    (cutEntry keep key entry).bind (cutEntry more key) =
      cutEntry (fun leaf => keep leaf && more leaf) key entry := by
  cases entry with
  | type fields =>
    let first := fields.filter fun field resolver => keep (some key, field, resolver)
    let both := fields.filter fun field resolver =>
      keep (some key, field, resolver) && more (some key, field, resolver)
    have hboth : (first.filter fun field resolver => more (some key, field, resolver)) = both := by
      apply OrderedMap.ext
      show (fields.entries.filter _).filter _ = fields.entries.filter _
      rw [List.filter_filter]
      exact List.filter_congr fun _ _ => Bool.and_comm _ _
    have hless : first.isEmpty → both.isEmpty := by
      intro hnone
      have hnothing : first.entries = [] := List.isEmpty_iff.mp hnone
      rw [← hboth]
      show (first.entries.filter _).isEmpty
      rw [hnothing]
      rfl
    -- An entry that the first cut empties is one that the two together empty.
    show (if first.isEmpty && !fields.isEmpty then none else some (ResolverEntry.type first)).bind _ =
      if both.isEmpty && !fields.isEmpty then none else some (ResolverEntry.type both)
    cases hfields : fields.isEmpty with
    | true =>
      have hnothing : first.isEmpty := by
        show (fields.entries.filter _).isEmpty
        rw [List.isEmpty_iff.mp hfields]
        rfl
      simp [cutEntry, hboth, hnothing]
    | false =>
      cases hfirst : first.isEmpty with
      | true => simp [hless hfirst]
      | false => simp [cutEntry, hboth, hfirst]
  | rootField resolver =>
    by_cases hkeep : keep (none, key, resolver) <;> simp [cutEntry, hkeep]

/-- What a cut leaves of an entry has a leaf. -/
theorem leavesIn_ne_nil_of_cutEntry {left : ResolverEntry R} (h : leavesIn key entry ≠ [])
    (hleft : cutEntry keep key entry = some left) : leavesIn key left ≠ [] := by
  cases entry with
  | type fields =>
    rw [cutEntry] at hleft
    split at hleft
    · cases hleft
    · next hkept =>
      obtain rfl := Option.some.inj hleft
      have hfields : fields.entries ≠ [] := fun hnone => h (by rw [leavesIn, hnone]; rfl)
      have hsome : fields.isEmpty = false := List.isEmpty_eq_false_iff.mpr hfields
      intro hnone
      refine hkept ?_
      rw [hsome, Bool.not_false, Bool.and_true]
      exact List.isEmpty_iff.mpr (List.map_eq_nil_iff.mp hnone)
  | rootField resolver =>
    rw [cutEntry] at hleft
    split at hleft
    · obtain rfl := Option.some.inj hleft
      exact h
    · cases hleft

/-- An entry goes as a whole if all its leaves do. -/
theorem cutEntry_eq_none (h : leavesIn key entry ≠ [])
    (hgone : ∀ leaf ∈ leavesIn key entry, keep leaf = false) : cutEntry keep key entry = none := by
  rw [Option.eq_none_iff_forall_ne_some]
  intro left hleft
  refine leavesIn_ne_nil_of_cutEntry h hleft ?_
  have hleaves : leavesIn key left = (leavesIn key entry).filter keep := by
    rw [← leavesIn_cutEntry, hleft]
    rfl
  rw [hleaves, List.filter_eq_nil_iff]
  intro leaf hleaf
  rw [hgone leaf hleaf]
  exact Bool.false_ne_true

/-- A cut filters the leaves. -/
theorem leaves_cut (keep : Option String × String × R → Bool) (map : ResolverMap R) :
    (map.cut keep).leaves = map.leaves.filter keep :=
  leaves_filterMap fun _ _ _ => leavesIn_cutEntry

theorem mem_leaves_of_mem_entries {leaf : Option String × String × R}
    (hentry : (key, entry) ∈ map.entries.entries) (hleaf : leaf ∈ leavesIn key entry) :
    leaf ∈ map.leaves :=
  List.mem_flatMap.mpr ⟨(key, entry), hentry, hleaf⟩

theorem cut_congr (h : ∀ leaf ∈ map.leaves, keep leaf = more leaf) : map.cut keep = map.cut more := by
  refine congrArg ResolverMap.mk (OrderedMap.filterMap_congr fun key entry hentry => ?_)
  exact cutEntry_congr fun leaf hleaf => h leaf (mem_leaves_of_mem_entries hentry hleaf)

theorem cut_of_forall (h : ∀ leaf ∈ map.leaves, keep leaf) : map.cut keep = map := by
  have hentries : map.entries.filterMap (cutEntry keep) = map.entries := by
    rw [OrderedMap.filterMap_congr fun key entry hentry => cutEntry_of_forall fun leaf hleaf =>
      h leaf (mem_leaves_of_mem_entries hentry hleaf)]
    exact map.entries.filterMap_some
  exact congrArg ResolverMap.mk hentries

/-- A cut changes the map exactly if it takes a leaf away. -/
theorem cut_eq_self_iff : map.cut keep = map ↔ ∀ leaf ∈ map.leaves, keep leaf := by
  refine ⟨fun hsame => ?_, cut_of_forall⟩
  have hleaves := leaves_cut keep map
  rw [hsame] at hleaves
  exact List.filter_eq_self.mp hleaves.symm

/-- Two cuts in a row are one. -/
theorem cut_cut (keep more : Option String × String × R → Bool) (map : ResolverMap R) :
    (map.cut keep).cut more = map.cut fun leaf => keep leaf && more leaf := by
  refine congrArg ResolverMap.mk ?_
  show (map.entries.filterMap _).filterMap _ = _
  rw [OrderedMap.filterMap_filterMap]
  exact OrderedMap.filterMap_congr fun _ _ _ => cutEntry_cutEntry

end Cut

/-! ## Removing a field -/

/-- The leaf that the removal of a field takes away: the one in the entry of its type, or else, for a
root operation type, the one in the field's root field entry, if no root type declares the field. -/
def leafAt? (document : Document) (map : ResolverMap R) (type field : String) :
    Option (Option String × String) :=
  if map.hasField type field then some (some type, field)
  else if (RootTypes.ofDocument document).contains type ∧ map.hasRootField field ∧
      ¬ document.declaresOnRoot field then some (none, field)
  else none

theorem exists_of_hasField {map : ResolverMap R} {type field : String} (h : map.hasField type field) :
    ∃ fields resolver, map.entries.get? type = some (.type fields) ∧
      fields.get? field = some resolver := by
  obtain ⟨resolver, hresolver⟩ := Option.isSome_iff_exists.mp h
  obtain ⟨fields, hfields, hfield⟩ := Option.bind_eq_some_iff.mp hresolver
  obtain ⟨entry, hentry, hform⟩ := Option.bind_eq_some_iff.mp hfields
  cases entry with
  | type others =>
    obtain rfl := Option.some.inj hform
    exact ⟨_, resolver, hentry, hfield⟩
  | rootField other => cases hform

theorem exists_of_hasRootField {map : ResolverMap R} {field : String} (h : map.hasRootField field) :
    ∃ resolver, map.entries.get? field = some (.rootField resolver) := by
  obtain ⟨resolver, hresolver⟩ := Option.isSome_iff_exists.mp h
  obtain ⟨entry, hentry, hform⟩ := Option.bind_eq_some_iff.mp hresolver
  cases entry with
  | type fields => cases hform
  | rootField other => exact ⟨other, hentry⟩

/-- A condition that speaks about one place only does not concern the other entries. -/
theorem cutEntry_of_entryName_ne (place : Option String × String) {key : String}
    (h : place.1.getD place.2 ≠ key) (entry : ResolverEntry R) :
    cutEntry (fun leaf => place ≠ address leaf) key entry = some entry := by
  apply cutEntry_of_forall
  intro leaf hleaf
  have hother : place ≠ address leaf := by
    rintro rfl
    exact h (entryName_of_mem_leavesIn hleaf)
  exact decide_eq_true hother

/-- Removing the resolver of a field in the entry of its type. -/
theorem removePath_of_hasField (document : Document) {map : ResolverMap R} {type field : String}
    (h : map.hasField type field) :
    (removePath document map type field).value =
      (map.cut fun leaf => (some type, field) ≠ address leaf, true) := by
  obtain ⟨fields, resolver, hfields, hresolver⟩ := exists_of_hasField h
  have htype : map.type? type = some fields := by rw [type?, hfields]; rfl
  let left? : Option (ResolverEntry R) :=
    if (fields.erase field).isEmpty then none else some (.type (fields.erase field))
  -- Whether the entry goes or only loses the field, it is the one entry that changes.
  have hvalue : (removePath document map type field).value =
      (⟨map.entries.filterMap fun key entry => if key = type then left? else some entry⟩, true) := by
    unfold removePath
    rw [if_pos h, htype]
    simp only [Traced.value_bind, Traced.value_pure, Option.getD_some, left?]
    split
    · rw [OrderedMap.erase_eq_filterMap]
    · rw [OrderedMap.insert_eq_filterMap (List.mem_map_of_mem (OrderedMap.mem_of_get? hfields))]
  rw [hvalue]
  refine Prod.ext (congrArg ResolverMap.mk (OrderedMap.filterMap_congr ?_)) rfl
  intro key entry hentry
  by_cases hkey : key = type
  · subst hkey
    obtain rfl : entry = .type fields :=
      Option.some.inj ((OrderedMap.get?_of_mem hentry).symm.trans hfields)
    have herase : (fields.filter fun other found =>
        decide ((some key, field) ≠ address (some key, other, found))) = fields.erase field := by
      apply OrderedMap.ext
      apply List.filter_congr
      intro item _
      simp [address, eq_comm]
    have hsome : fields.isEmpty = false :=
      List.isEmpty_eq_false_iff.mpr (List.ne_nil_of_mem (OrderedMap.mem_of_get? hresolver))
    rw [if_pos rfl, cutEntry, herase]
    simp [hsome, left?]
  · rw [if_neg hkey, cutEntry_of_entryName_ne (some type, field) fun e => hkey e.symm]

/-- Removing a root field entry. -/
theorem erase_of_hasRootField {map : ResolverMap R} {field : String} (h : map.hasRootField field) :
    (⟨map.entries.erase field⟩ : ResolverMap R) =
      map.cut fun leaf => (none, field) ≠ address leaf := by
  obtain ⟨resolver, hresolver⟩ := exists_of_hasRootField h
  rw [OrderedMap.erase_eq_filterMap]
  refine congrArg ResolverMap.mk (OrderedMap.filterMap_congr fun key entry hentry => ?_)
  by_cases hkey : key = field
  · subst hkey
    obtain rfl : entry = .rootField resolver :=
      Option.some.inj ((OrderedMap.get?_of_mem hentry).symm.trans hresolver)
    simp [cutEntry, address]
  · rw [if_neg hkey, cutEntry_of_entryName_ne (none, field) fun e => hkey e.symm]

/-- Removing the resolver of a field takes one leaf away at most, tells whether it did, and leaves
everything else alone. -/
theorem value_removePath (document : Document) (map : ResolverMap R) (type field : String) :
    (removePath document map type field).value =
      (map.cut fun leaf => map.leafAt? document type field ≠ some (address leaf),
        (map.leafAt? document type field).isSome) := by
  have hone : ∀ place, map.leafAt? document type field = some place →
      (fun leaf : Option String × String × R => decide (place ≠ address leaf)) =
        fun leaf => decide (map.leafAt? document type field ≠ some (address leaf)) := by
    intro place hplace
    funext leaf
    simp [hplace]
  -- The cases are those of the removal: in the entry of the type, in the root field entry, or not at all.
  by_cases hnested : map.hasField type field
  · have hplace : map.leafAt? document type field = some (some type, field) := if_pos hnested
    rw [removePath_of_hasField document hnested, hone _ hplace, hplace]
    rfl
  by_cases hroot : (RootTypes.ofDocument document).contains type ∧ map.hasRootField field ∧
      ¬ document.declaresOnRoot field
  · have hplace : map.leafAt? document type field = some (none, field) := by
      rw [leafAt?, if_neg hnested, if_pos hroot]
    have hvalue : (removePath document map type field).value =
        (⟨map.entries.erase field⟩, true) := by
      simp [removePath, hnested, hroot]
    rw [hvalue, erase_of_hasRootField hroot.2.1, hone _ hplace, hplace]
    rfl
  · -- There is no such leaf, or a root type still declares the field.
    have hplace : map.leafAt? document type field = none := by
      rw [leafAt?, if_neg hnested, if_neg hroot]
    have hvalue : (removePath document map type field).value = (map, false) := by
      unfold removePath
      rw [if_neg hnested]
      split
      · rfl
      · next hhas =>
        simp only [Bool.or_eq_true, Bool.not_eq_true', not_or, Bool.not_eq_false] at hhas
        have hdeclared : document.declaresOnRoot field := by
          by_contra hnot
          exact hroot ⟨hhas.1, hhas.2, hnot⟩
        rw [if_pos hdeclared]
        rfl
    rw [hvalue, hplace, cut_of_forall fun _ _ => decide_eq_true (Option.some_ne_none _).symm]
    rfl

end ResolverMap

end SchemaAlgebra
