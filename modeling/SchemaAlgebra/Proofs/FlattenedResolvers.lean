import SchemaAlgebra.Proofs.ParedResolvers

/-!
# Flattening resolver maps

Flattening and nesting rebuild a map: the leaves of the map are changed one by one and inserted into an
empty map.  What a rebuilt map finds for a field is decided by the last leaf that was inserted for it, or
by a later leaf whose entry has the other form and takes the place of the whole entry.

A flattened map has one root field entry for all root operation types, so it holds one resolver for a
field of several of them.  This is the last one in the map that was flattened; the others are lost.
Fields that share their name with a type entry stay where they are, and so do all other types.

## Main statements

* `nested?_ofLeaves`, `root?_ofLeaves`: looking up in a map that is built from leaves.
* `value_flatten`: flattening rebuilds the map.
* `flatten_resolvesLast`: looking up in a flattened map, and which resolvers are lost.
-/

namespace SchemaAlgebra

variable {R : Type}

namespace ResolverMap

/-! ## Building maps from leaves -/

/-- Puts a leaf into a map. -/
def insertLeaf (map : ResolverMap R) : Option String × String × R → ResolverMap R
  | (some type, field, resolver) => map.insertField type field resolver
  | (none, field, resolver) => map.insertRootField field resolver

/-- The map that leaves build one after the other. -/
def ofLeaves (leaves : List (Option String × String × R)) : ResolverMap R :=
  leaves.foldl insertLeaf ∅

/-- What a leaf makes of a field's resolver in the entry of a type, if it changes it: the leaf of that
field puts its resolver there, and a root field entry under the type's name takes the entry's place. -/
def setsNested (type field : String) : Option String × String × R → Option (Option R)
  | (some key, name, resolver) => if key = type ∧ name = field then some (some resolver) else none
  | (none, key, _) => if key = type then some none else none

/-- What a leaf makes of the root field entry of a field, if it changes it. -/
def setsRoot (field : String) : Option String × String × R → Option (Option R)
  | (some key, _, _) => if key = field then some none else none
  | (none, key, resolver) => if key = field then some (some resolver) else none

section Inserting

variable (map : ResolverMap R) (leaf : Option String × String × R)

theorem nested?_insertLeaf (type field : String) :
    (map.insertLeaf leaf).nested? type field =
      (setsNested type field leaf).getD (map.nested? type field) := by
  obtain ⟨_ | key, name, resolver⟩ := leaf
  · simp only [insertLeaf, insertRootField, nested?, type?, OrderedMap.get?_insert, setsNested]
    by_cases htype : name = type
    · simp [htype, ResolverEntry.fields?]
    · simp [htype, Ne.symm htype]
  · simp only [insertLeaf, insertField, nested?, type?, OrderedMap.get?_insert, setsNested]
    by_cases htype : key = type
    · subst htype
      simp only [if_true, Option.bind_some, ResolverEntry.fields?, OrderedMap.get?_insert, true_and]
      by_cases hfield : name = field
      · simp [hfield]
      · -- The other fields of the entry stay, if there was an entry of this form.
        rw [if_neg (Ne.symm hfield), if_neg hfield, Option.getD_none]
        cases (map.entries.get? key).bind ResolverEntry.fields? <;> rfl
    · simp [htype, Ne.symm htype]

theorem root?_insertLeaf (field : String) :
    (map.insertLeaf leaf).root? field = (setsRoot field leaf).getD (map.root? field) := by
  obtain ⟨_ | key, name, resolver⟩ := leaf
  · simp only [insertLeaf, insertRootField, root?, OrderedMap.get?_insert, setsRoot]
    by_cases hname : name = field
    · simp [hname, ResolverEntry.root?]
    · simp [hname, Ne.symm hname]
  · simp only [insertLeaf, insertField, root?, OrderedMap.get?_insert, setsRoot]
    by_cases hkey : key = field
    · simp [hkey, ResolverEntry.root?]
    · simp [hkey, Ne.symm hkey]

end Inserting

section Built

variable {leaves : List (Option String × String × R)} {type field : String}

theorem ofLeaves_snoc (front : List (Option String × String × R))
    (leaf : Option String × String × R) :
    ofLeaves (front ++ [leaf]) = (ofLeaves front).insertLeaf leaf := List.foldl_concat ..

/-- The last leaf that changes a field's resolver in the entry of its type decides. -/
theorem nested?_ofLeaves (leaves : List (Option String × String × R)) (type field : String) :
    (ofLeaves leaves).nested? type field =
      (leaves.reverse.findSome? (setsNested type field)).getD none := by
  induction leaves using List.reverseRecOn with
  | nil => rfl
  | append_singleton front leaf ih =>
    rw [ofLeaves_snoc, nested?_insertLeaf, ih, List.reverse_concat, List.findSome?_cons]
    cases setsNested type field leaf <;> rfl

/-- The last leaf that changes the root field entry of a field decides. -/
theorem root?_ofLeaves (leaves : List (Option String × String × R)) (field : String) :
    (ofLeaves leaves).root? field = (leaves.reverse.findSome? (setsRoot field)).getD none := by
  induction leaves using List.reverseRecOn with
  | nil => rfl
  | append_singleton front leaf ih =>
    rw [ofLeaves_snoc, root?_insertLeaf, ih, List.reverse_concat, List.findSome?_cons]
    cases setsRoot field leaf <;> rfl

theorem eq_of_setsNested {leaf : Option String × String × R} {resolver : R}
    (h : setsNested type field leaf = some (some resolver)) :
    leaf = (some type, field, resolver) := by
  obtain ⟨_ | key, name, other⟩ := leaf
  · simp [setsNested] at h
  · simp only [setsNested, Option.ite_none_right_eq_some, Option.some.injEq] at h
    obtain ⟨⟨rfl, rfl⟩, rfl⟩ := h
    rfl

theorem eq_of_setsRoot {leaf : Option String × String × R} {resolver : R}
    (h : setsRoot field leaf = some (some resolver)) : leaf = (none, field, resolver) := by
  obtain ⟨_ | key, name, other⟩ := leaf
  · simp only [setsRoot, Option.ite_none_right_eq_some, Option.some.injEq] at h
    obtain ⟨rfl, rfl⟩ := h
    rfl
  · simp [setsRoot] at h

/-- A resolver that is found in a type entry was put there by a leaf. -/
theorem mem_of_nested?_ofLeaves {resolver : R}
    (h : (ofLeaves leaves).nested? type field = some resolver) :
    (some type, field, resolver) ∈ leaves := by
  rw [nested?_ofLeaves] at h
  obtain ⟨leaf, hmem, hleaf⟩ := List.exists_of_findSome?_eq_some
    (Option.getD_eq_iff.mp h |>.resolve_right fun h => nomatch h.2)
  rw [← eq_of_setsNested hleaf]
  exact List.mem_reverse.mp hmem

theorem mem_of_root?_ofLeaves {resolver : R} (h : (ofLeaves leaves).root? field = some resolver) :
    (none, field, resolver) ∈ leaves := by
  rw [root?_ofLeaves] at h
  obtain ⟨leaf, hmem, hleaf⟩ := List.exists_of_findSome?_eq_some
    (Option.getD_eq_iff.mp h |>.resolve_right fun h => nomatch h.2)
  rw [← eq_of_setsRoot hleaf]
  exact List.mem_reverse.mp hmem

/-- A leaf is found in its type entry if no root field entry takes the entry's place and no other
resolver is put there for the field. -/
theorem nested?_ofLeaves_of_mem {resolver : R} (h : (some type, field, resolver) ∈ leaves)
    (hentry : ∀ other, (none, type, other) ∉ leaves)
    (hone : ∀ other, (some type, field, other) ∈ leaves → other = resolver) :
    (ofLeaves leaves).nested? type field = some resolver := by
  rw [nested?_ofLeaves]
  have hsets : ∀ leaf ∈ leaves.reverse, ∀ value, setsNested type field leaf = some value →
      value = some resolver := by
    rintro ⟨_ | key, name, other⟩ hmem value hvalue
    · -- This leaf would be a root field entry under the name of the type.
      simp only [setsNested, Option.ite_none_right_eq_some] at hvalue
      obtain ⟨rfl, -⟩ := hvalue
      exact absurd (List.mem_reverse.mp hmem) (hentry other)
    · simp only [setsNested, Option.ite_none_right_eq_some, Option.some.injEq] at hvalue
      obtain ⟨⟨rfl, rfl⟩, rfl⟩ := hvalue
      rw [hone other (List.mem_reverse.mp hmem)]
  cases hfound : leaves.reverse.findSome? (setsNested type field) with
  | none =>
    have hnone := List.findSome?_eq_none_iff.mp hfound _ (List.mem_reverse.mpr h)
    simp [setsNested] at hnone
  | some value =>
    obtain ⟨leaf, hmem, hleaf⟩ := List.exists_of_findSome?_eq_some hfound
    rw [hsets leaf hmem value hleaf]
    rfl

end Built

/-! ## The leaves of a map -/

section Leaves

variable {map : ResolverMap R}

/-- The leaves of a map are the resolvers in its entries. -/
theorem mem_leaves_iff {leaf : Option String × String × R} :
    leaf ∈ map.leaves ↔ ∃ key entry, map.entries.get? key = some entry ∧ leaf ∈ leavesIn key entry := by
  constructor
  · intro h
    obtain ⟨⟨key, entry⟩, hitem, hleaf⟩ := List.mem_flatMap.mp h
    exact ⟨key, entry, OrderedMap.get?_of_mem hitem, hleaf⟩
  · rintro ⟨key, entry, hentry, hleaf⟩
    exact List.mem_flatMap.mpr ⟨(key, entry), OrderedMap.mem_of_get? hentry, hleaf⟩

/-- A leaf with a type is a resolver in the entry of this type. -/
theorem mem_leaves_some_iff {type field : String} {resolver : R} :
    (some type, field, resolver) ∈ map.leaves ↔ map.nested? type field = some resolver := by
  rw [mem_leaves_iff, nested?, type?]
  constructor
  · rintro ⟨key, entry, hentry, hleaf⟩
    cases entry with
    | rootField other => simp [leavesIn] at hleaf
    | type fields =>
      obtain ⟨item, hitem, heq⟩ := List.mem_map.mp hleaf
      cases heq
      simp [hentry, ResolverEntry.fields?, OrderedMap.get?_of_mem hitem]
  · intro h
    obtain ⟨fields, hfields, hresolver⟩ := Option.bind_eq_some_iff.mp h
    obtain ⟨entry, hentry, hform⟩ := Option.bind_eq_some_iff.mp hfields
    cases entry with
    | rootField other => cases hform
    | type others =>
      cases hform
      exact ⟨type, _, hentry, List.mem_map.mpr ⟨_, OrderedMap.mem_of_get? hresolver, rfl⟩⟩

/-- A leaf without a type is the resolver of a root field entry. -/
theorem mem_leaves_none_iff {field : String} {resolver : R} :
    (none, field, resolver) ∈ map.leaves ↔ map.root? field = some resolver := by
  rw [mem_leaves_iff, root?]
  constructor
  · rintro ⟨key, entry, hentry, hleaf⟩
    cases entry with
    | type fields => simp [leavesIn] at hleaf
    | rootField other =>
      cases List.mem_singleton.mp hleaf
      simp [hentry, ResolverEntry.root?]
  · intro h
    obtain ⟨entry, hentry, hform⟩ := Option.bind_eq_some_iff.mp h
    cases entry with
    | type fields => cases hform
    | rootField other =>
      cases hform
      exact ⟨field, _, hentry, List.mem_singleton_self _⟩

/-- A type entry and a root field entry do not stand under one name. -/
theorem root?_eq_none_of_type? {key : String} (h : (map.type? key).isSome) : map.root? key = none := by
  unfold type? at h
  unfold root?
  cases hentry : map.entries.get? key with
  | none => rfl
  | some entry =>
    cases entry with
    | type fields => rfl
    | rootField other => simp [hentry, ResolverEntry.fields?] at h

theorem isSome_type?_of_nested? {type field : String} {resolver : R}
    (h : map.nested? type field = some resolver) : (map.type? type).isSome := by
  obtain ⟨fields, hfields, -⟩ := Option.bind_eq_some_iff.mp h
  rw [hfields]
  rfl

end Leaves

/-! ## Flattening -/

section Flattening

variable (map : ResolverMap R) (roots : RootTypes)

/-- Whether a leaf cannot be flattened: it belongs to a root operation type, and its field has the name
of a type entry. -/
def isAside : Option String × String × R → Bool
  | (some type, field, _) => roots.contains type && (map.type? field).isSome
  | (none, _, _) => false

/-- A leaf of a root operation type becomes a root field entry. -/
def promote : Option String × String × R → Option String × String × R
  | (type?, field, resolver) => (type?.filter (!roots.contains ·), field, resolver)

/-- Moves one leaf into a map that is being flattened, or puts it aside. -/
def flattenLeaf (state : ResolverMap R × List (String × String × R)) :
    Option String × String × R → ResolverMap R × List (String × String × R)
  | (some type, field, resolver) =>
    if map.isAside roots (some type, field, resolver) then
      (state.1, state.2 ++ [(type, field, resolver)])
    else (state.1.insertLeaf (promote roots (some type, field, resolver)), state.2)
  | (none, field, resolver) => (state.1.insertRootField field resolver, state.2)

/-- An entry is flattened leaf by leaf. -/
theorem value_flattenEntry (state : ResolverMap R × List (String × String × R)) (key : String)
    (entry : ResolverEntry R) :
    (map.flattenEntry roots state key entry).value =
      (leavesIn key entry).foldl (map.flattenLeaf roots) state := by
  cases entry with
  | rootField resolver => rfl
  | type fields =>
    unfold flattenEntry
    by_cases hroot : roots.contains key
    · have hfield : ∀ (state : ResolverMap R × List (String × String × R)) (field : String)
          (resolver : R), (map.flattenField key state field resolver).value =
            map.flattenLeaf roots state (some key, field, resolver) := by
        intro state field resolver
        unfold flattenField flattenLeaf
        cases hentry : (map.type? field).isSome <;>
          simp [isAside, promote, insertLeaf, Option.filter, hroot, hentry]
      simp only [hroot, if_true, Traced.value_foldlM, leavesIn, List.foldl_map, hfield]
    · have hfield : ∀ (items : List (String × R)) (state : ResolverMap R × List (String × String × R)),
          (items.map fun item => (some key, item.1, item.2)).foldl (map.flattenLeaf roots) state =
            (items.foldl (fun acc item => acc.insertField key item.1 item.2) state.1, state.2) := by
        intro items
        induction items with
        | nil => exact fun _ => rfl
        | cons item rest ih =>
          intro state
          rw [List.map_cons, List.foldl_cons, ih]
          simp [flattenLeaf, isAside, promote, insertLeaf, Option.filter, hroot]
      simp [hroot, leavesIn, hfield]

/-- The map that is being flattened and the leaves put aside so far, after some leaves. -/
theorem foldl_flattenLeaf (leaves : List (Option String × String × R))
    (state : ResolverMap R × List (String × String × R)) :
    let final := leaves.foldl (map.flattenLeaf roots) state
    final.1 = ((leaves.filter (!map.isAside roots ·)).map (promote roots)).foldl insertLeaf state.1 ∧
      final.2.map (fun item => (some item.1, item.2)) =
        state.2.map (fun item => (some item.1, item.2)) ++ leaves.filter (map.isAside roots) := by
  induction leaves generalizing state with
  | nil => exact ⟨rfl, by simp⟩
  | cons leaf rest ih =>
    obtain ⟨hmap, haside⟩ := ih (map.flattenLeaf roots state leaf)
    intro final
    refine ⟨hmap.trans ?_, haside.trans ?_⟩
    · obtain ⟨_ | type, field, resolver⟩ := leaf
      · simp [flattenLeaf, isAside, promote, insertLeaf]
      · cases hleaf : map.isAside roots (some type, field, resolver) <;>
          simp [flattenLeaf, hleaf]
    · obtain ⟨_ | type, field, resolver⟩ := leaf
      · simp [flattenLeaf, isAside]
      · cases hleaf : map.isAside roots (some type, field, resolver) <;>
          simp [flattenLeaf, hleaf]

/-- The leaves of a flattened map in the order in which they are inserted. -/
def flattenedLeaves : List (Option String × String × R) :=
  (map.leaves.filter (!map.isAside roots ·)).map (promote roots) ++
    map.leaves.filter (map.isAside roots)

/-- Flattening rebuilds the map from its leaves.  The ones that cannot be flattened come last. -/
theorem value_flatten : (map.flatten roots).value = ofLeaves (map.flattenedLeaves roots) := by
  have hstate : (map.entries.entries.foldl
      (fun state item => (map.flattenEntry roots state item.1 item.2).value) (∅, [])) =
        map.leaves.foldl (map.flattenLeaf roots) (∅, []) := by
    show _ = (map.entries.entries.flatMap fun item => leavesIn item.1 item.2).foldl _ _
    rw [List.foldl_flatMap]
    simp only [value_flattenEntry]
  obtain ⟨hmap, haside⟩ := map.foldl_flattenLeaf roots map.leaves (∅, [])
  have hinsert : ∀ (items : List (String × String × R)) (acc : ResolverMap R),
      items.foldl (fun acc item => acc.insertField item.1 item.2.1 item.2.2) acc =
        (items.map fun item => (some item.1, item.2)).foldl insertLeaf acc := by
    intro items acc
    rw [List.foldl_map]
    rfl
  unfold flatten
  simp only [Traced.value_bind, Traced.value_pure, Traced.value_foldlM, hstate, hinsert, hmap, haside]
  simp [ofLeaves, flattenedLeaves, List.foldl_append]

variable {map roots}

/-- The leaves in type entries: all but the ones that were promoted. -/
theorem mem_flattenedLeaves_some_iff {type field : String} {resolver : R} :
    (some type, field, resolver) ∈ map.flattenedLeaves roots ↔
      map.nested? type field = some resolver ∧ (roots.contains type → (map.type? field).isSome) := by
  rw [← mem_leaves_some_iff, flattenedLeaves, List.mem_append]
  constructor
  · rintro (hmoved | hstays)
    · obtain ⟨⟨type?, name, other⟩, hleaf, heq⟩ := List.mem_map.mp hmoved
      simp only [promote, Prod.mk.injEq, Option.filter_eq_some_iff, Bool.not_eq_true'] at heq
      obtain ⟨⟨rfl, hroot⟩, rfl, rfl⟩ := heq
      exact ⟨(List.mem_filter.mp hleaf).1, fun h => absurd h (by simp [hroot])⟩
    · obtain ⟨hleaf, haside⟩ := List.mem_filter.mp hstays
      exact ⟨hleaf, fun _ => (Bool.and_eq_true_iff.mp haside).2⟩
  · rintro ⟨hleaf, hroot⟩
    by_cases htype : roots.contains type
    · exact .inr (List.mem_filter.mpr ⟨hleaf, by simp [isAside, htype, hroot htype]⟩)
    · refine .inl (List.mem_map.mpr ⟨(some type, field, resolver), ?_, ?_⟩)
      · exact List.mem_filter.mpr ⟨hleaf, by simp [isAside, htype]⟩
      · simp [promote, Option.filter, htype]

/-- The leaves without a type: the root field entries and the promoted fields. -/
theorem mem_flattenedLeaves_none_iff {field : String} {resolver : R} :
    (none, field, resolver) ∈ map.flattenedLeaves roots ↔
      map.root? field = some resolver ∨
        map.type? field = none ∧
          ∃ type, roots.contains type ∧ map.nested? type field = some resolver := by
  rw [flattenedLeaves, List.mem_append]
  constructor
  · rintro (hmoved | hstays)
    · obtain ⟨⟨_ | type, name, other⟩, hleaf, heq⟩ := List.mem_map.mp hmoved
      · cases heq
        exact .inl (mem_leaves_none_iff.mp (List.mem_filter.mp hleaf).1)
      · simp only [promote, Prod.mk.injEq, Option.filter_eq_none_iff, Bool.not_eq_true',
          Bool.not_eq_false] at heq
        obtain ⟨hroot, rfl, rfl⟩ := heq
        obtain ⟨hleaf, haside⟩ := List.mem_filter.mp hleaf
        have hroot : roots.contains type := hroot type rfl
        refine .inr ⟨?_, type, hroot, mem_leaves_some_iff.mp hleaf⟩
        simpa [isAside, hroot] using haside
    · exact absurd (List.mem_filter.mp hstays).2 (by simp [isAside])
  · rintro (hroot | ⟨hentry, type, hroot, hfound⟩)
    · refine .inl (List.mem_map.mpr ⟨(none, field, resolver), ?_, rfl⟩)
      exact List.mem_filter.mpr ⟨mem_leaves_none_iff.mpr hroot, rfl⟩
    · refine .inl (List.mem_map.mpr ⟨(some type, field, resolver), ?_, ?_⟩)
      · exact List.mem_filter.mpr ⟨mem_leaves_some_iff.mpr hfound, by simp [isAside, hentry]⟩
      · simp [promote, Option.filter, hroot]

/-- Nothing takes the place of a type entry while its map is flattened. -/
theorem root_notMem_flattenedLeaves {key : String} (h : (map.type? key).isSome) (resolver : R) :
    (none, key, resolver) ∉ map.flattenedLeaves roots := by
  rw [mem_flattenedLeaves_none_iff, root?_eq_none_of_type? h]
  rintro (hroot | ⟨hentry, -⟩)
  · cases hroot
  · rw [hentry] at h
    cases h

variable (map roots)

/-- The type entries of a flattened map: those of the map, without the fields that were promoted. -/
theorem nested?_flatten (type field : String) :
    (map.flatten roots).value.nested? type field =
      if roots.contains type ∧ map.type? field = none then none else map.nested? type field := by
  rw [value_flatten]
  split
  · next hmoved =>
    by_contra hne
    obtain ⟨resolver, hfound⟩ := Option.ne_none_iff_exists'.mp hne
    have hstays := (mem_flattenedLeaves_some_iff.mp (mem_of_nested?_ofLeaves hfound)).2 hmoved.1
    simp [hmoved.2] at hstays
  · next hstays =>
    cases hfound : map.nested? type field with
    | none =>
      by_contra hne
      obtain ⟨resolver, hother⟩ := Option.ne_none_iff_exists'.mp hne
      have hleaf := (mem_flattenedLeaves_some_iff.mp (mem_of_nested?_ofLeaves hother)).1
      rw [hfound] at hleaf
      cases hleaf
    | some resolver =>
      refine nested?_ofLeaves_of_mem (mem_flattenedLeaves_some_iff.mpr ⟨hfound, ?_⟩)
        (root_notMem_flattenedLeaves (isSome_type?_of_nested? hfound)) ?_
      · exact fun hroot => Option.isSome_iff_ne_none.mpr fun hentry => hstays ⟨hroot, hentry⟩
      · intro other hother
        have hleaf := (mem_flattenedLeaves_some_iff.mp hother).1
        rw [hfound] at hleaf
        exact (Option.some.inj hleaf).symm

/-- The resolver of a leaf that stands for a field of the root operation types. -/
def rootResolver? (field : String) : Option String × String × R → Option R
  | (type?, name, resolver) =>
    if type?.all roots.contains && name == field then some resolver else none

/-- The resolvers of a map for a field of the root operation types, in the order of the map. -/
def rootResolvers (field : String) : List R := map.leaves.filterMap (rootResolver? roots field)

variable {map roots} in
theorem mem_rootResolvers_iff {field : String} {resolver : R} :
    resolver ∈ map.rootResolvers roots field ↔
      map.root? field = some resolver ∨
        ∃ type, roots.contains type ∧ map.nested? type field = some resolver := by
  rw [rootResolvers, List.mem_filterMap]
  constructor
  · rintro ⟨⟨_ | type, name, other⟩, hleaf, hfield⟩
    · simp only [rootResolver?, Option.all_none, Bool.true_and, beq_iff_eq,
        Option.ite_none_right_eq_some, Option.some.injEq] at hfield
      obtain ⟨rfl, rfl⟩ := hfield
      exact .inl (mem_leaves_none_iff.mp hleaf)
    · simp only [rootResolver?, Option.all_some, Bool.and_eq_true, beq_iff_eq,
        Option.ite_none_right_eq_some, Option.some.injEq] at hfield
      obtain ⟨⟨hroot, rfl⟩, rfl⟩ := hfield
      exact .inr ⟨type, hroot, mem_leaves_some_iff.mp hleaf⟩
  · rintro (hroot | ⟨type, hroot, hfound⟩)
    · exact ⟨_, mem_leaves_none_iff.mpr hroot, by simp [rootResolver?]⟩
    · exact ⟨_, mem_leaves_some_iff.mpr hfound, by simp [rootResolver?, hroot]⟩

/-- The root field entry of a flattened map has the last of the resolvers that stood for the field. -/
theorem root?_flatten (field : String) :
    (map.flatten roots).value.root? field =
      if map.type? field = none then (map.rootResolvers roots field).getLast? else none := by
  rw [value_flatten]
  split
  · next hentry =>
    -- No leaf has the field's name as its type, so only leaves that stand for the field count.
    have htype : ∀ {type name resolver}, (some type, name, resolver) ∈ map.leaves → type ≠ field := by
      rintro type name resolver hleaf rfl
      have hsome := isSome_type?_of_nested? (mem_leaves_some_iff.mp hleaf)
      rw [hentry] at hsome
      cases hsome
    have hmoved : ∀ leaf ∈ map.leaves,
        (if !map.isAside roots leaf then setsRoot field (promote roots leaf) else none) =
          (rootResolver? roots field leaf).map some := by
      rintro ⟨_ | type, name, resolver⟩ hleaf
      · by_cases hname : name = field <;> simp [isAside, promote, setsRoot, rootResolver?, hname]
      · by_cases hroot : roots.contains type
        · by_cases hname : name = field
          · subst hname
            simp [isAside, promote, setsRoot, rootResolver?, Option.filter, hroot, hentry]
          · simp [promote, setsRoot, rootResolver?, Option.filter, hroot, hname]
        · simp [promote, setsRoot, rootResolver?, Option.filter, hroot, htype hleaf]
    have hstays : (map.leaves.filter (map.isAside roots)).filterMap (setsRoot field) = [] := by
      rw [List.filterMap_eq_nil_iff]
      rintro ⟨_ | type, name, resolver⟩ hleaf
      · simp [isAside] at hleaf
      · simp [setsRoot, htype (List.mem_filter.mp hleaf).1]
    have hall : (map.flattenedLeaves roots).filterMap (setsRoot field) =
        (map.rootResolvers roots field).map some := by
      rw [flattenedLeaves, List.filterMap_append, hstays, List.append_nil, List.filterMap_map,
        List.filterMap_filter, rootResolvers, List.map_filterMap]
      exact List.filterMap_congr hmoved
    rw [root?_ofLeaves, ← List.getLast?_filterMap, hall, List.getLast?_map]
    cases (map.rootResolvers roots field).getLast? <;> rfl
  · next hentry =>
    by_contra hne
    obtain ⟨resolver, hfound⟩ := Option.ne_none_iff_exists'.mp hne
    exact root_notMem_flattenedLeaves (Option.isSome_iff_ne_none.mpr hentry) resolver
      (mem_of_root?_ofLeaves hfound)

/-- Looking a field up in a flattened map. -/
theorem resolver?_flatten (type field : String) :
    (map.flatten roots).value.resolver? type field roots =
      if roots.contains type ∧ map.type? field = none then
        (map.rootResolvers roots field).getLast?
      else map.nested? type field := by
  rw [resolver?, nested?_flatten, root?_flatten]
  by_cases hroot : roots.contains type
  · by_cases hentry : map.type? field = none <;> simp [hroot, hentry]
  · simp [hroot]

/-- A field that is not promoted has no root field entry. -/
theorem resolver?_of_not_promoted {type field : String}
    (h : ¬ (roots.contains type ∧ map.type? field = none)) :
    map.resolver? type field roots = map.nested? type field := by
  rw [resolver?]
  split
  · next hroot =>
    have hentry : (map.type? field).isSome :=
      Option.isSome_iff_ne_none.mpr fun hentry => h ⟨hroot, hentry⟩
    rw [root?_eq_none_of_type? hentry, Option.or_none]
  · rw [Option.or_none]

variable {map roots} in
/-- What a field of a root operation type resolves to is one of the resolvers that stand for the
field. -/
theorem mem_rootResolvers_of_resolver? {type field : String} {resolver : R}
    (hroot : roots.contains type) (h : map.resolver? type field roots = some resolver) :
    resolver ∈ map.rootResolvers roots field := by
  rw [resolver?, if_pos hroot, Option.or_eq_some_iff] at h
  rw [mem_rootResolvers_iff]
  exact h.symm.imp And.right fun hfound => ⟨type, hroot, hfound⟩

end Flattening

/-- What the fields of a map resolve to once the map is flattened.  All root operation types share the
last resolver that stands for a field of theirs, if no type entry has the field's name; every other
field keeps its own. -/
structure ResolvesLast (map flat : ResolverMap R) (roots : RootTypes) : Prop where
  shared : ∀ type field, roots.contains type → map.type? field = none →
    flat.resolver? type field roots = (map.rootResolvers roots field).getLast?
  others : ∀ type field, ¬ (roots.contains type ∧ map.type? field = none) →
    flat.resolver? type field roots = map.resolver? type field roots
  resolved : ∀ type field, (map.resolver? type field roots).isSome →
    (flat.resolver? type field roots).isSome
  keeps_iff : ∀ type field resolver, map.resolver? type field roots = some resolver →
    (flat.resolver? type field roots = some resolver ↔
      (roots.contains type → map.type? field = none →
        (map.rootResolvers roots field).getLast? = some resolver))
  /-- Nothing is lost where the resolvers for a field are one. -/
  keeps : ∀ type field resolver, map.resolver? type field roots = some resolver →
    (∀ other ∈ map.rootResolvers roots field, other = resolver) →
      flat.resolver? type field roots = some resolver

/-- Flattening any resolver map. -/
theorem flatten_resolvesLast (map : ResolverMap R) (roots : RootTypes) :
    ResolvesLast map (map.flatten roots).value roots := by
  have hlast : ∀ {type field resolver}, roots.contains type →
      map.resolver? type field roots = some resolver →
        ∃ last ∈ map.rootResolvers roots field,
          (map.rootResolvers roots field).getLast? = some last := by
    intro type field resolver hroot hfound
    have hne := List.ne_nil_of_mem (mem_rootResolvers_of_resolver? hroot hfound)
    exact ⟨_, List.getLast_mem hne, List.getLast?_eq_some_getLast hne⟩
  refine ⟨?_, ?_, ?_, ?_, ?_⟩
  · intro type field hroot hentry
    rw [resolver?_flatten, if_pos ⟨hroot, hentry⟩]
  · intro type field hstays
    rw [resolver?_flatten, if_neg hstays, resolver?_of_not_promoted map roots hstays]
  · intro type field hsome
    obtain ⟨resolver, hfound⟩ := Option.isSome_iff_exists.mp hsome
    rw [resolver?_flatten]
    split
    · next hmoved =>
      obtain ⟨last, -, hlast⟩ := hlast hmoved.1 hfound
      rw [hlast]
      rfl
    · next hstays => rwa [← resolver?_of_not_promoted map roots hstays]
  · intro type field resolver hfound
    rw [resolver?_flatten]
    split
    · next hmoved => exact ⟨fun h _ _ => h, fun h => h hmoved.1 hmoved.2⟩
    · next hstays =>
      rw [← resolver?_of_not_promoted map roots hstays]
      exact iff_of_true hfound fun hroot hentry => absurd ⟨hroot, hentry⟩ hstays
  · intro type field resolver hfound hone
    rw [resolver?_flatten]
    split
    · next hmoved =>
      obtain ⟨last, hmem, hlast⟩ := hlast hmoved.1 hfound
      rw [hlast, hone last hmem]
    · next hstays => rwa [← resolver?_of_not_promoted map roots hstays]

/-- A field of two root operation types has one root field entry, and so the query loses its
resolver. -/
theorem flatten_sharedField_losesResolver :
    let map : ResolverMap Nat :=
      ⟨.ofList [("Query", .type (.ofList [("ping", 1)])), ("Mutation", .type (.ofList [("ping", 2)]))]⟩
    let roots : RootTypes := ⟨some "Query", some "Mutation", none⟩
    map.resolver? "Query" "ping" roots = some 1 ∧
      (map.flatten roots).value.resolver? "Query" "ping" roots = some 2 := by
  decide +kernel

end ResolverMap

end SchemaAlgebra
