import SchemaAlgebra.Proofs.FlattenedResolvers
import SchemaAlgebra.Proofs.NestedResolvers

/-!
# Nesting resolver maps

Nesting moves a root field entry into the entry of the first root operation type that declares the field.
Only this type has the resolver afterwards: it is lost for other root operation types that declare the
field.  It also takes the place of a resolver that the owner's own entry has for the field, if that entry
comes first in the map.  An entry whose field no root operation type declares stays where it is.  If it
has the name of a root operation type, it takes the place of what was lifted into that type's entry
before.

So nesting keeps every resolver of a map whose root fields have one owner each and only one resolver.  The
flattened form of a nested map is of this sort, and nesting undoes flattening there.

## Main statements

* `nested?_nest`: looking up in a nested map.
* `nest_keepsOwners`: which resolvers of declared fields are lost.
* `export_flattened_export_nested`: nesting undoes flattening.
-/

namespace SchemaAlgebra

variable {R : Type}

namespace OrderedMap

variable {κ α β : Type} [DecidableEq κ]

/-- Whether a key comes before another one.  A key that is not there comes last. -/
def Precedes (m : OrderedMap κ α) (first second : κ) : Prop :=
  m.keys.idxOf first < m.keys.idxOf second

instance (m : OrderedMap κ α) (first second : κ) : Decidable (m.Precedes first second) :=
  inferInstanceAs (Decidable (_ < _))

/-- Searching a map from its end where only the entries under two keys matter. -/
theorem findSome?_reverse_entries (m : OrderedMap κ α) (search : κ → α → Option β) (first second : κ)
    (hother : ∀ key value, key ≠ first → key ≠ second → search key value = none) :
    m.entries.reverse.findSome? (fun item => search item.1 item.2) =
      if m.Precedes first second then
        ((m.get? second).bind (search second)).or ((m.get? first).bind (search first))
      else ((m.get? first).bind (search first)).or ((m.get? second).bind (search second)) := by
  obtain ⟨entries, nodup⟩ := m
  induction entries with
  | nil => rfl
  | cons entry rest ih =>
    obtain ⟨key, value⟩ := entry
    obtain ⟨hfresh, hrest⟩ := List.nodup_cons.mp nodup
    -- Under the key of the first entry there is nothing behind it.
    have hnone : (⟨rest, hrest⟩ : OrderedMap κ α).get? key = none := by
      rw [get?, find?_eq_none_of_fresh hfresh]
      rfl
    rw [List.reverse_cons, List.findSome?_append, ih hrest]
    simp only [Precedes, keys, get?, List.map_cons, List.idxOf_cons, List.find?_cons, cond_eq_ite,
      beq_iff_eq] at hnone ⊢
    by_cases hfirst : key = first
    · subst hfirst
      by_cases hsecond : key = second
      · subst hsecond
        simp [hnone]
      · simp [hsecond, hnone]
    · by_cases hsecond : key = second
      · subst hsecond
        simp [hfirst, hnone]
      · have hnothing : search key value = none := hother key value hfirst hsecond
        by_cases hless : (rest.map Prod.fst).idxOf first < (rest.map Prod.fst).idxOf second <;>
          simp [hfirst, hsecond, hnothing, hless]

end OrderedMap

namespace ResolverMap

section Lifting

variable (document : Document) (map : ResolverMap R)

/-- A root field entry becomes a leaf of the type that the field belongs to, if there is one. -/
def lift : Option String × String × R → Option String × String × R
  | (some type, field, resolver) => (some type, field, resolver)
  | (none, field, resolver) => (owner? document field, field, resolver)

/-- An entry is nested leaf by leaf. -/
theorem value_nestEntry (acc : ResolverMap R) (key : String) (entry : ResolverEntry R) :
    (nestEntry document acc key entry).value =
      ((leavesIn key entry).map (lift document)).foldl insertLeaf acc := by
  cases entry with
  | type fields =>
    simp only [nestEntry, Traced.value_pure, leavesIn, List.map_map, List.foldl_map]
    rfl
  | rootField resolver =>
    simp only [nestEntry, leavesIn, List.map_cons, List.map_nil, List.foldl_cons, List.foldl_nil, lift]
    cases owner? document key <;> rfl

/-- Nesting rebuilds the map from its leaves. -/
theorem value_nest : (map.nest document).value = ofLeaves (map.leaves.map (lift document)) := by
  have hleaves : map.leaves = map.entries.entries.flatMap fun item => leavesIn item.1 item.2 := rfl
  unfold nest
  simp only [Traced.value_foldlM, value_nestEntry]
  rw [ofLeaves, hleaves, List.map_flatMap, List.foldl_flatMap]

/-- What an entry makes of a field's resolver in the nested map, if it changes it. -/
def lifts (type field key : String) : ResolverEntry R → Option (Option R)
  | .type fields => if key = type then (fields.get? field).map some else none
  | .rootField resolver =>
    match owner? document key with
    | some owner => if owner = type ∧ key = field then some (some resolver) else none
    | none => if key = type then some none else none

/-- Of the leaves of an entry at most one changes a field's resolver. -/
theorem findSome?_leavesIn (type field key : String) (entry : ResolverEntry R) :
    ((leavesIn key entry).map (lift document)).reverse.findSome? (setsNested type field) =
      lifts document type field key entry := by
  cases entry with
  | rootField resolver =>
    simp only [leavesIn, List.map_cons, List.map_nil, List.reverse_singleton, List.findSome?_singleton,
      lift, lifts]
    cases owner? document key <;> rfl
  | type fields =>
    have hsearch := fields.findSome?_reverse_entries
      (fun name resolver => if key = type ∧ name = field then some (some resolver) else none)
      field field (fun name _ hname _ => if_neg fun h => hname h.2)
    rw [leavesIn, List.map_map, ← List.map_reverse, List.findSome?_map]
    refine hsearch.trans ?_
    by_cases hkey : key = type
    · subst hkey
      cases hfound : fields.get? field <;> simp [lifts, hfound]
    · simp [lifts, hkey]

/-- The resolver that nesting lifts into the entry of a type for a field. -/
def lifted? (type field : String) : Option R :=
  if owner? document field = some type then map.root? field else none

/-- Whether nesting leaves a root field entry where it is. -/
def StaysInPlace (field : String) : Prop :=
  map.hasRootField field ∧ owner? document field = none

instance (field : String) : Decidable (StaysInPlace document map field) :=
  inferInstanceAs (Decidable (_ ∧ _))

section OtherName

variable {type field : String} (hne : field ≠ type)
include hne

/-- What the entry under the field's name contributes. -/
theorem bind_lifts_field :
    (map.entries.get? field).bind (lifts document type field field) =
      (lifted? document map type field).map some := by
  rw [lifted?, root?]
  cases map.entries.get? field with
  | none => simp
  | some entry =>
    cases entry with
    | type fields => simp [lifts, hne, ResolverEntry.root?]
    | rootField resolver =>
      cases howner : owner? document field with
      | none => simp [lifts, howner, hne]
      | some owner => by_cases hname : owner = type <;> simp [lifts, howner, hname, ResolverEntry.root?]

/-- What the entry under the type's name contributes. -/
theorem bind_lifts_type :
    (map.entries.get? type).bind (lifts document type field type) =
      if StaysInPlace document map type then some none else (map.nested? type field).map some := by
  cases hentry : map.entries.get? type with
  | none => simp [StaysInPlace, hasRootField, root?, nested?, type?, hentry]
  | some entry =>
    cases entry with
    | type fields =>
      simp [StaysInPlace, hasRootField, root?, nested?, type?, hentry, lifts, ResolverEntry.root?,
        ResolverEntry.fields?]
    | rootField resolver =>
      cases howner : owner? document type <;>
        simp [StaysInPlace, hasRootField, root?, nested?, type?, hentry, lifts, howner, Ne.symm hne,
          ResolverEntry.root?, ResolverEntry.fields?]

end OtherName

/-- A root field entry that stays in place leaves no room for a type entry. -/
theorem nested?_of_staysInPlace {type : String} (h : StaysInPlace document map type) (field : String) :
    map.nested? type field = none := by
  by_contra hne
  obtain ⟨resolver, hfound⟩ := Option.ne_none_iff_exists'.mp hne
  have hnone := root?_eq_none_of_type? (isSome_type?_of_nested? hfound)
  simp [StaysInPlace, hasRootField, hnone] at h

/-- Looking a field up in the entry of its type after nesting.  The entry under the field's name and the
one under the type's name can have a resolver for it; the later one of the two counts.  A root field
entry that stays under the type's name takes the place of what was lifted before. -/
theorem nested?_nest (type field : String) :
    (map.nest document).value.nested? type field =
      if map.entries.Precedes field type then
        if StaysInPlace document map type then none
        else (map.nested? type field).or (lifted? document map type field)
      else (lifted? document map type field).or (map.nested? type field) := by
  have hother : ∀ (key : String) (entry : ResolverEntry R), key ≠ field → key ≠ type →
      lifts document type field key entry = none := by
    intro key entry hfield htype
    cases entry with
    | type fields => exact if_neg htype
    | rootField resolver => simp only [lifts]; cases owner? document key <;> simp [hfield, htype]
  have hsearch : (map.leaves.map (lift document)).reverse.findSome? (setsNested type field) =
      map.entries.entries.reverse.findSome? fun item => lifts document type field item.1 item.2 := by
    show ((map.entries.entries.flatMap fun item => leavesIn item.1 item.2).map _).reverse.findSome? _ = _
    rw [List.map_flatMap, List.reverse_flatMap, ← List.head?_filterMap, List.filterMap_flatMap,
      List.head?_flatMap]
    simp only [Function.comp_apply, List.head?_filterMap, findSome?_leavesIn]
  rw [value_nest, nested?_ofLeaves, hsearch, map.entries.findSome?_reverse_entries _ field type hother]
  by_cases hne : field = type
  · -- One entry has both names.
    subst hne
    rw [if_neg (show ¬ map.entries.Precedes field field from Nat.lt_irrefl _),
      if_neg (show ¬ map.entries.Precedes field field from Nat.lt_irrefl _), lifted?, root?, nested?, type?]
    cases map.entries.get? field with
    | none => simp
    | some entry =>
      cases entry with
      | type fields => cases hfound : fields.get? field <;>
          simp [lifts, ResolverEntry.root?, ResolverEntry.fields?, hfound]
      | rootField resolver =>
        cases howner : owner? document field with
        | none => simp [lifts, howner, ResolverEntry.fields?]
        | some owner => by_cases hname : owner = field <;>
            simp [lifts, howner, hname, ResolverEntry.root?, ResolverEntry.fields?]
  · rw [bind_lifts_field document map hne, bind_lifts_type document map hne]
    by_cases hstays : StaysInPlace document map type
    · rw [nested?_of_staysInPlace document map hstays, if_pos hstays, if_pos hstays]
      cases lifted? document map type field <;> split <;> rfl
    · rw [if_neg hstays, if_neg hstays]
      cases map.nested? type field <;> cases lifted? document map type field <;> split <;> rfl

variable {document map} in
/-- The owner of a field is a root operation type that declares it. -/
theorem declares_of_owner? {type field : String} (h : owner? document field = some type) :
    (RootTypes.ofDocument document).contains type ∧ document.declares type field :=
  ⟨List.contains_iff_mem.mpr (List.mem_of_find?_eq_some h), by simpa using List.find?_some h⟩

variable {document map} in
/-- A field that a root operation type declares has an owner. -/
theorem isSome_owner? {type field : String} (hroot : (RootTypes.ofDocument document).contains type)
    (h : document.declares type field) : (owner? document field).isSome :=
  List.find?_isSome.mpr ⟨type, List.contains_iff_mem.mp hroot, h⟩

variable {document map} in
/-- Nesting leaves root field entries only where they were, for fields without an owner. -/
theorem root?_of_root?_nest {field : String} {resolver : R}
    (h : (map.nest document).value.root? field = some resolver) :
    map.root? field = some resolver ∧ owner? document field = none := by
  rw [value_nest] at h
  obtain ⟨⟨_ | type, name, other⟩, hleaf, heq⟩ := List.mem_map.mp (mem_of_root?_ofLeaves h)
  · simp only [lift, Prod.mk.injEq] at heq
    obtain ⟨howner, rfl, rfl⟩ := heq
    exact ⟨mem_leaves_none_iff.mp hleaf, howner⟩
  · cases heq

/-- A declared field has its resolver in the entry of its type, once the map is nested. -/
theorem resolver?_nest {type field : String} (h : document.declares type field) :
    (map.nest document).value.resolver? type field (RootTypes.ofDocument document) =
      (map.nest document).value.nested? type field := by
  rw [resolver?]
  split
  · next hroot =>
    have hnone : (map.nest document).value.root? field = none := by
      by_contra hne
      obtain ⟨resolver, hfound⟩ := Option.ne_none_iff_exists'.mp hne
      have howner := isSome_owner? hroot h
      rw [(root?_of_root?_nest hfound).2] at howner
      cases howner
    rw [hnone, Option.or_none]
  · rw [Option.or_none]

end Lifting

/-- What it takes for a field to keep its resolver when the map is nested.  A resolver in the type's
entry must not be followed by another one that is lifted to the same place; a root field entry must be
lifted to this type, and nothing must take the place of the type's entry afterwards. -/
structure KeepsResolver (document : Document) (map : ResolverMap R) (type field : String)
    (resolver : R) : Prop where
  own : map.hasField type field → owner? document field = some type →
    ¬ map.entries.Precedes field type → ∀ other, map.root? field = some other → other = resolver
  owned : ¬ map.hasField type field → owner? document field = some type
  visible : ¬ map.hasField type field → map.entries.Precedes field type →
    ¬ StaysInPlace document map type

/-- What the declared fields of a map resolve to once the map is nested: to the resolver in the entry of
their type or to the one that was lifted there, and to the later one of both. -/
structure KeepsOwners (document : Document) (map nest : ResolverMap R) : Prop where
  lookup : ∀ type field, document.declares type field →
    nest.resolver? type field (RootTypes.ofDocument document) =
      if map.entries.Precedes field type then
        if StaysInPlace document map type then none
        else (map.nested? type field).or (lifted? document map type field)
      else (lifted? document map type field).or (map.nested? type field)
  keeps_iff : ∀ type field resolver, document.declares type field →
    map.resolver? type field (RootTypes.ofDocument document) = some resolver →
      (nest.resolver? type field (RootTypes.ofDocument document) = some resolver ↔
        KeepsResolver document map type field resolver)

/-- Nesting any resolver map. -/
theorem nest_keepsOwners (document : Document) (map : ResolverMap R) :
    KeepsOwners document map (map.nest document).value := by
  refine ⟨?_, ?_⟩
  · intro type field hdeclares
    rw [resolver?_nest document map hdeclares, nested?_nest]
  · intro type field resolver hdeclares hfound
    rw [resolver?_nest document map hdeclares, nested?_nest]
    cases hown : map.nested? type field with
    | some own =>
      have hhas : map.hasField type field := by rw [hasField, hown]; rfl
      obtain rfl : own = resolver := by simpa [resolver?, hown] using hfound
      have hstays : ¬ StaysInPlace document map type := fun hstays => by
        simp [nested?_of_staysInPlace document map hstays] at hown
      rw [if_neg hstays]
      split
      · next hbefore =>
        rw [Option.some_or]
        exact iff_of_true rfl ⟨fun _ _ h => absurd hbefore h, fun h => absurd hhas h, fun h => absurd hhas h⟩
      · next hafter =>
        -- What is lifted comes later than the resolver in the type's entry.
        constructor
        · intro hkept
          refine ⟨fun _ howner _ other hother => ?_, fun h => absurd hhas h, fun h => absurd hhas h⟩
          simpa [lifted?, howner, hother] using hkept
        · intro hkeeps
          rw [lifted?]
          split
          · next howner =>
            cases hroot : map.root? field with
            | none => rfl
            | some other => rw [hkeeps.own hhas howner hafter other hroot, Option.some_or]
          · rfl
    | none =>
      have hhas : ¬ map.hasField type field := by simp [hasField, hown]
      have hroot : map.root? field = some resolver := by
        rw [resolver?, hown, Option.none_or] at hfound
        exact (Option.ite_none_right_eq_some.mp hfound).2
      rw [lifted?, hroot, Option.none_or, Option.or_none]
      constructor
      · intro hkept
        refine ⟨fun h => absurd h hhas, fun _ => ?_, fun _ hbefore hstays => ?_⟩
        · by_contra howner
          rw [if_neg howner] at hkept
          split at hkept
          · split at hkept <;> cases hkept
          · cases hkept
        · rw [if_pos hbefore, if_pos hstays] at hkept
          cases hkept
      · intro hkeeps
        rw [if_pos (hkeeps.owned hhas)]
        split
        · next hbefore => rw [if_neg (hkeeps.visible hhas hbefore)]
        · rfl

/-- A root field entry that two root operation types share is lifted into the entry of one of them, and
the other one loses it. -/
theorem nest_sharedEntry_losesResolver :
    let document : Document :=
      ⟨[.type ⟨none, "Query", [], .object [] [⟨none, "ping", [], .named "Int", []⟩]⟩,
        .type ⟨none, "Mutation", [], .object [] [⟨none, "ping", [], .named "Int", []⟩]⟩]⟩
    let roots := RootTypes.ofDocument document
    let map : ResolverMap Nat := ⟨.ofList [("ping", .rootField 1)]⟩
    document.declares "Mutation" "ping" ∧ map.resolver? "Mutation" "ping" roots = some 1 ∧
      (map.nest document).value.resolver? "Mutation" "ping" roots = none := by
  decide +kernel

/-! ## Nesting a flattened map -/

section RoundTrip

variable {document : Document} {map : ResolverMap R}

/-- The fields that a map has resolvers for under a root operation type are declared by this type, and
by no other root operation type. -/
def OwnsFields (document : Document) (map : ResolverMap R) : Prop :=
  ∀ type field, (RootTypes.ofDocument document).contains type → map.hasField type field →
    document.declares type field ∧
      ∀ other, (RootTypes.ofDocument document).contains other → document.declares other field →
        other = type

theorem ownsFields_iff :
    OwnsFields document map ↔ ∀ leaf ∈ map.leaves, ∀ type ∈ leaf.1,
      (RootTypes.ofDocument document).contains type → document.declares type leaf.2.1 ∧
        ∀ other ∈ (RootTypes.ofDocument document).toList,
          document.declares other leaf.2.1 → other = type := by
  constructor
  · rintro h ⟨type?, field, resolver⟩ hleaf type rfl hroot
    have hhas : map.hasField type field := by rw [hasField, mem_leaves_some_iff.mp hleaf]; rfl
    obtain ⟨hdeclares, hone⟩ := h type field hroot hhas
    exact ⟨hdeclares, fun other hother => hone other (List.contains_iff_mem.mpr hother)⟩
  · intro h type field hroot hhas
    obtain ⟨resolver, hfound⟩ := Option.isSome_iff_exists.mp hhas
    obtain ⟨hdeclares, hone⟩ := h _ (mem_leaves_some_iff.mpr hfound) type rfl hroot
    exact ⟨hdeclares, fun other hother => hone other (List.contains_iff_mem.mp hother)⟩

instance : Decidable (OwnsFields document map) := decidable_of_iff' _ ownsFields_iff

/-- Of a map with one owner per field, a root field entry of the flattened map belongs to the owner. -/
theorem owner?_of_root?_flatten (hnested : ¬ map.isFlattened) (howns : OwnsFields document map)
    {field : String} {resolver : R}
    (h : (map.flatten (RootTypes.ofDocument document)).value.root? field = some resolver) :
    map.type? field = none ∧ ∃ type, owner? document field = some type ∧
      (RootTypes.ofDocument document).contains type ∧ map.nested? type field = some resolver := by
  rw [root?_flatten, Option.ite_none_right_eq_some] at h
  obtain ⟨hentry, hlast⟩ := h
  obtain hroot | ⟨type, hroot, hfound⟩ := mem_rootResolvers_iff.mp (List.mem_of_getLast? hlast)
  · rw [root?_of_nested hnested] at hroot
    cases hroot
  · have hhas : map.hasField type field := by rw [hasField, hfound]; rfl
    obtain ⟨hdeclares, hone⟩ := howns type field hroot hhas
    obtain ⟨owner, howner⟩ := Option.isSome_iff_exists.mp (isSome_owner? hroot hdeclares)
    obtain ⟨hownerRoot, hownerDeclares⟩ := declares_of_owner? howner
    obtain rfl := hone owner hownerRoot hownerDeclares
    exact ⟨hentry, owner, howner, hroot, hfound⟩

/-- What nesting lifts back is what flattening promoted. -/
theorem lifted?_flatten (hnested : ¬ map.isFlattened) (howns : OwnsFields document map)
    (type field : String) :
    lifted? document (map.flatten (RootTypes.ofDocument document)).value type field =
      if (RootTypes.ofDocument document).contains type ∧ map.type? field = none then
        map.nested? type field
      else none := by
  let flat := (map.flatten (RootTypes.ofDocument document)).value
  -- What is lifted out of the flattened map went in as the resolver of this very field.
  have hlifted : ∀ resolver, lifted? document flat type field = some resolver →
      ((RootTypes.ofDocument document).contains type ∧ map.type? field = none) ∧
        map.nested? type field = some resolver := by
    intro resolver h
    obtain ⟨howner, hroot⟩ := Option.ite_none_right_eq_some.mp h
    obtain ⟨hentry, owner, howner', hcontains, hfound⟩ := owner?_of_root?_flatten hnested howns hroot
    obtain rfl : owner = type := Option.some.inj (howner'.symm.trans howner)
    exact ⟨⟨hcontains, hentry⟩, hfound⟩
  show lifted? document flat type field = _
  cases hcase : lifted? document flat type field with
  | some resolver =>
    obtain ⟨hmoved, hfound⟩ := hlifted resolver hcase
    rw [if_pos hmoved, hfound]
  | none =>
    split
    · next hmoved =>
      -- A resolver that was moved would be lifted again, since its field has no other owner.
      by_contra hne
      obtain ⟨resolver, hfound⟩ := Option.ne_none_iff_exists'.mp fun h => hne h.symm
      have hhas : map.hasField type field := by rw [hasField, hfound]; rfl
      have hsome : map.rootResolvers (RootTypes.ofDocument document) field ≠ [] :=
        List.ne_nil_of_mem (mem_rootResolvers_iff.mpr (.inr ⟨type, hmoved.1, hfound⟩))
      have hroot : flat.root? field = some (List.getLast _ hsome) := by
        rw [root?_flatten, if_pos hmoved.2, List.getLast?_eq_some_getLast hsome]
      obtain ⟨-, owner, howner, hcontains, -⟩ := owner?_of_root?_flatten hnested howns hroot
      obtain rfl := (howns type field hmoved.1 hhas).2 owner hcontains (declares_of_owner? howner).2
      rw [lifted?, if_pos howner, hroot] at hcase
      cases hcase
    · rfl

/-- Nesting undoes flattening, for a map of type entries whose root fields have one owner each. -/
theorem export_flattened_export_nested (hnested : ¬ map.isFlattened)
    (howns : OwnsFields document map) :
    let back := ((map.export true document).value.export false document).value
    ¬ back.isFlattened ∧ ∀ type field, back.nested? type field = map.nested? type field := by
  let flat := (map.flatten (RootTypes.ofDocument document)).value
  show ¬ (flat.nest document).value.isFlattened ∧
    ∀ type field, (flat.nest document).value.nested? type field = map.nested? type field
  -- Every root field entry of the flattened map has an owner, and so none stays in place.
  have howner : ∀ {field resolver}, flat.root? field = some resolver →
      owner? document field ≠ none := by
    intro field resolver hroot
    obtain ⟨-, type, howner, -⟩ := owner?_of_root?_flatten hnested howns hroot
    rw [howner]
    exact Option.some_ne_none type
  have hstays : ∀ field, ¬ StaysInPlace document flat field := by
    rintro field ⟨hroot, hnone⟩
    obtain ⟨resolver, hroot⟩ := Option.isSome_iff_exists.mp hroot
    exact howner hroot hnone
  constructor
  · rw [isFlattened_iff]
    rintro ⟨field, hroot⟩
    obtain ⟨resolver, hroot⟩ := Option.isSome_iff_exists.mp hroot
    obtain ⟨hroot, hnone⟩ := root?_of_root?_nest hroot
    exact howner hroot hnone
  · intro type field
    rw [nested?_nest, if_neg (hstays type), lifted?_flatten hnested howns, nested?_flatten]
    -- Each field was either promoted or left in its entry.
    by_cases hmoved : (RootTypes.ofDocument document).contains type ∧ map.type? field = none
    · rw [if_pos hmoved, if_pos hmoved, Option.none_or, Option.or_none, ite_self]
    · rw [if_neg hmoved, if_neg hmoved, Option.none_or, Option.or_none, ite_self]

/-- Two root fields have the names of entries: one of a type, and one of the root type itself. -/
theorem export_namesakes_export_nested :
    let document : Document :=
      ⟨[.type ⟨none, "Query", [], .object [] [⟨none, "a", [], .named "Int", []⟩,
          ⟨none, "Query", [], .named "Int", []⟩, ⟨none, "User", [], .named "User", []⟩]⟩,
        .type ⟨none, "Mutation", [], .object [] [⟨none, "save", [], .named "Int", []⟩]⟩,
        .type ⟨none, "User", [], .object [] [⟨none, "name", [], .named "String", []⟩]⟩]⟩
    let map : ResolverMap Nat :=
      ⟨.ofList [("Mutation", .type (.ofList [("save", 1)])),
        ("Query", .type (.ofList [("User", 2), ("a", 3), ("Query", 4)])),
        ("User", .type (.ofList [("name", 5), ("__resolveReference", 6)]))]⟩
    let back := ((map.export true document).value.export false document).value
    ¬ map.isFlattened ∧ OwnsFields document map ∧
      ¬ back.isFlattened ∧ ∀ type field, back.nested? type field = map.nested? type field := by
  intro document map back
  have hnested : ¬ map.isFlattened := by decide +kernel
  have howns : OwnsFields document map := by decide +kernel
  exact ⟨hnested, howns, export_flattened_export_nested hnested howns⟩

end RoundTrip

end ResolverMap

end SchemaAlgebra
