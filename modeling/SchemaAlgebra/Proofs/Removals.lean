import SchemaAlgebra.Proofs.FlattenedResolvers

/-!
# Removing from a resolver map

There are four ways to take something out of a resolver map, and each tells in its own terms what it took:
the number of resolvers, whether there was one, or their paths.  All four are cuts of a map whose entries
all have leaves, so what they tell is compared with the leaves that are missing afterwards.  For three of
them the two agree.  The removal of a type also takes a root field entry that stands under the type's name,
and does not tell.

The paths of many fields may be removed in any order.  The first removal of a field takes the resolver in
the entry of its type, so the root field entry goes only with a path that is there once more than that.

## Main statements

* `lost_cut`: a cut loses the leaves that fail its condition.
* `reportsLosses`: what each removal tells, compared with what it takes.
* `value_removeFields_eq_cut`: the removal of many fields is one cut.
* `removeFields_perm`: the paths may stand in any order.
-/

namespace SchemaAlgebra

variable {R : Type}

namespace ResolverMap

/-! ## What a map loses -/

/-- Every entry of a map has a leaf, so no type entry is empty. -/
def NoneEmpty (map : ResolverMap R) : Prop :=
  ∀ item ∈ map.entries.entries, leavesIn item.1 item.2 ≠ []

instance (map : ResolverMap R) : Decidable map.NoneEmpty :=
  inferInstanceAs (Decidable (∀ item ∈ map.entries.entries, leavesIn item.1 item.2 ≠ []))

/-- The leaves of a map that have no resolver in another one. -/
def lost (before after : ResolverMap R) : List (Option String × String × R) :=
  before.leaves.filter fun leaf => address leaf ∉ after.leaves.map address

/-- What is left of a map that has lost leaves: the others keep their resolvers and their order, nothing
is new, and no type entry is empty. -/
structure ShrinksTo (before after : ResolverMap R) : Prop where
  kept : after.leaves =
    before.leaves.filter fun leaf => address leaf ∈ after.leaves.map address
  noneEmpty : after.NoneEmpty

/-- The path of a leaf as a text. -/
def leafPath : Option String × String × R → String
  | (some type, field, _) => type ++ "." ++ field
  | (none, field, _) => field

section Losses

variable {keep : Option String × String × R → Bool} {map : ResolverMap R}

theorem noneEmpty_cut (h : map.NoneEmpty) : (map.cut keep).NoneEmpty := by
  intro item hitem
  obtain ⟨⟨key, entry⟩, hentry, hchange⟩ := List.mem_filterMap.mp hitem
  obtain ⟨left, hleft, rfl⟩ := Option.map_eq_some_iff.mp hchange
  exact leavesIn_ne_nil_of_cutEntry (h (key, entry) hentry) hleft

theorem mem_address_cut_iff {place : Option String × String} :
    place ∈ (map.cut keep).leaves.map address ↔
      ∃ leaf ∈ map.leaves, keep leaf ∧ address leaf = place := by
  rw [leaves_cut]
  simp only [List.mem_map, List.mem_filter, and_assoc]

/-- A leaf has its resolver after a cut exactly if it meets the condition. -/
theorem decide_address_mem_cut {leaf : Option String × String × R} (h : leaf ∈ map.leaves) :
    decide (address leaf ∈ (map.cut keep).leaves.map address) = keep leaf := by
  rw [Bool.eq_iff_iff, decide_eq_true_iff, mem_address_cut_iff]
  constructor
  · rintro ⟨other, hother, hkeep, hsame⟩
    -- No other leaf stands in the same place.
    rwa [List.inj_on_of_nodup_map map.nodup_address hother h hsame] at hkeep
  · exact fun hkeep => ⟨leaf, h, hkeep, rfl⟩

/-- A cut loses the leaves that fail its condition. -/
theorem lost_cut (keep : Option String × String × R → Bool) (map : ResolverMap R) :
    map.lost (map.cut keep) = map.leaves.filter fun leaf => !keep leaf := by
  apply List.filter_congr
  intro leaf hleaf
  rw [decide_not, decide_address_mem_cut hleaf]

theorem shrinksTo_cut (h : map.NoneEmpty) : map.ShrinksTo (map.cut keep) := by
  refine ⟨?_, noneEmpty_cut h⟩
  conv_lhs => rw [leaves_cut]
  apply List.filter_congr
  intro leaf hleaf
  rw [decide_address_mem_cut hleaf]

end Losses

/-! ## Removing fields -/

section Fields

variable {map : ResolverMap R} {document : Document} {type field : String}

theorem address_mem_leaves_iff {place : Option String × String} :
    place ∈ map.leaves.map address ↔ ∃ resolver, (place.1, place.2, resolver) ∈ map.leaves := by
  rw [List.mem_map]
  constructor
  · rintro ⟨⟨type?, name, resolver⟩, hleaf, rfl⟩
    exact ⟨resolver, hleaf⟩
  · rintro ⟨resolver, hleaf⟩
    exact ⟨_, hleaf, rfl⟩

/-- A field has a resolver in the entry of its type exactly if there is such a leaf. -/
theorem hasField_iff : map.hasField type field ↔ (some type, field) ∈ map.leaves.map address := by
  rw [address_mem_leaves_iff, hasField, Option.isSome_iff_exists]
  exact exists_congr fun _ => mem_leaves_some_iff.symm

theorem hasRootField_iff : map.hasRootField field ↔ (none, field) ∈ map.leaves.map address := by
  rw [address_mem_leaves_iff, hasRootField, Option.isSome_iff_exists]
  exact exists_congr fun _ => mem_leaves_none_iff.symm

/-- The leaf that the removal of a field takes is one of the map. -/
theorem mem_of_leafAt? {place : Option String × String}
    (h : map.leafAt? document type field = some place) : place ∈ map.leaves.map address := by
  unfold leafAt? at h
  split at h
  · next hnested =>
    obtain rfl := Option.some.inj h
    exact hasField_iff.mp hnested
  · split at h
    · next hroot =>
      obtain rfl := Option.some.inj h
      exact hasRootField_iff.mp hroot.2.1
    · cases h

/-- The removal of a field takes as many leaves as it tells. -/
theorem length_leaves_removePath (document : Document) (map : ResolverMap R) (type field : String) :
    (removePath document map type field).value.1.leaves.length +
        (if (removePath document map type field).value.2 then 1 else 0) = map.leaves.length := by
  rw [value_removePath, leaves_cut]
  cases hplace : map.leafAt? document type field with
  | none => simp
  | some place =>
    -- The place is that of one leaf, and all others meet the condition.
    have hone : map.leaves.countP (fun leaf => address leaf == place) = 1 := by
      rw [← List.count_eq_one_of_mem map.nodup_address (mem_of_leafAt? hplace), List.count,
        List.countP_map]
      rfl
    rw [List.length_eq_countP_add_countP (fun leaf => address leaf == place) (l := map.leaves), hone,
      List.countP_eq_length_filter, Nat.add_comm]
    congr 2
    apply List.filter_congr
    intro leaf _
    rw [decide_eq_decide, ne_comm, Ne, Option.some_inj, beq_iff_eq]

theorem length_leaves_removeFields (map : ResolverMap R) (paths : List (String × String))
    (document : Document) :
    (map.removeFields paths document).value.1.leaves.length + (map.removeFields paths document).value.2 =
      map.leaves.length := by
  -- The last removal starts from what the ones before it have left.
  induction paths using List.reverseRecOn with
  | nil => rfl
  | append_singleton front path ih =>
    rw [← ih, ← length_leaves_removePath document (map.removeFields front document).value.1 path.1 path.2]
    simp only [removeFields, Traced.value_foldlM, List.foldl_concat, Traced.value_bind, Traced.value_pure]
    split <;> omega

end Fields

/-- Whether the removal of many fields takes the leaf in a place. -/
def RemovedBy (document : Document) (map : ResolverMap R) (paths : List (String × String)) :
    Option String × String → Prop
  | (some type, field) => (type, field) ∈ paths
  -- The first path of a root type goes into the entry of that type, if it has the field.
  | (none, field) => ¬ document.declaresOnRoot field ∧
      ∃ type ∈ (RootTypes.ofDocument document).toList,
        (if map.hasField type field then 1 else 0) < paths.count (type, field)

instance (document : Document) (map : ResolverMap R) (paths : List (String × String))
    (place : Option String × String) : Decidable (RemovedBy document map paths place) :=
  match place with
  | (some _, _) => inferInstanceAs (Decidable (_ ∈ paths))
  | (none, _) => inferInstanceAs (Decidable (_ ∧ _))

section RemovedFields

variable {document : Document} {map : ResolverMap R} {front paths : List (String × String)}
  {path : String × String}

/-- Where a condition only asks for the place, it also says which places are left. -/
theorem address_mem_cut_iff (keep : Option String × String → Prop) [DecidablePred keep]
    (map : ResolverMap R) (place : Option String × String) :
    place ∈ (map.cut fun leaf => keep (address leaf)).leaves.map address ↔
      place ∈ map.leaves.map address ∧ keep place := by
  rw [mem_address_cut_iff, List.mem_map]
  constructor
  · rintro ⟨leaf, hleaf, hkeep, rfl⟩
    exact ⟨⟨leaf, hleaf, rfl⟩, of_decide_eq_true hkeep⟩
  · rintro ⟨⟨leaf, hleaf, rfl⟩, hkeep⟩
    exact ⟨leaf, hleaf, decide_eq_true hkeep, rfl⟩

theorem leafAt?_eq_some_type {type field key name : String} :
    map.leafAt? document key name = some (some type, field) ↔
      map.hasField key name ∧ (key, name) = (type, field) := by
  unfold leafAt?
  split
  · next hnested => simp [hnested]
  · next hnested => split <;> simp [hnested]

theorem leafAt?_eq_some_root {field key name : String} :
    map.leafAt? document key name = some (none, field) ↔
      ¬ map.hasField key name ∧ key ∈ (RootTypes.ofDocument document).toList ∧
        map.hasRootField field ∧ ¬ document.declaresOnRoot field ∧ name = field := by
  unfold leafAt?
  split
  · next hnested => simp [hnested]
  · next hnested =>
    constructor
    · intro h
      split at h
      · next hroot =>
        cases h
        exact ⟨hnested, List.contains_iff_mem.mp hroot.1, hroot.2.1, hroot.2.2, rfl⟩
      · cases h
    · rintro ⟨-, hroot, hfield, hgone, rfl⟩
      rw [if_pos ⟨List.contains_iff_mem.mpr hroot, hfield, hgone⟩]

/-- What comes last counts once more for itself. -/
theorem lt_count_concat_iff {α : Type} [BEq α] [LawfulBEq α] {front : List α} {last item : α} {n : Nat} :
    n < (front ++ [last]).count item ↔ n < front.count item ∨ last = item ∧ n ≤ front.count item := by
  rw [List.count_append]
  by_cases hlast : last = item
  · rw [hlast, List.count_singleton_self]
    simp only [true_and]
    omega
  · have hnone : [last].count item = 0 :=
      List.count_eq_zero_of_not_mem fun hmem => hlast (List.mem_singleton.mp hmem).symm
    simp only [hnone, Nat.add_zero, hlast, false_and, or_false]

/-- The entry of a type needs a path of its own for a field that it has. -/
theorem needed_le_count_iff {type field : String} :
    (if map.hasField type field then 1 else 0) ≤ paths.count (type, field) ↔
      (map.hasField type field → (type, field) ∈ paths) := by
  by_cases hfield : map.hasField type field
  · rw [if_pos hfield, List.one_le_count_iff]
    exact ⟨fun h _ => h, fun h => h hfield⟩
  · rw [if_neg hfield]
    exact iff_of_true (Nat.zero_le _) fun h => absurd h hfield

/-- The last path takes a root field entry if it is one of a root type and nothing else needs it. -/
theorem removedBy_root_concat {key name field : String} :
    RemovedBy document map (front ++ [(key, name)]) (none, field) ↔
      RemovedBy document map front (none, field) ∨
        (¬ document.declaresOnRoot field ∧ key ∈ (RootTypes.ofDocument document).toList ∧
          name = field ∧ (map.hasField key name → (key, name) ∈ front)) := by
  simp only [RemovedBy, lt_count_concat_iff, needed_le_count_iff]
  constructor
  · rintro ⟨hgone, type, htype, hcount | ⟨hpath, hneeded⟩⟩
    · exact .inl ⟨hgone, type, htype, hcount⟩
    · obtain ⟨rfl, rfl⟩ := Prod.mk.inj hpath
      exact .inr ⟨hgone, htype, rfl, hneeded⟩
  · rintro (⟨hgone, type, htype, hcount⟩ | ⟨hgone, htype, rfl, hneeded⟩)
    · exact ⟨hgone, type, htype, .inl hcount⟩
    · exact ⟨hgone, key, htype, .inr ⟨rfl, hneeded⟩⟩

/-- The leaves that many removals take are those that all but the last one take, and the one that the
last takes from what is left. -/
theorem removedBy_concat {place : Option String × String} (hplace : place ∈ map.leaves.map address) :
    RemovedBy document map (front ++ [path]) place ↔
      RemovedBy document map front place ∨
        (map.cut fun leaf => ¬ RemovedBy document map front (address leaf)).leafAt? document
          path.1 path.2 = some place := by
  obtain ⟨key, name⟩ := path
  have hkept := address_mem_cut_iff (fun place => ¬ RemovedBy document map front place) map
  have hnested : (map.cut fun leaf => ¬ RemovedBy document map front (address leaf)).hasField key name ↔
      map.hasField key name ∧ (key, name) ∉ front := by
    rw [hasField_iff, hasField_iff]
    exact hkept (some key, name)
  -- The cases are those of the form of the entry that the leaf stands in.
  obtain ⟨_ | type, field⟩ := place
  · rw [removedBy_root_concat, leafAt?_eq_some_root, hnested, hasRootField_iff, hkept]
    by_cases htaken : RemovedBy document map front (none, field)
    · exact iff_of_true (.inl htaken) (.inl htaken)
    · tauto
  · rw [leafAt?_eq_some_type, hnested]
    show (type, field) ∈ front ++ [(key, name)] ↔ (type, field) ∈ front ∨ _
    rw [List.mem_append, List.mem_singleton]
    have hfield := hasField_iff.mpr hplace
    by_cases hfront : (type, field) ∈ front
    · exact iff_of_true (.inl hfront) (.inl hfront)
    · -- The leaf is still there, so it goes with the last path if this is its own.
      rw [or_iff_right hfront, or_iff_right hfront]
      constructor
      · intro hlast
        obtain ⟨rfl, rfl⟩ := Prod.mk.inj hlast
        exact ⟨⟨hfield, hfront⟩, rfl⟩
      · exact fun h => h.2.symm

/-- The removal of many fields is one cut. -/
theorem value_removeFields_eq_cut (map : ResolverMap R) (paths : List (String × String))
    (document : Document) :
    (map.removeFields paths document).value.1 =
      map.cut fun leaf => ¬ RemovedBy document map paths (address leaf) := by
  rw [value_removeFields]
  -- Each path adds a cut to the one that stands for the paths before it.
  induction paths using List.reverseRecOn with
  | nil =>
    symm
    apply cut_of_forall
    rintro ⟨_ | type, field, resolver⟩ - <;> simp [RemovedBy, address]
  | append_singleton front path ih =>
    rw [List.foldl_concat, ih, value_removePath, cut_cut]
    apply cut_congr
    intro leaf hleaf
    rw [← Bool.decide_and, decide_eq_decide, removedBy_concat (List.mem_map_of_mem hleaf), not_or]

/-- The removal of many fields tells how many leaves it takes. -/
theorem length_lost_removeFields (map : ResolverMap R) (paths : List (String × String))
    (document : Document) :
    (map.lost (map.removeFields paths document).value.1).length =
      (map.removeFields paths document).value.2 := by
  have htotal := length_leaves_removeFields map paths document
  rw [value_removeFields_eq_cut, leaves_cut] at htotal
  rw [value_removeFields_eq_cut, lost_cut]
  have hsplit := List.length_eq_length_filter_add (l := map.leaves)
    fun leaf => decide (¬ RemovedBy document map paths (address leaf))
  omega

end RemovedFields

/-- Which leaves are taken does not depend on the order of the paths. -/
theorem removedBy_perm {document : Document} {map : ResolverMap R} {paths others : List (String × String)}
    (h : paths.Perm others) (place : Option String × String) :
    RemovedBy document map paths place ↔ RemovedBy document map others place := by
  obtain ⟨_ | type, field⟩ := place
  · simp only [RemovedBy, h.count_eq]
  · exact h.mem_iff

/-- The removal of many fields does not depend on the order of their paths.  A root field entry goes if no
root type declares the field and some path of a root type is there once more than what the entry of the
type has for it. -/
theorem removeFields_perm (map : ResolverMap R) (document : Document)
    {paths others : List (String × String)} (h : paths.Perm others) :
    (map.removeFields paths document).value = (map.removeFields others document).value ∧
      ∀ field, map.hasRootField field →
        ((map.removeFields paths document).value.1.hasRootField field = false ↔
          (∀ type ∈ (RootTypes.ofDocument document).toList, ¬ document.declares type field) ∧
            ∃ type ∈ (RootTypes.ofDocument document).toList,
              (if map.hasField type field then 1 else 0) < paths.count (type, field)) := by
  have hmap : (map.removeFields paths document).value.1 = (map.removeFields others document).value.1 := by
    rw [value_removeFields_eq_cut, value_removeFields_eq_cut]
    apply cut_congr
    intro leaf _
    rw [decide_eq_decide, not_iff_not]
    exact removedBy_perm h (address leaf)
  refine ⟨Prod.ext hmap ?_, ?_⟩
  · rw [← length_lost_removeFields, ← length_lost_removeFields, hmap]
  · intro field hfield
    have hgone : (map.removeFields paths document).value.1.hasRootField field = false ↔
        RemovedBy document map paths (none, field) := by
      rw [value_removeFields_eq_cut, ← Bool.not_eq_true, hasRootField_iff,
        address_mem_cut_iff fun place => ¬ RemovedBy document map paths place]
      simp only [hasRootField_iff.mp hfield, true_and, not_not]
    rw [hgone]
    simp only [RemovedBy, Document.declaresOnRoot, List.any_eq_true, not_exists, not_and]

/-- Two removals of one field with a removal of another one in between.  The first takes the resolver in
the entry of the root type, and the second one the root field entry. -/
theorem removeFields_twice_perm :
    let map : ResolverMap Nat := ⟨.ofList [("Query", .type (.ofList [("ping", 1), ("a", 2)])),
      ("ping", .rootField 3), ("User", .type (.ofList [("name", 4)]))]⟩
    let document : Document :=
      ⟨[.type ⟨none, "Query", [], .object [] [⟨none, "a", [], .named "Int", []⟩]⟩]⟩
    let paths := [("Query", "ping"), ("User", "name"), ("Query", "ping")]
    let others := [("User", "name"), ("Query", "ping"), ("Query", "ping")]
    paths.Perm others ∧
      (map.removeFields paths document).value = (map.removeFields others document).value ∧
      (map.removeFields paths document).value.1.hasRootField "ping" = false := by
  intro map document paths others
  have hperm : paths.Perm others := by decide
  obtain ⟨hsame, hgone⟩ := removeFields_perm map document hperm
  exact ⟨hperm, hsame, (hgone "ping" (by decide)).mpr (by decide)⟩

/-! ## Cutting down to a document -/

/-- The orphans of an entry are the leaves that are about something the document does not have. -/
theorem orphansIn_eq (document : Document) (key : String) (entry : ResolverEntry R) :
    orphansIn document key entry =
      ((leavesIn key entry).filter fun leaf => !document.retains leaf).map leafPath := by
  cases entry with
  | rootField resolver =>
    cases hdeclared : document.declaresOnRoot key <;>
      simp [orphansIn, leavesIn, Document.retains, leafPath, hdeclared]
  | type fields =>
    have hlost : ((leavesIn key (.type fields)).filter fun leaf => !document.retains leaf).map leafPath =
        (fields.keys.filter fun field => !document.keepsResolver key field).map
          fun field => key ++ "." ++ field := by
      rw [leavesIn, OrderedMap.keys, List.filter_map, List.filter_map, List.map_map, List.map_map]
      rfl
    rw [hlost]
    unfold orphansIn Document.keepsResolver
    cases document.membersOf? key with
    | none => simp
    | some members => rfl

theorem value_retainPresent {map : ResolverMap R} (h : map.NoneEmpty) (document : Document) :
    (map.retainPresent document).value =
      (map.cut document.retains, (map.leaves.filter fun leaf => !document.retains leaf).map leafPath) := by
  have horphans : (map.entries.entries.flatMap fun item => orphansIn document item.1 item.2) =
      (map.leaves.filter fun leaf => !document.retains leaf).map leafPath := by
    show _ = ((map.entries.entries.flatMap fun item => leavesIn item.1 item.2).filter _).map _
    rw [List.filter_flatMap, List.map_flatMap]
    exact List.flatMap_congr fun item _ => orphansIn_eq document item.1 item.2
  rw [← horphans]
  refine Prod.ext (congrArg ResolverMap.mk (OrderedMap.filterMap_congr fun key entry hentry => ?_)) rfl
  exact retainEntry_eq_cutEntry (h (key, entry) hentry)

/-! ## Removing a type -/

/-- The removal of a type takes the leaves in the entry under its name, of whichever form it is. -/
theorem removeType_eq_cut {map : ResolverMap R} (h : map.NoneEmpty) (type : String) :
    (map.removeType type).1 = map.cut fun leaf => entryName leaf ≠ type := by
  show (⟨map.entries.erase type⟩ : ResolverMap R) = _
  rw [OrderedMap.erase_eq_filterMap]
  refine congrArg ResolverMap.mk (OrderedMap.filterMap_congr fun key entry hentry => ?_)
  -- All leaves of an entry carry its name, so either all of them go or none does.
  by_cases hkey : key = type
  · rw [if_pos hkey, cutEntry_eq_none (h (key, entry) hentry)]
    intro leaf hleaf
    rw [entryName_of_mem_leavesIn hleaf]
    exact decide_eq_false (not_not_intro hkey)
  · rw [if_neg hkey, cutEntry_of_forall]
    intro leaf hleaf
    rw [entryName_of_mem_leavesIn hleaf]
    exact decide_eq_true hkey

/-- The removal of a type changes the map if there is an entry under its name. -/
theorem removeType_eq_self_iff {map : ResolverMap R} {type : String} :
    (map.removeType type).1 = map ↔ map.entries.get? type = none := by
  constructor
  · intro hsame
    rw [← congrArg entries hsame]
    exact (OrderedMap.get?_erase ..).trans (if_pos rfl)
  · intro hnone
    refine congrArg ResolverMap.mk (OrderedMap.ext (List.filter_eq_self.mpr fun item hitem => ?_))
    have hother : item.1 ≠ type := by
      rintro rfl
      rw [OrderedMap.get?_of_mem hitem] at hnone
      cases hnone
    exact decide_eq_true hother

/-! ## What removals tell -/

/-- What the removals from a map tell, compared with the leaves that the map loses.  The removal of a type
tells the truth exactly if no root field entry stands under the type's name. -/
structure ReportsLosses (map : ResolverMap R) (document : Document) : Prop where
  -- The number of leaves.
  fields : ∀ paths, let result := (map.removeFields paths document).value
    map.ShrinksTo result.1 ∧ result.2 = (map.lost result.1).length
  -- Whether there was one.
  field : ∀ type field, let result := (map.removeField type field document).value
    map.ShrinksTo result.1 ∧ (result.2 = true ↔ result.1 ≠ map)
  -- Their paths, in the order of the map.
  present : let result := (map.retainPresent document).value
    map.ShrinksTo result.1 ∧ result.2 = (map.lost result.1).map leafPath
  -- Whether there was a type entry, although an entry of the other form goes as well.
  type : ∀ type, let result := map.removeType type
    map.ShrinksTo result.1 ∧
      ((result.2 = true ↔ result.1 ≠ map) ↔ map.hasRootField type = false)

theorem value_removeField (map : ResolverMap R) (type field : String) (document : Document) :
    (map.removeField type field document).value = (removePath document map type field).value := by
  refine Prod.ext rfl ?_
  show ((if (removePath document map type field).value.2 then 0 + 1 else 0) == 1) = _
  cases (removePath document map type field).value.2 <;> rfl

/-- Every removal leaves the leaves alone that it does not take, and all but the removal of a type tell
exactly what they take. -/
theorem reportsLosses {map : ResolverMap R} (h : map.NoneEmpty) (document : Document) :
    map.ReportsLosses document := by
  refine ⟨fun paths => ?_, fun type field => ?_, ?_, fun type => ?_⟩
  · refine ⟨?_, (length_lost_removeFields map paths document).symm⟩
    rw [value_removeFields_eq_cut]
    exact shrinksTo_cut h
  · rw [value_removeField, value_removePath]
    refine ⟨shrinksTo_cut h, ?_⟩
    rw [Ne, cut_eq_self_iff]
    cases hplace : map.leafAt? document type field with
    | none => simp
    | some place =>
      -- The leaf that is taken is one of the map.
      obtain ⟨leaf, hleaf, rfl⟩ := List.mem_map.mp (mem_of_leafAt? hplace)
      exact iff_of_true rfl fun hall => of_decide_eq_true (hall leaf hleaf) rfl
  · rw [value_retainPresent h]
    exact ⟨shrinksTo_cut h, congrArg (List.map leafPath) (lost_cut _ map).symm⟩
  · refine ⟨?_, ?_⟩
    · rw [removeType_eq_cut h]
      exact shrinksTo_cut h
    · rw [Ne, removeType_eq_self_iff, removeType, type?, hasRootField, root?]
      -- The three cases are those of what stands under the name.
      cases hentry : map.entries.get? type with
      | none => simp
      | some entry => cases entry <;> simp [ResolverEntry.fields?, ResolverEntry.root?]

/-- A map with entries of both forms and a document that has only some of what they are about. -/
theorem reportsLosses_bothForms :
    NoneEmpty (⟨.ofList [("Query", .type (.ofList [("ping", 1), ("a", 2)])), ("ping", .rootField 3),
        ("User", .type (.ofList [("name", 4)]))]⟩ : ResolverMap Nat) ∧
      ReportsLosses (⟨.ofList [("Query", .type (.ofList [("ping", 1), ("a", 2)])), ("ping", .rootField 3),
        ("User", .type (.ofList [("name", 4)]))]⟩ : ResolverMap Nat)
        ⟨[.type ⟨none, "Query", [], .object [] [⟨none, "a", [], .named "Int", []⟩]⟩]⟩ :=
  ⟨by decide, reportsLosses (by decide) _⟩

/-- The removal of a type takes a root field entry and tells that there was nothing to take. -/
theorem removeType_takesRootField :
    let map : ResolverMap String := ⟨.ofList [("ping", .rootField "P")]⟩
    map.NoneEmpty ∧ (map.removeType "ping").2 = false ∧ (map.removeType "ping").1 ≠ map :=
  ⟨by decide, rfl, mt removeType_eq_self_iff.mp (Option.some_ne_none _)⟩

end ResolverMap

end SchemaAlgebra
