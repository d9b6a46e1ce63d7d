import SchemaAlgebra.Proofs.MergedResolvers

/-!
# Merging nested resolver maps

Entries of the two forms get in each other's way when maps are merged.  If the maps of both sides have
type entries only, nothing is lost but what the merged document does not have: the merged map has the
resolvers of both, the source's where both have one, and of these the ones that are about a field or an
enum value that some node of the type declares, or about a type as a whole that the document carries.

This holds for any policy, and so for documents whose members come from neither side.

## Main statements

* `ResolverMap.isFlattened_iff`: a map is nested if no field has a root field entry.
* `nested?_mergeBundles`: looking up in the merged map.
* `merge_nestedMaps_exact`: the merged map, for whole schemas.
-/

namespace SchemaAlgebra

variable {R S : Type}

namespace ResolverMap

theorem isFlattened_iff {map : ResolverMap R} :
    map.isFlattened ↔ ∃ field, map.hasRootField field := by
  simp only [isFlattened, hasRootField, root?, List.any_eq_true]
  constructor
  · rintro ⟨entry, hentry, hroot⟩
    obtain ⟨⟨field, entry⟩, hmem, rfl⟩ := List.mem_map.mp hentry
    exact ⟨field, by rwa [OrderedMap.get?_of_mem hmem]⟩
  · rintro ⟨field, hroot⟩
    cases hentry : map.entries.get? field with
    | none => rw [hentry] at hroot; cases hroot
    | some entry =>
      rw [hentry] at hroot
      exact ⟨entry, List.mem_map.mpr ⟨_, OrderedMap.mem_of_get? hentry, rfl⟩, hroot⟩

/-- No field of a nested map has a root field entry. -/
theorem root?_of_nested {map : ResolverMap R} (h : ¬ map.isFlattened) (field : String) :
    map.root? field = none := by
  rw [isFlattened_iff, not_exists] at h
  simpa [hasRootField] using h field

end ResolverMap

section Bundles

variable (policy : Policy S) (target source : Bundle R S)

/-- Looking a field up in the merged map: the source's resolver comes first, and there is one only if the
merged document has something for it. -/
theorem nested?_mergeBundles (hsource : ¬ source.resolvers.isFlattened) (type field : String) :
    let merged := (mergeBundles policy target source).value
    merged.resolvers.nested? type field =
      if merged.document.keepsResolver type field then
        (source.resolvers.nested? type field).or (target.resolvers.nested? type field)
      else none := by
  intro merged
  -- A root field entry of the source would take the place of the target's type entry.
  have hroot : ¬ source.resolvers.hasRootField type := by
    simp [ResolverMap.hasRootField, ResolverMap.root?_of_nested hsource]
  have hretains : merged.resolvers =
      ((target.resolvers.merge source.resolvers).retainPresent merged.document).value.1 :=
    (mergeBundles_retains policy target source).1
  rw [hretains, ResolverMap.nested?_retainPresent, ResolverMap.nested?_merge, if_neg hroot]

theorem root?_mergeBundles_of_nested (htarget : ¬ target.resolvers.isFlattened)
    (hsource : ¬ source.resolvers.isFlattened) (field : String) :
    (mergeBundles policy target source).value.resolvers.root? field = none := by
  rw [(mergeBundles_retains policy target source).1, ResolverMap.root?_retainPresent,
    ResolverMap.root?_merge, ResolverMap.root?_of_nested hsource,
    ResolverMap.root?_of_nested htarget]
  simp

end Bundles

/-! ## Schemas -/

/-- The resolvers of a merged schema are exactly those of two nested maps that are about something in the
merged document.  Of two resolvers for a field the right one is there. -/
structure NestsExactly (left right : ResolverMap R) (merged : Bundle R S) : Prop where
  entries : ∀ item ∈ merged.resolvers.entries.entries,
    ∃ fields, item.2 = .type fields ∧ fields.keys ≠ []
  hasField_iff : ∀ type field, merged.resolvers.hasField type field ↔
    (left.hasField type field ∨ right.hasField type field) ∧
      nodesOf type merged.document.definitions ≠ [] ∧
      (DeclaredBy (nodesOf type merged.document.definitions) field ∨ ResolverMap.isMeta field)
  rightFirst : ∀ type field, merged.resolvers.hasField type field →
    merged.resolvers.nested? type field = (right.nested? type field).or (left.nested? type field)

theorem nestsExactly_mergeBundles (policy : Policy S) (target source : Bundle R S)
    (htarget : ¬ target.resolvers.isFlattened) (hsource : ¬ source.resolvers.isFlattened) :
    NestsExactly target.resolvers source.resolvers (mergeBundles policy target source).value := by
  let merged := (mergeBundles policy target source).value
  refine ⟨?_, ?_, ?_⟩
  · rintro ⟨key, entry⟩ hitem
    have hinStep : merged.resolvers.InStep merged.document := by
      rw [(mergeBundles_retains policy target source).1]
      exact ResolverMap.retainPresent_inStep _ _
    cases entry with
    | type fields => exact ⟨fields, rfl, (hinStep _ hitem).1⟩
    | rootField resolver =>
      -- An entry of this form would be found under its key.
      have hfound : merged.resolvers.root? key = some resolver := by
        rw [ResolverMap.root?, OrderedMap.get?_of_mem hitem]
        rfl
      rw [root?_mergeBundles_of_nested policy target source htarget hsource] at hfound
      cases hfound
  · intro type field
    rw [← Document.declares_iff, ← Document.keepsResolver_iff, ResolverMap.hasField,
      nested?_mergeBundles policy target source hsource]
    split
    · next hkeeps =>
      rw [and_iff_left hkeeps, Option.isSome_or, Bool.or_eq_true, or_comm]
      rfl
    · next hdrops => exact iff_of_false Bool.false_ne_true fun h => hdrops h.2
  · intro type field hhas
    have hlookup := nested?_mergeBundles policy target source hsource type field
    dsimp only at hlookup
    rw [ResolverMap.hasField, hlookup] at hhas
    rw [hlookup]
    split at hhas
    · next hkeeps => exact if_pos hkeeps
    · cases hhas

/-- Merging two schemas whose resolver maps have type entries only, under any policy. -/
theorem merge_nestedMaps_exact (policy : Policy S) {target source : Source R S}
    {left right : Document} (hleft : (target.toDocument .merge .target).value = .ok left)
    (hright : (source.toDocument .merge .source).value = .ok right)
    (htarget : ¬ target.resolvers.isFlattened) (hsource : ¬ source.resolvers.isFlattened) :
    ∃ merged : Bundle R S, (merge policy target source).value = .ok merged ∧
      NestsExactly target.resolvers source.resolvers merged :=
  ⟨_, value_merge policy hleft hright,
    nestsExactly_mergeBundles policy ⟨left, target.resolvers, target.scalars⟩
      ⟨right, source.resolvers, source.scalars⟩ htarget hsource⟩

/-- The policy renames a field that both sides have, and so neither side's resolver for it stays; the
entry of the interface is kept by a resolver about the type. -/
theorem merge_renamingPolicy_exact :
    let target : Bundle Nat Unit :=
      ⟨⟨[.type ⟨none, "A", [], .object [] [⟨none, "x", [], .named "Int", []⟩]⟩,
        .type ⟨none, "Node", [], .interface [] [⟨none, "id", [], .named "ID", []⟩]⟩]⟩,
        ⟨.ofList [("A", .type (.ofList [("x", 1)])), ("Gone", .type (.ofList [("f", 2)])),
          ("Node", .type (.ofList [("__resolveType", 3)]))]⟩, ∅⟩
    let source : Bundle Nat Unit :=
      ⟨⟨[.extension ⟨"A", [], .object [] [⟨none, "x", [], .named "String", []⟩,
        ⟨none, "y", [], .named "Int", []⟩]⟩]⟩,
        ⟨.ofList [("A", .type (.ofList [("x", 4), ("y", 5)])), ("Node", .type ∅)]⟩, ∅⟩
    let policy : Policy Unit := { Policy.rightWins with
      field := fun _ _ _ _ => .output ⟨none, "z", [], .named "Int", []⟩ }
    ∃ merged : Bundle Nat Unit, (merge policy (.bundle target) (.bundle source)).value = .ok merged ∧
      NestsExactly target.resolvers source.resolvers merged := by
  intro target source policy
  have htarget : target.Readable := by decide +kernel
  have hsource : source.Readable := by decide +kernel
  exact merge_nestedMaps_exact policy (htarget.toDocument _ _) (hsource.toDocument _ _)
    (by decide +kernel) (by decide +kernel)

end SchemaAlgebra
