import Mathlib.Data.List.Nodup
import SchemaAlgebra.Proofs.ScalarConfigs

/-!
# Merged schemas have a registry

If the registries of both sides can be built, that of the merged schema can be built, too, under the
policy that the source wins.  Three things have to survive.

* No type is defined twice.  A type that the source carries becomes one definition, in which the
  target's extensions are gathered; this is where the target must not give a type two kinds.  Any other
  type keeps its nodes.
* Every reference is to a type that is defined.  No step of a merge makes up a reference, whatever
  kinds the nodes have that it puts together, and every type that either side carries stays defined.
* Every config is one of a scalar that is defined.  The merge drops the others at its end.

## Main statements

* `definedTypes_foldl_mergeInto_nodup`, `mem_definedTypes_foldl_mergeInto`: the types that are defined
  in the merged document.
* `carriesOver_refersTo`: the references of the merged document are among those of both sides.
* `merge_buildsRegistry`: the registry of the merged schema.
-/

namespace SchemaAlgebra

variable {R S : Type}

open TypeDefinition (SameKind)

/-! ## Types that are defined -/

namespace Document

theorem mem_definedTypes {definitions : List Definition} {name : String} :
    name ∈ definedTypes ⟨definitions⟩ ↔
      ∃ node, .type node ∈ carrying ⟨.type, name⟩ definitions := by
  simp only [definedTypes, typeDefinitions, List.mem_map, List.mem_filterMap, mem_carrying]
  constructor
  · rintro ⟨node, ⟨definition, hmem, hnode⟩, rfl⟩
    cases definition with
    | type definition => exact ⟨definition, hmem, by rw [Option.some.inj hnode]; rfl⟩
    | extension node => cases hnode
    | schema definition => cases hnode
    | directive definition => cases hnode
  · rintro ⟨node, hmem, hkey⟩
    exact ⟨node, ⟨.type node, hmem, rfl⟩, congrArg DefinitionKey.name hkey⟩

/-- A name is defined as often as there are definitions that carry it. -/
theorem count_definedTypes (definitions : List Definition) (name : String) :
    (definedTypes ⟨definitions⟩).count name =
      (definedTypes ⟨carrying ⟨.type, name⟩ definitions⟩).length := by
  induction definitions with
  | nil => rfl
  | cons definition rest ih =>
    cases definition with
    | type node =>
      have hself : definedTypes ⟨.type node :: rest⟩ = node.name :: definedTypes ⟨rest⟩ := rfl
      rw [hself, carrying_cons]
      by_cases hname : node.name = name
      · rw [hname, List.count_cons_self, ih, if_pos (by rw [Definition.key_type, hname])]
        rfl
      · rw [List.count_cons_of_ne hname, ih,
          if_neg fun hkey => hname (congrArg DefinitionKey.name hkey)]
    -- An extension may carry the name, but it defines nothing.
    | extension node => rw [carrying_cons]; split <;> exact ih
    | schema definition => rw [carrying_cons]; split <;> exact ih
    | directive definition => rw [carrying_cons]; split <;> exact ih

end Document

section Types

variable {definitions : List Definition} (source : List Definition)

/-- A type is defined after a merge if it was before, or if the source carries it in any form. -/
theorem mem_definedTypes_foldl_mergeInto {name : String}
    (hsame : SameKind (nodesOf name definitions)) :
    name ∈ Document.definedTypes ⟨source.foldl (mergeInto TypeDefinition.override) definitions⟩ ↔
      nodesOf name source ≠ [] ∨ name ∈ Document.definedTypes ⟨definitions⟩ := by
  rw [Document.mem_definedTypes, Document.mem_definedTypes, carrying_foldl_mergeInto_unite source hsame]
  cases nodesOf name source with
  | nil => simp
  | cons right rest => simp

/-- A merge defines no type twice. -/
theorem definedTypes_foldl_mergeInto_nodup (hkind : OneKind definitions)
    (htypes : (Document.definedTypes ⟨definitions⟩).Nodup) :
    (Document.definedTypes
      ⟨source.foldl (mergeInto TypeDefinition.override) definitions⟩).Nodup := by
  rw [List.nodup_iff_count_le_one]
  intro name
  rw [Document.count_definedTypes, carrying_foldl_mergeInto_unite source (hkind.sameKind name)]
  cases nodesOf name source with
  | nil =>
    dsimp only
    rw [← Document.count_definedTypes]
    exact List.nodup_iff_count_le_one.mp htypes name
  | cons right rest => exact Nat.le_refl 1

end Types

/-! ## References -/

/-- Every type that is referred to in a body satisfies a condition. -/
structure TypeBody.RefersTo (known : String → Prop) (body : TypeBody) : Prop where
  outputFields : ∀ field ∈ body.outputFields,
    known field.type.core ∧ ∀ argument ∈ field.arguments, known argument.type.core
  inputFields : ∀ field ∈ body.inputFields, known field.type.core
  unionMembers : ∀ member ∈ body.unionMembers, known member

/-- Every type that a definition refers to satisfies a condition. -/
def Definition.RefersTo (known : String → Prop) (definition : Definition) : Prop :=
  ∀ reference ∈ definition.references, known reference.type

section References

variable {known : String → Prop}

/-- Which types a body refers to does not depend on the node that it belongs to. -/
theorem TypeBody.refersTo_iff (owner : String) (body : TypeBody) :
    body.RefersTo known ↔ ∀ reference ∈ bodyReferences owner body, known reference.type := by
  have hnothing : ∀ {ι : Type} {condition : ι → Prop}, ∀ item ∈ ([] : List ι), condition item :=
    fun _ h => absurd h List.not_mem_nil
  have hinputs : ∀ owner (inputs : List InputValue), (∀ input ∈ inputs, known input.type.core) ↔
      ∀ reference ∈ inputReferences owner inputs, known reference.type := by
    simp [inputReferences]
  have houtputs : ∀ fields : List Field, (∀ field ∈ fields, known field.type.core ∧
      ∀ argument ∈ field.arguments, known argument.type.core) ↔
        ∀ reference ∈ fields.flatMap (fieldReferences owner), known reference.type := by
    intro fields
    rw [List.forall_mem_flatMap]
    refine forall₂_congr fun field _ => ?_
    rw [fieldReferences, List.forall_mem_cons, hinputs (owner ++ "." ++ field.name)]
  cases body with
  | scalar => exact ⟨fun _ => hnothing, fun _ => ⟨hnothing, hnothing, hnothing⟩⟩
  | object interfaces fields =>
    exact ⟨fun h => (houtputs fields).mp h.outputFields,
      fun h => ⟨(houtputs fields).mpr h, hnothing, hnothing⟩⟩
  | interface interfaces fields =>
    exact ⟨fun h => (houtputs fields).mp h.outputFields,
      fun h => ⟨(houtputs fields).mpr h, hnothing, hnothing⟩⟩
  | union members =>
    have hmembers : (∀ member ∈ members, known member) ↔
        ∀ reference ∈ bodyReferences owner (.union members), known reference.type := by
      simp [bodyReferences]
    exact ⟨fun h => hmembers.mp h.unionMembers, fun h => ⟨hnothing, hnothing, hmembers.mpr h⟩⟩
  | enum values => exact ⟨fun _ => hnothing, fun _ => ⟨hnothing, hnothing, hnothing⟩⟩
  | inputObject fields =>
    exact ⟨fun h => (hinputs owner fields).mp h.inputFields,
      fun h => ⟨hnothing, (hinputs owner fields).mpr h, hnothing⟩⟩

theorem TypeBody.DrawsFrom.refersTo {body left right : TypeBody} (h : body.DrawsFrom left right)
    (hleft : left.RefersTo known) (hright : right.RefersTo known) : body.RefersTo known where
  outputFields field hfield :=
    List.forall_mem_append.mpr ⟨hleft.outputFields, hright.outputFields⟩ field
      (h.outputFields hfield)
  inputFields field hfield :=
    List.forall_mem_append.mpr ⟨hleft.inputFields, hright.inputFields⟩ field (h.inputFields hfield)
  unionMembers member hmember :=
    List.forall_mem_append.mpr ⟨hleft.unionMembers, hright.unionMembers⟩ member
      (h.unionMembers hmember)

theorem Definition.refersTo_type_iff {node : TypeDefinition} :
    (Definition.type node).RefersTo known ↔ node.body.RefersTo known :=
  (TypeBody.refersTo_iff node.name node.body).symm

/-- Nodes that are put together refer to what they referred to before. -/
theorem carriesOver_refersTo (known : String → Prop) :
    CarriesOver (Definition.RefersTo known) TypeDefinition.override where
  node hnode hrefers := by
    rcases Definition.eq_of_typeDefinition? hnode with rfl | ⟨extension, rfl, rfl⟩
    · exact hrefers
    · exact hrefers
  absorb {into piece} hinto hpiece := Definition.refersTo_type_iff.mpr
    ((into.drawsFrom_absorb piece).refersTo (Definition.refersTo_type_iff.mp hinto)
      (Definition.refersTo_type_iff.mp hpiece))
  join {left right} hleft hright := Definition.refersTo_type_iff.mpr
    ((left.drawsFrom_override right).refersTo (Definition.refersTo_type_iff.mp hleft)
      (Definition.refersTo_type_iff.mp hright))
  schema _ _ := fun _ hmem => absurd hmem List.not_mem_nil

theorem Document.forall_references_iff {document : Document} :
    (∀ reference ∈ document.references, known reference.type) ↔
      ∀ definition ∈ document.definitions, definition.RefersTo known :=
  List.forall_mem_flatMap

end References

/-! ## The registry -/

/-- Two documents with configs that registries can be built of are merged into one of which a registry
can be built. -/
theorem buildable_mergeBundles {target source : Bundle R S}
    (htarget : Registry.Buildable target.document target.scalars)
    (hsource : Registry.Buildable source.document source.scalars)
    (hkind : OneKind target.document.definitions) :
    let merged := (mergeBundles Policy.rightWins target source).value
    Registry.Buildable merged.document merged.scalars ∧
      target.document.definedTypes ++ source.document.definedTypes ⊆
        merged.document.definedTypes := by
  intro merged
  have hmerged : merged.document = ⟨source.document.definitions.foldl
      (mergeInto TypeDefinition.override) target.document.definitions⟩ :=
    congrArg Document.mk (definitions_mergeBundles_rightWins target source)
  have hdefined : target.document.definedTypes ++ source.document.definedTypes ⊆
      merged.document.definedTypes := by
    intro type htype
    rw [hmerged, mem_definedTypes_foldl_mergeInto _ (hkind.sameKind type)]
    rcases List.mem_append.mp htype with hleft | hright
    · exact .inr hleft
    · obtain ⟨node, hmem⟩ := Document.mem_definedTypes.mp hright
      exact .inl (List.ne_nil_of_mem (List.mem_filterMap.mpr ⟨_, hmem, rfl⟩))
  -- What is built in or defined on either side is known in the merged document.
  let known : String → Prop := fun type => type ∈ merged.document.definedTypes ++ builtinScalars
  have hknown : ∀ {side : List String}, side ⊆ target.document.definedTypes ++
      source.document.definedTypes → ∀ type ∈ side ++ builtinScalars, known type := by
    intro side hside type htype
    rcases List.mem_append.mp htype with hown | hbuiltin
    · exact List.mem_append_left _ (hdefined (hside hown))
    · exact List.mem_append_right _ hbuiltin
  refine ⟨⟨?_, ?_, ?_⟩, hdefined⟩
  · rw [hmerged]
    exact definedTypes_foldl_mergeInto_nodup _ hkind htarget.typesOnce
  · -- The source's nodes may refer to types of the target, so both sides are held against all types.
    have hreferences : ∀ definition ∈ merged.document.definitions, definition.RefersTo known := by
      rw [hmerged]
      refine (carriesOver_refersTo known).foldl_mergeInto ?_ ?_
      · exact Document.forall_references_iff.mp fun reference hmem =>
          hknown (List.subset_append_left _ _) _ (htarget.references reference hmem)
      · exact Document.forall_references_iff.mp fun reference hmem =>
          hknown (List.subset_append_right _ _) _ (hsource.references reference hmem)
    exact Document.forall_references_iff.mpr hreferences
  · -- Whatever has been settled, the last step drops the configs of other scalars.
    obtain ⟨-, settled, hscalars⟩ := mergeBundles_retains Policy.rightWins target source
    intro scalar hscalar
    rw [hscalars] at hscalar
    exact mem_keys_retainScalars hscalar

/-- Two bundles whose registries can be built, and whose texts stand for their documents, are merged into
one whose registry can be built, if the target has each of its types in one kind.  What either
registry defines, the merged one does. -/
theorem merge_buildsRegistry {target source : Bundle R S} {left right : Registry S}
    (htarget : target.Readable) (hsource : source.Readable)
    (hleft : target.registry = .ok left) (hright : source.registry = .ok right)
    (hkind : OneKind target.document.definitions) :
    ∃ merged, (merge Policy.rightWins (.bundle target) (.bundle source)).value = .ok merged ∧
      ∃ registry, merged.registry = .ok registry ∧
        ∀ type, left.defines type ∨ right.defines type → registry.defines type := by
  have hleftBuildable := Registry.buildable_of_build hleft
  have hrightBuildable := Registry.buildable_of_build hright
  obtain ⟨hbuildable, hdefined⟩ := buildable_mergeBundles hleftBuildable hrightBuildable hkind
  refine ⟨_, value_merge Policy.rightWins (htarget.toDocument _ _) (hsource.toDocument _ _), _,
    hbuildable.build, ?_⟩
  obtain rfl := Except.ok.inj (hleftBuildable.build.symm.trans hleft)
  obtain rfl := Except.ok.inj (hrightBuildable.build.symm.trans hright)
  intro type htype
  simp only [Registry.defines, List.contains_eq_mem, decide_eq_true_eq, List.mem_append] at htype ⊢
  rcases htype with (hown | hbuiltin) | (hown | hbuiltin)
  · exact .inl (hdefined (List.mem_append_left _ hown))
  · exact .inr hbuiltin
  · exact .inl (hdefined (List.mem_append_right _ hown))
  · exact .inr hbuiltin

/-- Both sides extend a type, the source has a type in another kind than the target, and each side has a
config of its own. -/
theorem merge_kindsDiffer_buildsRegistry :
    let target : Bundle Unit Nat :=
      ⟨⟨[.type ⟨none, "Date", [], .scalar⟩,
        .type ⟨none, "Query", [], .object [] [⟨none, "now", [], .named "Date", []⟩]⟩,
        .extension ⟨"Query", [], .object [] [⟨none, "user", [], .named "User", []⟩]⟩,
        .type ⟨none, "User", [], .object [] [⟨none, "id", [], .named "ID", []⟩]⟩]⟩, ∅,
        .ofList [("Date", 1)]⟩
    let source : Bundle Unit Nat :=
      ⟨⟨[.type ⟨none, "User", [], .union ["Robot"]⟩,
        .type ⟨none, "Robot", [], .object [] [⟨none, "made", [], .named "Stamp", []⟩]⟩,
        .extension ⟨"Robot", [], .object [] [⟨none, "owner", [], .named "User", []⟩]⟩,
        .type ⟨none, "Stamp", [], .scalar⟩]⟩, ∅, .ofList [("Stamp", 2)]⟩
    ∃ merged, (merge Policy.rightWins (.bundle target) (.bundle source)).value = .ok merged ∧
      ∃ registry, merged.registry = .ok registry ∧
        ∀ type, Registry.defines ⟨.ofDocument target.document, target.scalars,
            target.document.definedTypes ++ builtinScalars⟩ type ∨
          Registry.defines ⟨.ofDocument source.document, source.scalars,
            source.document.definedTypes ++ builtinScalars⟩ type →
          registry.defines type :=
  merge_buildsRegistry (by decide +kernel) (by decide +kernel)
    (Registry.Buildable.build ⟨by decide +kernel, by decide +kernel, by decide +kernel⟩)
    (Registry.Buildable.build ⟨by decide +kernel, by decide +kernel, by decide +kernel⟩)
    (by decide +kernel)

end SchemaAlgebra
