import SchemaAlgebra.Proofs.KeyedSteps
import SchemaAlgebra.Proofs.MergedResolvers
import SchemaAlgebra.Proofs.RightBiasedUnion
import SchemaAlgebra.RootTypes

/-!
# The root types of a merge

A document has its root types from its schema definitions or, without any, from the object types of the
conventional names.  A merge keeps to schema definitions: it merges the source's into the target's first
one, slot by slot.  What it makes of the conventional names follows from what it makes of those types.

So the source's root types go before the target's where both name them in the same way.  As soon as one
side has a schema definition, the conventional names of the other side count no more; and what a target
names in a second schema definition goes before what the source names.

## Main statements

* `schemas_foldl_into`, `ofSchemas_foldl_into`: the schema definitions of a merge and what they name.
* `hasKind_foldl_into`, `hasKind_foldl_into_of_absent`: whether a type has a node of a kind.
* `rootTypes_merge`: the root types of a merge.
-/

namespace SchemaAlgebra

variable {R S : Type}

/-! ## Root types -/

namespace RootTypes

/-- Root types of which the ones on the right count where the ones on the left have none. -/
def orElse (front back : RootTypes) : RootTypes where
  query := front.query.or back.query
  mutation := front.mutation.or back.mutation
  subscription := front.subscription.or back.subscription

@[simp] theorem empty_orElse (roots : RootTypes) : orElse ∅ roots = roots := rfl

@[simp] theorem orElse_empty (roots : RootTypes) : roots.orElse ∅ = roots := by
  obtain ⟨query, mutation, subscription⟩ := roots
  show orElse _ ⟨none, none, none⟩ = _
  simp only [orElse, Option.or_none]

theorem orElse_assoc (front middle back : RootTypes) :
    (front.orElse middle).orElse back = front.orElse (middle.orElse back) := by
  simp only [orElse, Option.or_assoc]

/-- Naming root types puts them over the earlier ones. -/
theorem update_eq_orElse (roots : RootTypes) (schema : SchemaDefinition) :
    roots.update schema = (update ∅ schema).orElse roots := by
  show _ = (orElse (update ⟨none, none, none⟩ schema) roots)
  simp only [update, orElse, Option.or_none]

/-- The root types that schema definitions name; the last one that names a type for an operation counts. -/
def ofSchemas (schemas : List SchemaDefinition) : RootTypes := schemas.foldl update ∅

theorem foldl_update_eq_orElse (roots : RootTypes) (schemas : List SchemaDefinition) :
    schemas.foldl update roots = (ofSchemas schemas).orElse roots := by
  induction schemas using List.reverseRecOn with
  | nil => rfl
  | append_singleton schemas schema ih =>
    simp only [ofSchemas, List.foldl_append, List.foldl_cons, List.foldl_nil] at ih ⊢
    rw [ih, update_eq_orElse, update_eq_orElse (schemas.foldl update ∅), orElse_assoc]

/-- A merged schema definition names what the two name one after the other. -/
theorem update_override (roots : RootTypes) (left right : SchemaDefinition) :
    roots.update (left.override right) = (roots.update left).update right := by
  simp only [update, SchemaDefinition.override, Option.or_assoc]

theorem update_foldl_override (left : SchemaDefinition) (rights : List SchemaDefinition)
    (roots : RootTypes) :
    roots.update (rights.foldl SchemaDefinition.override left) =
      rights.foldl update (roots.update left) := by
  induction rights generalizing left with
  | nil => rfl
  | cons right rest ih => rw [List.foldl_cons, ih, update_override, List.foldl_cons]

/-- The root types of the conventional names that count. -/
def conventionally (counts : String → Prop) [DecidablePred counts] : RootTypes where
  query := if counts "Query" then some "Query" else none
  mutation := if counts "Mutation" then some "Mutation" else none
  subscription := if counts "Subscription" then some "Subscription" else none

end RootTypes

/-! ## Schema definitions -/

/-- The schema definitions among some definitions. -/
def schemasOf (definitions : List Definition) : List SchemaDefinition :=
  definitions.filterMap RootTypes.schema?

/-- The schema definitions are the definitions of their key. -/
theorem map_schemasOf (definitions : List Definition) :
    (schemasOf definitions).map .schema = carrying ⟨.schema, ""⟩ definitions := by
  induction definitions with
  | nil => rfl
  | cons definition rest ih =>
    rw [carrying_cons]
    cases definition with
    | schema definition => exact (congrArg (Definition.schema definition :: ·) ih)
    | type definition => exact ih
    | extension node => exact ih
    | directive definition => exact ih

/-- Merges a schema definition into the first one of a list. -/
def mergeHead (schemas : List SchemaDefinition) (right : SchemaDefinition) : List SchemaDefinition :=
  match schemas with
  | [] => [right]
  | first :: more => first.override right :: more

theorem foldl_mergeHead_cons (first : SchemaDefinition) (more rights : List SchemaDefinition) :
    rights.foldl mergeHead (first :: more) = rights.foldl SchemaDefinition.override first :: more := by
  induction rights generalizing first with
  | nil => rfl
  | cons right rest ih => exact ih _

/-- The schema definitions of a merge. -/
theorem schemas_foldl_into (target source : List Definition) :
    schemasOf (source.foldl (Operation.into .merge) target) =
      (schemasOf source).foldl mergeHead (schemasOf target) := by
  -- On schema definitions alone a step of the merge is `mergeHead`.
  have hstep : ∀ (schemas : List SchemaDefinition) (right : SchemaDefinition),
      Operation.into .merge (schemas.map .schema) (.schema right) = (mergeHead schemas right).map .schema := by
    intro schemas right
    cases schemas <;> rfl
  have hrun : ∀ rights schemas : List SchemaDefinition,
      (rights.map Definition.schema).foldl (Operation.into .merge) (schemas.map .schema) =
        (rights.foldl mergeHead schemas).map .schema := by
    intro rights
    induction rights with
    | nil => exact fun _ => rfl
    | cons right rest ih =>
      intro schemas
      rw [List.map_cons, List.foldl_cons, hstep, ih, List.foldl_cons]
  have hinjective : Function.Injective Definition.schema := fun _ _ h => Definition.schema.inj h
  apply hinjective.list_map
  rw [map_schemasOf, Operation.carrying_foldl_into, ← map_schemasOf source, ← map_schemasOf target, hrun]

/-- What the schema definitions of a merge name: the source's go into the target's first one, and the
target's later ones count before it. -/
theorem ofSchemas_foldl_into (target source : List Definition) :
    RootTypes.ofSchemas (schemasOf (source.foldl (Operation.into .merge) target)) =
      (RootTypes.ofSchemas (schemasOf target).tail).orElse
        ((RootTypes.ofSchemas (schemasOf source)).orElse
          (RootTypes.ofSchemas ((schemasOf target).take 1))) := by
  rw [schemas_foldl_into]
  generalize schemasOf source = rights
  generalize schemasOf target = lefts
  have hrun : ∀ (first : SchemaDefinition) (more later : List SchemaDefinition),
      RootTypes.ofSchemas (later.foldl mergeHead (first :: more)) =
        (RootTypes.ofSchemas more).orElse
          ((RootTypes.ofSchemas later).orElse (RootTypes.ofSchemas [first])) := by
    intro first more later
    rw [foldl_mergeHead_cons, RootTypes.ofSchemas, List.foldl_cons, RootTypes.update_foldl_override,
      RootTypes.foldl_update_eq_orElse, RootTypes.foldl_update_eq_orElse]
    rfl
  match lefts, rights with
  | [], [] => rfl
  | [], first :: rest =>
    have hall : RootTypes.ofSchemas (first :: rest) =
        (RootTypes.ofSchemas rest).orElse (RootTypes.ofSchemas [first]) :=
      RootTypes.foldl_update_eq_orElse _ rest
    show RootTypes.ofSchemas (rest.foldl mergeHead [first]) =
      ((RootTypes.ofSchemas (first :: rest)).orElse ∅)
    rw [hrun, RootTypes.orElse_empty, hall]
    exact RootTypes.empty_orElse _
  | first :: more, rights => exact hrun first more rights

/-! ## Conventional names -/

namespace TypeDefinition

/-- Some node is of a kind. -/
def HasKind (kind : TypeKind) (nodes : List TypeDefinition) : Prop := ∃ node ∈ nodes, node.kind = kind

instance (kind : TypeKind) (nodes : List TypeDefinition) : Decidable (HasKind kind nodes) :=
  inferInstanceAs (Decidable (∃ node ∈ nodes, node.kind = kind))

end TypeDefinition

open TypeDefinition (HasKind)

/-- The step: a merge changes nothing about the kinds that the nodes of a type are of. -/
theorem hasKind_mergeInto (kind : TypeKind) {name : String} {definitions : List Definition}
    (h : nodesOf name definitions ≠ []) (right : Definition) :
    let merged := nodesOf name (mergeInto TypeDefinition.override definitions right)
    merged ≠ [] ∧ (HasKind kind merged ↔ HasKind kind (nodesOf name definitions)) := by
  by_cases hkey : right.key = ⟨.type, name⟩
  · obtain ⟨node, hnode, rfl⟩ := Definition.exists_typeDefinition? hkey
    rw [mergeInto_of_typeDefinition? hnode]
    rcases nodesOf_mergeTypeInto definitions node with ⟨hnone, -⟩ | ⟨left, later, hnodes, hmerged⟩
    · exact absurd hnone h
    · rw [hmerged, hnodes]
      refine ⟨List.cons_ne_nil _ _, ?_⟩
      simp only [HasKind, List.exists_mem_cons_iff, TypeDefinition.kind_override,
        TypeDefinition.kind_gather]
      constructor
      · rintro (hleft | ⟨other, hother, hkind⟩)
        · exact .inl hleft
        · obtain ⟨definition, hmem, hsome⟩ := mem_nodesOf.mp hother
          exact .inr ⟨other, mem_nodesOf.mpr ⟨definition, (List.mem_filter.mp hmem).1, hsome⟩, hkind⟩
      · rintro (hleft | ⟨other, hother, hkind⟩)
        · exact .inl hleft
        · -- A node that is gathered with the first one is of its kind.
          obtain ⟨definition, hmem, hsome, hname⟩ := mem_nodesOf.mp hother
          cases hpiece : left.piece? definition with
          | some piece =>
            obtain ⟨hfound, hsame⟩ := Option.filter_eq_some_iff.mp hpiece
            obtain rfl := Option.some.inj (hfound.symm.trans hsome)
            exact .inl ((of_decide_eq_true hsame).2.symm.trans hkind)
          | none =>
            refine .inr ⟨other, mem_nodesOf.mpr ⟨definition, ?_, hsome, hname⟩, hkind⟩
            exact List.mem_filter.mpr ⟨hmem, by rw [hpiece]; rfl⟩
  · have huntouched := carrying_mergeInto_of_ne TypeDefinition.name_override hkey definitions
    have hsame : nodesOf name (mergeInto TypeDefinition.override definitions right) =
        nodesOf name definitions := by rw [nodesOf, huntouched, nodesOf]
    rw [hsame]
    exact ⟨h, Iff.rfl⟩

/-- The run: of a type that is there, the target settles which kinds its nodes are of. -/
theorem hasKind_foldl_into {kind : TypeKind} {name : String} {target : List Definition}
    (h : nodesOf name target ≠ []) (source : List Definition) :
    HasKind kind (nodesOf name (source.foldl (Operation.into .merge) target)) ↔
      HasKind kind (nodesOf name target) := by
  induction source generalizing target with
  | nil => exact Iff.rfl
  | cons right rest ih =>
    obtain ⟨hpresent, hsame⟩ := hasKind_mergeInto kind h right
    exact (ih hpresent).trans hsame

/-- A type that only the source has is of the kind of its first node there. -/
theorem hasKind_foldl_into_of_absent {kind : TypeKind} {name : String}
    {target source : List Definition} (h : nodesOf name target = []) :
    HasKind kind (nodesOf name (source.foldl (Operation.into .merge) target)) ↔
      ∃ first ∈ (nodesOf name source).head?, first.kind = kind := by
  have habsent : carrying ⟨.type, name⟩ target = [] := carrying_eq_nil.mpr (nodesOf_eq_nil_iff.mp h)
  rw [← nodesOf_carrying, Operation.carrying_foldl_into, habsent, ← nodesOf_carrying name source]
  cases hcarried : carrying ⟨.type, name⟩ source with
  | nil => simp [HasKind]
  | cons first rest =>
    have hkey : first.key = ⟨.type, name⟩ := (mem_carrying.mp (hcarried ▸ List.mem_cons_self)).2
    obtain ⟨node, hnode, hname⟩ := Definition.exists_typeDefinition? hkey
    -- The first definition is added in its normalized form; the others meet it there.
    have hadded : Operation.into .merge [] first = [.type node] := by
      rcases Definition.eq_of_typeDefinition? hnode with rfl | ⟨extension, rfl, rfl⟩
      · rfl
      · rfl
    have hnodes : nodesOf name [.type node] = [node] := by
      have htype : (Definition.type node).typeDefinition? = some node := rfl
      rw [nodesOf_singleton htype, if_pos hname]
    rw [List.foldl_cons, hadded, hasKind_foldl_into (by rw [hnodes]; exact List.cons_ne_nil _ _),
      hnodes, nodesOf_cons_of_node hnode hname]
    simp [HasKind]

/-- Whether a merge of two documents without schema definitions has an object type of a name.  The
target's nodes count and, if there are none, the source's first one. -/
def MergesToObject (target source : List Definition) (name : String) : Prop :=
  HasKind .object (nodesOf name target) ∨
    nodesOf name target = [] ∧ ∃ first ∈ (nodesOf name source).head?, first.kind = .object

instance (target source : List Definition) : DecidablePred (MergesToObject target source) :=
  fun name => inferInstanceAs (Decidable (_ ∨ _ ∧ ∃ first ∈ (nodesOf name source).head?, _))

theorem hasObject_foldl_into (target source : List Definition) (name : String) :
    HasKind .object (nodesOf name (source.foldl (Operation.into .merge) target)) ↔
      MergesToObject target source name := by
  by_cases h : nodesOf name target = []
  · have hnone : ¬ HasKind .object (nodesOf name target) := by simp [HasKind, h]
    rw [hasKind_foldl_into_of_absent h, MergesToObject, or_iff_right hnone]
    simp only [h, true_and]
  · rw [hasKind_foldl_into h, MergesToObject]
    simp only [h, false_and, or_false]

/-- If the nodes of a type are of one kind, the merge has an object type exactly if one side has. -/
theorem mergesToObject_iff {target source : List Definition} {name : String}
    (hkind : TypeDefinition.SameKind (nodesOf name (target ++ source))) :
    MergesToObject target source name ↔
      HasKind .object (nodesOf name source) ∨ HasKind .object (nodesOf name target) := by
  rw [nodesOf_append] at hkind
  unfold MergesToObject
  generalize nodesOf name target = lefts at hkind ⊢
  generalize nodesOf name source = rights at hkind ⊢
  constructor
  · rintro (hleft | ⟨-, first, hfirst, hobject⟩)
    · exact .inr hleft
    · exact .inl ⟨first, List.mem_of_mem_head? hfirst, hobject⟩
  · rintro (⟨node, hnode, hobject⟩ | hleft)
    · cases lefts with
      | nil =>
        have hsome := List.isSome_head?.mpr (List.ne_nil_of_mem hnode)
        obtain ⟨first, hfirst⟩ := Option.isSome_iff_exists.mp hsome
        refine .inr ⟨rfl, first, hfirst, ?_⟩
        rw [← hobject]
        exact hkind _ (List.mem_of_mem_head? hfirst) _ hnode
      | cons left lefts =>
        refine .inl ⟨left, List.mem_cons_self, ?_⟩
        rw [← hobject]
        exact hkind _ (List.mem_append_left _ List.mem_cons_self) _ (List.mem_append_right _ hnode)
    · exact .inl hleft

/-! ## Documents -/

namespace RootTypes

/-- A document with a schema definition has the root types that its schema definitions name. -/
theorem ofDocument_of_schemas {document : Document} (h : schemasOf document.definitions ≠ []) :
    ofDocument document = ofSchemas (schemasOf document.definitions) := by
  unfold ofDocument
  split
  next hnone => exact absurd hnone h
  next => rfl

/-- An object node is a type node of its name and of the object kind. -/
theorem isObjectNode_iff {name : String} {definition : Definition} :
    isObjectNode name definition = true ↔
      ∃ node, definition.typeDefinition? = some node ∧ node.name = name ∧ node.kind = .object := by
  cases definition with
  | type definition => simp [isObjectNode, Definition.typeName?, Definition.body?,
      Definition.typeDefinition?, TypeDefinition.kind]
  | extension node => simp [isObjectNode, Definition.typeName?, Definition.body?,
      Definition.typeDefinition?, TypeDefinition.kind, TypeExtension.toDefinition]
  | schema definition => simp [isObjectNode, Definition.typeName?, Definition.typeDefinition?]
  | directive definition => simp [isObjectNode, Definition.typeName?, Definition.typeDefinition?]

theorem conventional_eq (document : Document) (name : String) :
    conventional document name =
      if HasKind .object (nodesOf name document.definitions) then some name else none := by
  have hobject : document.definitions.any (isObjectNode name) = true ↔
      HasKind .object (nodesOf name document.definitions) := by
    rw [List.any_eq_true]
    constructor
    · rintro ⟨definition, hmem, hdefinition⟩
      obtain ⟨node, hnode, hname, hkind⟩ := isObjectNode_iff.mp hdefinition
      exact ⟨node, mem_nodesOf.mpr ⟨definition, hmem, hnode, hname⟩, hkind⟩
    · rintro ⟨node, hmem, hkind⟩
      obtain ⟨definition, hdefinition, hnode, hname⟩ := mem_nodesOf.mp hmem
      exact ⟨definition, hdefinition, isObjectNode_iff.mpr ⟨node, hnode, hname, hkind⟩⟩
  simp only [conventional, hobject]

/-- A document without schema definitions has the object types of the conventional names. -/
theorem ofDocument_of_no_schema {document : Document} (h : schemasOf document.definitions = []) :
    ofDocument document =
      conventionally fun name => HasKind .object (nodesOf name document.definitions) := by
  unfold ofDocument
  split
  next => simp only [conventional_eq, conventionally]
  next hsome => exact absurd h hsome

/-- Either of two names counts if one of them does. -/
theorem conventionally_orElse {front back both : String → Prop} [DecidablePred front]
    [DecidablePred back] [DecidablePred both]
    (h : ∀ name ∈ ["Query", "Mutation", "Subscription"], both name ↔ front name ∨ back name) :
    conventionally both = (conventionally front).orElse (conventionally back) := by
  have hslot : ∀ name ∈ ["Query", "Mutation", "Subscription"],
      (if both name then some name else none) =
        (if front name then some name else none).or (if back name then some name else none) := by
    intro name hmem
    have hname := h name hmem
    by_cases hfront : front name <;> by_cases hback : back name <;> simp [hname, hfront, hback]
  simp only [conventionally, orElse, hslot "Query" (by simp), hslot "Mutation" (by simp),
    hslot "Subscription" (by simp)]

end RootTypes

/-- The root types of a merge.  Schema definitions go before conventional names: if a side has one, the
root types are the ones that the target's schema definitions after the first name, then the ones that the
source's name, then the ones that the target's first one names.  Otherwise they are the conventional names
that the merge has an object type of.

So where both sides name their root types in the same way, the target in one schema definition at most and
conventional names with nodes of one kind, the source's root types go before the target's and none is
lost. -/
theorem rootTypes_merge {target source : Source R S} {left right : Document}
    (hleft : (target.toDocument .merge .target).value = .ok left)
    (hright : (source.toDocument .merge .source).value = .ok right) :
    ∃ merged : Bundle R S, (merge Policy.rightWins target source).value = .ok merged ∧
      let roots := RootTypes.ofDocument merged.document
      let leftSchemas := schemasOf left.definitions
      let rightSchemas := schemasOf right.definitions
      (leftSchemas ≠ [] ∨ rightSchemas ≠ [] →
        roots = (RootTypes.ofSchemas leftSchemas.tail).orElse
          ((RootTypes.ofSchemas rightSchemas).orElse (RootTypes.ofSchemas (leftSchemas.take 1)))) ∧
      (leftSchemas = [] ∧ rightSchemas = [] →
        roots = RootTypes.conventionally (MergesToObject left.definitions right.definitions)) ∧
      ((leftSchemas = [] ↔ rightSchemas = []) → leftSchemas.length ≤ 1 →
        (leftSchemas = [] → ∀ name ∈ ["Query", "Mutation", "Subscription"],
          TypeDefinition.SameKind (nodesOf name (left.definitions ++ right.definitions))) →
        roots = (RootTypes.ofDocument right).orElse (RootTypes.ofDocument left)) := by
  obtain ⟨merged, hmerged, hdefinitions⟩ := merge_eq_foldl_into hleft hright
  refine ⟨merged, hmerged, ?_⟩
  intro roots leftSchemas rightSchemas
  have hschemas : schemasOf merged.document.definitions = rightSchemas.foldl mergeHead leftSchemas := by
    rw [hdefinitions, schemas_foldl_into]
  have hkept : schemasOf merged.document.definitions = [] ↔ leftSchemas = [] ∧ rightSchemas = [] := by
    rw [hschemas]
    match leftSchemas, rightSchemas with
    | [], [] => simp
    | [], first :: rest => simp [mergeHead, foldl_mergeHead_cons]
    | first :: more, rights => simp [foldl_mergeHead_cons]
  have hnamed : leftSchemas ≠ [] ∨ rightSchemas ≠ [] →
      roots = (RootTypes.ofSchemas leftSchemas.tail).orElse
        ((RootTypes.ofSchemas rightSchemas).orElse (RootTypes.ofSchemas (leftSchemas.take 1))) := by
    intro hsome
    have hthere : schemasOf merged.document.definitions ≠ [] := fun hnone =>
      hsome.elim (fun h => h (hkept.mp hnone).1) fun h => h (hkept.mp hnone).2
    show RootTypes.ofDocument merged.document = _
    rw [RootTypes.ofDocument_of_schemas hthere, hdefinitions, ofSchemas_foldl_into]
  have hconventional : leftSchemas = [] ∧ rightSchemas = [] →
      roots = RootTypes.conventionally (MergesToObject left.definitions right.definitions) := by
    intro hnone
    show RootTypes.ofDocument merged.document = _
    rw [RootTypes.ofDocument_of_no_schema (hkept.mpr hnone), hdefinitions]
    simp only [RootTypes.conventionally, hasObject_foldl_into]
  refine ⟨hnamed, hconventional, ?_⟩
  intro hmode hone hkind
  by_cases hnone : leftSchemas = []
  · -- Both sides go by the conventional names.
    rw [hconventional ⟨hnone, hmode.mp hnone⟩, RootTypes.ofDocument_of_no_schema hnone,
      RootTypes.ofDocument_of_no_schema (hmode.mp hnone)]
    exact RootTypes.conventionally_orElse fun name hmem => mergesToObject_iff (hkind hnone name hmem)
  · have hsome : rightSchemas ≠ [] := fun h => hnone (hmode.mpr h)
    have htail : leftSchemas.tail = [] := by
      rw [← List.drop_one, List.drop_eq_nil_of_le hone]
    have htake : leftSchemas.take 1 = leftSchemas := List.take_of_length_le hone
    rw [hnamed (.inl hnone), htail, htake, RootTypes.ofDocument_of_schemas hnone,
      RootTypes.ofDocument_of_schemas hsome]
    exact RootTypes.empty_orElse _

/-- A source that names its root types in two schema definitions. -/
theorem rootTypes_merge_schemas :
    ∃ merged : Bundle Unit Unit,
      (merge Policy.rightWins (.sdl "schema { query: Q mutation: M }")
        (.sdl "schema { query: R } schema { subscription: S }")).value = .ok merged ∧
      RootTypes.ofDocument merged.document = ⟨some "R", some "M", some "S"⟩ := by
  have hleft : ((.sdl "schema { query: Q mutation: M }" : Source Unit Unit).toDocument .merge
      .target).value = .ok ⟨[.schema ⟨[], some "Q", some "M", none⟩]⟩ := by
    decide +kernel
  have hright : ((.sdl "schema { query: R } schema { subscription: S }" :
      Source Unit Unit).toDocument .merge .source).value =
        .ok ⟨[.schema ⟨[], some "R", none, none⟩, .schema ⟨[], none, none, some "S"⟩]⟩ := by
    decide +kernel
  obtain ⟨merged, hmerged, -, -, hroots⟩ := rootTypes_merge hleft hright
  have hnamed : schemasOf [.schema ⟨[], some "Q", some "M", none⟩] ≠ [] := by decide
  refine ⟨merged, hmerged, (hroots (by decide) (by decide) fun hnone => absurd hnone hnamed).trans ?_⟩
  decide

/-- Three ways to lose a root type.  A mutation type that the target has by its conventional name is lost
to a source with a schema definition, the source's query type is lost to a target with a second schema
definition, and to a target with a scalar of the conventional name. -/
theorem rootTypes_merge_losesRoots :
    let rootsOf (sdl : String) : Except SourceError RootTypes :=
      ((.sdl sdl : Source Unit Unit).toDocument .merge .target).value.map RootTypes.ofDocument
    let rootsOfMerge (target source : String) : Except SourceError RootTypes :=
      (merge Policy.rightWins (.sdl target : Source Unit Unit) (.sdl source)).value.map
        fun merged => RootTypes.ofDocument merged.document
    (rootsOf "type Query { a: Int } type Mutation { m: Int }" =
        .ok ⟨some "Query", some "Mutation", none⟩ ∧
      rootsOf "schema { query: Q } type Q { b: Int }" = .ok ⟨some "Q", none, none⟩ ∧
      rootsOfMerge "type Query { a: Int } type Mutation { m: Int }"
        "schema { query: Q } type Q { b: Int }" = .ok ⟨some "Q", none, none⟩) ∧
    (rootsOf "schema { query: A } schema { query: B }" = .ok ⟨some "B", none, none⟩ ∧
      rootsOf "schema { query: C }" = .ok ⟨some "C", none, none⟩ ∧
      rootsOfMerge "schema { query: A } schema { query: B }" "schema { query: C }" =
        .ok ⟨some "B", none, none⟩) ∧
    (rootsOf "scalar Query" = .ok ⟨none, none, none⟩ ∧
      rootsOf "type Query { a: Int }" = .ok ⟨some "Query", none, none⟩ ∧
      rootsOfMerge "scalar Query" "type Query { a: Int }" = .ok ⟨none, none, none⟩) := by
  decide +kernel

end SchemaAlgebra
