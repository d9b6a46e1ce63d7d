import SchemaAlgebra.Proofs.MergedRegistry

/-!
# Which documents have a registry

A registry can be built of a document with configs exactly if the document is consistent: no two type
definitions share a name, every type that is named in a field, an argument, an input field or a union, in
definitions and extensions alike, is defined or built in, and every config is one of a scalar that is
defined.

Otherwise the first violation is reported.  The three conditions are checked in this order, and each of them
in the order of the document or of the configs, where a field's own type comes before those of its arguments.
`Registry.Rejects` says this without any list of references: it takes the document apart at the place of the
violation.

## Main statements

* `FirstViolation.flatMap_iff`: the first violation in a list of lists.
* `Definition.violates_iff`: the first unknown type that a definition names is its first such reference.
* `Registry.build_succeeds_or_rejects`: when a registry is built, and which error is reported otherwise.
-/

namespace SchemaAlgebra

variable {S : Type}

/-! ## Consistent documents -/

/-- A name stands at the core of a type reference, under any nesting of lists and non-null marks. -/
inductive TypeRef.Names (type : String) : TypeRef → Prop where
  | named : Names type (.named type)
  | list {element : TypeRef} : Names type element → Names type (.list element)
  | nonNull {inner : TypeRef} : Names type inner → Names type (.nonNull inner)

theorem TypeRef.Names.core (reference : TypeRef) : reference.Names reference.core := by
  induction reference with
  | named name => exact .named
  | list element ih => exact .list ih
  | nonNull inner ih => exact .nonNull ih

theorem TypeRef.names_iff {type : String} {reference : TypeRef} :
    reference.Names type ↔ reference.core = type := by
  constructor
  · intro h
    induction h with
    | named => rfl
    | list _ ih => exact ih
    | nonNull _ ih => exact ih
  · rintro rfl
    exact .core reference

/-- No two type definitions share a name. -/
def TypesOnce (definitions : List Definition) : Prop :=
  definitions.Pairwise fun earlier later =>
    ∀ left, earlier = .type left → ∀ right, later = .type right → left.name ≠ right.name

namespace Document

/-- A type that can be referred to: it has a definition or is a built-in scalar. -/
def Knows (document : Document) (type : String) : Prop :=
  (∃ definition, .type definition ∈ document.definitions ∧ definition.name = type) ∨
    type ∈ builtinScalars

/-- A name that a scalar definition has. -/
def DefinesScalar (document : Document) (name : String) : Prop :=
  ∃ definition, .type definition ∈ document.definitions ∧ definition.kind = .scalar ∧
    definition.name = name

/-- A document that a registry with configs can be built of. -/
structure Consistent (document : Document) (configs : OrderedMap String S) : Prop where
  typesOnce : TypesOnce document.definitions
  outputFields : ∀ definition ∈ document.definitions, ∀ body, definition.body? = some body →
    ∀ field ∈ body.outputFields, ∀ type, field.type.Names type → document.Knows type
  fieldArguments : ∀ definition ∈ document.definitions, ∀ body, definition.body? = some body →
    ∀ field ∈ body.outputFields, ∀ argument ∈ field.arguments, ∀ type, argument.type.Names type →
      document.Knows type
  inputFields : ∀ definition ∈ document.definitions, ∀ body, definition.body? = some body →
    ∀ field ∈ body.inputFields, ∀ type, field.type.Names type → document.Knows type
  unionMembers : ∀ definition ∈ document.definitions, ∀ body, definition.body? = some body →
    ∀ member ∈ body.unionMembers, document.Knows member
  directiveArguments : ∀ definition, .directive definition ∈ document.definitions →
    ∀ argument ∈ definition.arguments, ∀ type, argument.type.Names type → document.Knows type
  configs : ∀ scalar ∈ configs.keys, document.DefinesScalar scalar

end Document

/-! ## First violations -/

/-- An item of a list is in violation, and none before it is. -/
def FirstViolation {ι : Type} (violates : ι → RegistryError → Prop) (items : List ι)
    (error : RegistryError) : Prop :=
  ∃ before item after, items = before ++ item :: after ∧
    (∀ earlier ∈ before, ∀ other, ¬ violates earlier other) ∧ violates item error

/-- An argument or an input field names an unknown type. -/
def InputValue.Violates (known : String → Prop) (owner : String) (input : InputValue)
    (error : RegistryError) : Prop :=
  ∃ type, input.type.Names type ∧ ¬ known type ∧
    error = .undefinedTypeReference (owner ++ "(" ++ input.name ++ ")") type

/-- An output field names an unknown type, or else one of its arguments does. -/
inductive Field.Violates (known : String → Prop) (owner : String) (field : Field) :
    RegistryError → Prop where
  | ownType {type : String} : field.type.Names type → ¬ known type →
      Violates known owner field (.undefinedTypeReference (owner ++ "." ++ field.name) type)
  | argument {type : String} {error : RegistryError} : field.type.Names type → known type →
      FirstViolation (InputValue.Violates known (owner ++ "." ++ field.name)) field.arguments error →
      Violates known owner field error

/-- A body names an unknown type.  The interfaces that it implements do not count. -/
def TypeBody.Violates (known : String → Prop) (owner : String) : TypeBody → RegistryError → Prop
  | .object _ fields | .interface _ fields => FirstViolation (Field.Violates known owner) fields
  | .inputObject fields => FirstViolation (InputValue.Violates known owner) fields
  | .union members => FirstViolation
      (fun member error => ¬ known member ∧ error = .undefinedTypeReference ("union " ++ owner) member)
      members
  | .scalar | .enum _ => fun _ => False

/-- A definition or extension names an unknown type. -/
def Definition.Violates (known : String → Prop) : Definition → RegistryError → Prop
  | .type definition => definition.body.Violates known definition.name
  | .extension node => node.body.Violates known node.name
  | .directive definition =>
    FirstViolation (InputValue.Violates known ("@" ++ definition.name)) definition.arguments
  | .schema _ => fun _ => False

/-- The error that is reported of a document with configs. -/
inductive Registry.Rejects (document : Document) (configs : OrderedMap String S) :
    RegistryError → Prop where
  /-- A type definition repeats the name of an earlier one, and none before it does so. -/
  | duplicate {before after : List Definition} {definition : TypeDefinition} :
      document.definitions = before ++ .type definition :: after → TypesOnce before →
      (∃ earlier, .type earlier ∈ before ∧ earlier.name = definition.name) →
      Rejects document configs (.duplicateTypeDefinition definition.name)
  | reference {error : RegistryError} : TypesOnce document.definitions →
      FirstViolation (Definition.Violates document.Knows) document.definitions error →
      Rejects document configs error
  | config {error : RegistryError} : TypesOnce document.definitions →
      (∀ definition ∈ document.definitions, ∀ other, ¬ definition.Violates document.Knows other) →
      FirstViolation
        (fun scalar error => ¬ document.DefinesScalar scalar ∧ error = .configForUndefinedScalar scalar)
        configs.keys error →
      Rejects document configs error

namespace FirstViolation

variable {ι κ : Type} {violates : ι → RegistryError → Prop} {error : RegistryError}

theorem nil_iff : FirstViolation violates [] error ↔ False := by
  constructor
  · rintro ⟨before, item, after, h, -⟩
    exact absurd h.symm (by simp)
  · exact False.elim

theorem cons_iff {item : ι} {rest : List ι} :
    FirstViolation violates (item :: rest) error ↔
      violates item error ∨ (∀ other, ¬ violates item other) ∧ FirstViolation violates rest error := by
  constructor
  · rintro ⟨before, found, after, hsplit, hbefore, hfound⟩
    cases before with
    | nil =>
      obtain ⟨rfl, rfl⟩ := List.cons.inj hsplit
      exact .inl hfound
    | cons first before =>
      obtain ⟨rfl, rfl⟩ := List.cons.inj hsplit
      obtain ⟨hfirst, hbefore⟩ := List.forall_mem_cons.mp hbefore
      exact .inr ⟨hfirst, before, found, after, rfl, hbefore, hfound⟩
  · rintro (hitem | ⟨hitem, before, found, after, rfl, hbefore, hfound⟩)
    · exact ⟨[], item, rest, rfl, fun _ h => absurd h List.not_mem_nil, hitem⟩
    · exact ⟨item :: before, found, after, rfl, List.forall_mem_cons.mpr ⟨hitem, hbefore⟩, hfound⟩

/-- There is a first violation if there is one at all. -/
theorem none_iff {items : List ι} :
    (∀ other, ¬ FirstViolation violates items other) ↔ ∀ item ∈ items, ∀ other, ¬ violates item other := by
  induction items with
  | nil => simp [nil_iff]
  | cons item rest ih =>
    rw [List.forall_mem_cons, ← ih]
    constructor
    · intro h
      have hitem : ∀ other, ¬ violates item other := fun other hother =>
        h other (cons_iff.mpr (.inl hother))
      exact ⟨hitem, fun other hother => h other (cons_iff.mpr (.inr ⟨hitem, hother⟩))⟩
    · rintro ⟨hitem, hrest⟩ other hother
      rcases cons_iff.mp hother with h | ⟨-, h⟩
      · exact hitem other h
      · exact hrest other h

theorem append_iff {front back : List ι} :
    FirstViolation violates (front ++ back) error ↔ FirstViolation violates front error ∨
      (∀ other, ¬ FirstViolation violates front other) ∧ FirstViolation violates back error := by
  induction front with
  | nil => simp [nil_iff]
  | cons item rest ih =>
    have hnone : (∀ other, ¬ FirstViolation violates (item :: rest) other) ↔
        (∀ other, ¬ violates item other) ∧ ∀ other, ¬ FirstViolation violates rest other := by
      rw [none_iff, none_iff, List.forall_mem_cons]
    rw [List.cons_append, cons_iff, cons_iff, ih, hnone]
    tauto

/-- The first violation in a list of lists is the first one in the first list that has one. -/
theorem flatMap_iff {items : List κ} {parts : κ → List ι} {violatesAbove : κ → RegistryError → Prop}
    (h : ∀ item error, violatesAbove item error ↔ FirstViolation violates (parts item) error) :
    FirstViolation violatesAbove items error ↔
      FirstViolation violates (items.flatMap parts) error := by
  induction items with
  | nil => simp [nil_iff]
  | cons item rest ih =>
    simp only [List.flatMap_cons, append_iff, cons_iff, ih, h]

theorem map_iff {items : List κ} {part : κ → ι} {violatesAbove : κ → RegistryError → Prop}
    (h : ∀ item error, violatesAbove item error ↔ violates (part item) error) :
    FirstViolation violatesAbove items error ↔ FirstViolation violates (items.map part) error := by
  rw [List.map_eq_flatMap]
  refine flatMap_iff fun item error => ?_
  rw [h, cons_iff, nil_iff, and_false, or_false]

end FirstViolation

/-! ## The references of a definition -/

/-- A reference is to an unknown type. -/
def Reference.Violates (known : String → Prop) (reference : Reference) (error : RegistryError) : Prop :=
  ¬ known reference.type ∧ error = .undefinedTypeReference reference.referrer reference.type

section References

variable {known : String → Prop} {error : RegistryError}

theorem Reference.none_violates_iff {reference : Reference} :
    (∀ other, ¬ reference.Violates known other) ↔ known reference.type := by
  constructor
  · exact fun h => by_contra fun hunknown => h _ ⟨hunknown, rfl⟩
  · exact fun hknown _ h => h.1 hknown

theorem InputValue.violates_iff (owner : String) (input : InputValue) :
    input.Violates known owner error ↔
      Reference.Violates known ⟨owner ++ "(" ++ input.name ++ ")", input.type.core⟩ error := by
  simp only [InputValue.Violates, TypeRef.names_iff, exists_eq_left', Reference.Violates]

theorem firstViolation_inputReferences_iff (owner : String) (inputs : List InputValue) :
    FirstViolation (InputValue.Violates known owner) inputs error ↔
      FirstViolation (Reference.Violates known) (inputReferences owner inputs) error :=
  FirstViolation.map_iff fun input _ => input.violates_iff owner

theorem Field.violates_iff (owner : String) (field : Field) :
    field.Violates known owner error ↔
      FirstViolation (Reference.Violates known) (fieldReferences owner field) error := by
  rw [fieldReferences, FirstViolation.cons_iff, Reference.none_violates_iff,
    ← firstViolation_inputReferences_iff]
  constructor
  · rintro (⟨hnames, hunknown⟩ | ⟨hnames, hknown, hargument⟩)
    · exact .inl ⟨TypeRef.names_iff.mp hnames ▸ hunknown, by rw [TypeRef.names_iff.mp hnames]⟩
    · exact .inr ⟨TypeRef.names_iff.mp hnames ▸ hknown, hargument⟩
  · rintro (⟨hunknown, rfl⟩ | ⟨hknown, hargument⟩)
    · exact .ownType (TypeRef.names_iff.mpr rfl) hunknown
    · exact .argument (TypeRef.names_iff.mpr rfl) hknown hargument

theorem TypeBody.violates_iff (owner : String) (body : TypeBody) :
    body.Violates known owner error ↔
      FirstViolation (Reference.Violates known) (bodyReferences owner body) error := by
  cases body with
  | scalar => exact FirstViolation.nil_iff.symm
  | object interfaces fields => exact FirstViolation.flatMap_iff fun field _ => field.violates_iff owner
  | interface interfaces fields => exact FirstViolation.flatMap_iff fun field _ => field.violates_iff owner
  | union members => exact FirstViolation.map_iff fun _ _ => Iff.rfl
  | enum values => exact FirstViolation.nil_iff.symm
  | inputObject fields => exact firstViolation_inputReferences_iff owner fields

/-- The first unknown type that a definition names is that of its first reference to one. -/
theorem Definition.violates_iff (definition : Definition) (error : RegistryError) :
    definition.Violates known error ↔
      FirstViolation (Reference.Violates known) definition.references error := by
  cases definition with
  | schema definition => exact FirstViolation.nil_iff.symm
  | type definition => exact definition.body.violates_iff definition.name
  | extension node => exact node.body.violates_iff node.name
  | directive definition => exact firstViolation_inputReferences_iff _ definition.arguments

end References

/-- A search finds the first item in violation. -/
theorem firstViolation_iff_find? {ι : Type} {bad : ι → Bool} {violates : ι → RegistryError → Prop}
    {report : ι → RegistryError}
    (h : ∀ item error, violates item error ↔ bad item = true ∧ error = report item) {items : List ι}
    {error : RegistryError} :
    FirstViolation violates items error ↔ ∃ item, items.find? bad = some item ∧ error = report item := by
  have hpasses : ∀ item, (∀ other, ¬ violates item other) ↔ bad item = false := by
    intro item
    simp [h]
  simp only [FirstViolation, List.find?_eq_some_iff_append, hpasses, Bool.not_eq_true']
  simp only [h]
  constructor
  · rintro ⟨before, item, after, hsplit, hbefore, hbad, herror⟩
    exact ⟨item, ⟨hbad, before, after, hsplit, hbefore⟩, herror⟩
  · rintro ⟨item, ⟨hbad, before, after, hsplit, hbefore⟩, herror⟩
    exact ⟨before, item, after, hsplit, hbefore, hbad, herror⟩

/-! ## The three checks -/

/-- The first repeated name has a place behind names that do not repeat any. -/
theorem firstRepeated?_eq_some_iff {seen names : List String} {name : String} :
    firstRepeated? seen names = some name ↔
      ∃ front back, names = front ++ name :: back ∧ firstRepeated? seen front = none ∧
        (name ∈ front ∨ name ∈ seen) := by
  induction names generalizing seen with
  | nil => simp [firstRepeated?]
  | cons first rest ih =>
    by_cases hseen : first ∈ seen
    · have hfound : firstRepeated? seen (first :: rest) = some first := by simp [firstRepeated?, hseen]
      rw [hfound]
      constructor
      · rintro ⟨⟩
        exact ⟨[], rest, rfl, rfl, .inr hseen⟩
      · rintro ⟨front, back, hsplit, hfront, -⟩
        cases front with
        | nil => exact congrArg some (List.cons.inj hsplit).1
        | cons other front =>
          obtain ⟨rfl, -⟩ := List.cons.inj hsplit
          simp [firstRepeated?, hseen] at hfront
    · have hstep : ∀ more, firstRepeated? seen (first :: more) = firstRepeated? (first :: seen) more := by
        intro more
        simp [firstRepeated?, hseen]
      rw [hstep, ih]
      constructor
      · rintro ⟨front, back, rfl, hfront, hagain⟩
        refine ⟨first :: front, back, rfl, (hstep front).trans hfront, ?_⟩
        rw [List.mem_cons] at hagain ⊢
        tauto
      · rintro ⟨front, back, hsplit, hfront, hagain⟩
        cases front with
        | nil =>
          obtain ⟨rfl, -⟩ := List.cons.inj hsplit
          exact absurd (hagain.resolve_left List.not_mem_nil) hseen
        | cons other front =>
          obtain ⟨rfl, rfl⟩ := List.cons.inj hsplit
          refine ⟨front, back, rfl, (hstep front).symm.trans hfront, ?_⟩
          rw [List.mem_cons] at hagain ⊢
          tauto

namespace Document

variable {document : Document}

theorem mem_typeDefinitions_iff {definition : TypeDefinition} :
    definition ∈ document.typeDefinitions ↔ .type definition ∈ document.definitions := by
  rw [typeDefinitions, List.mem_filterMap]
  constructor
  · rintro ⟨found, hmem, hfound⟩
    cases found with
    | type found => exact Option.some.inj hfound ▸ hmem
    | schema found => cases hfound
    | extension found => cases hfound
    | directive found => cases hfound
  · exact fun hmem => ⟨_, hmem, rfl⟩

theorem mem_definedTypes_iff {type : String} :
    type ∈ document.definedTypes ↔
      ∃ definition, .type definition ∈ document.definitions ∧ definition.name = type := by
  simp only [definedTypes, List.mem_map, mem_typeDefinitions_iff]

theorem knows_iff {type : String} :
    document.Knows type ↔ type ∈ document.definedTypes ++ builtinScalars := by
  rw [List.mem_append, mem_definedTypes_iff, Knows]

theorem definesScalar_iff {name : String} :
    document.DefinesScalar name ↔ name ∈ document.definedScalars := mem_definedScalars.symm

theorem typesOnce_iff (definitions : List Definition) :
    TypesOnce definitions ↔ (definedTypes ⟨definitions⟩).Nodup := by
  rw [definedTypes, List.Nodup, List.pairwise_map, typeDefinitions, List.pairwise_filterMap, TypesOnce]
  apply iff_of_eq
  congr 1
  funext earlier later
  cases earlier <;> cases later <;> simp

/-- A place among the names of the type definitions is that of a type definition. -/
theorem exists_split_of_definedTypes {definitions : List Definition} {front back : List String}
    {name : String} (h : definedTypes ⟨definitions⟩ = front ++ name :: back) :
    ∃ before definition after, definitions = before ++ .type definition :: after ∧
      definedTypes ⟨before⟩ = front ∧ definition.name = name := by
  induction definitions generalizing front with
  | nil => exact absurd h.symm (by simp [definedTypes, typeDefinitions])
  | cons first rest ih =>
    -- A definition that is no type definition does not count as one in front, either.
    have hskip : ∀ {other : Definition},
        (∀ more, definedTypes ⟨other :: more⟩ = definedTypes ⟨more⟩) →
        definedTypes ⟨other :: rest⟩ = front ++ name :: back →
        ∃ before definition after, other :: rest = before ++ .type definition :: after ∧
          definedTypes ⟨before⟩ = front ∧ definition.name = name := by
      intro other hother h
      rw [hother] at h
      obtain ⟨before, definition, after, rfl, hfront, hname⟩ := ih h
      exact ⟨other :: before, definition, after, rfl, (hother before).trans hfront, hname⟩
    cases first with
    | schema definition => exact hskip (fun _ => rfl) h
    | extension node => exact hskip (fun _ => rfl) h
    | directive definition => exact hskip (fun _ => rfl) h
    | type definition =>
      have hfirst : ∀ more, definedTypes ⟨.type definition :: more⟩ =
          definition.name :: definedTypes ⟨more⟩ := fun _ => rfl
      rw [hfirst] at h
      cases front with
      | nil => exact ⟨[], definition, rest, rfl, rfl, (List.cons.inj h).1⟩
      | cons other front =>
        obtain ⟨hother, hrest⟩ := List.cons.inj h
        obtain ⟨before, found, after, rfl, hfront, hname⟩ := ih hrest
        refine ⟨.type definition :: before, found, after, rfl, ?_, hname⟩
        rw [hfirst, hfront, hother]

/-- The first repeated name is that of the first type definition which repeats one. -/
theorem firstRepeated?_definedTypes_iff {type : String} :
    firstRepeated? [] document.definedTypes = some type ↔
      ∃ before definition after, document.definitions = before ++ .type definition :: after ∧
        TypesOnce before ∧ (∃ earlier, .type earlier ∈ before ∧ earlier.name = definition.name) ∧
        definition.name = type := by
  have honce : ∀ before, firstRepeated? [] (definedTypes ⟨before⟩) = none ↔ TypesOnce before := by
    intro before
    rw [firstRepeated?_eq_none_iff, typesOnce_iff]
    simp
  rw [firstRepeated?_eq_some_iff]
  constructor
  · rintro ⟨front, back, hsplit, hfront, hagain⟩
    obtain ⟨before, definition, after, hdefinitions, rfl, rfl⟩ := exists_split_of_definedTypes hsplit
    refine ⟨before, definition, after, hdefinitions, (honce before).mp hfront, ?_, rfl⟩
    exact mem_definedTypes_iff.mp (hagain.resolve_right List.not_mem_nil)
  · rintro ⟨before, definition, after, hdefinitions, hbefore, hagain, rfl⟩
    refine ⟨definedTypes ⟨before⟩, definedTypes ⟨after⟩, ?_, (honce before).mpr hbefore,
      .inl (mem_definedTypes_iff.mpr hagain)⟩
    obtain ⟨definitions⟩ := document
    obtain rfl : definitions = _ := hdefinitions
    simp [definedTypes, typeDefinitions]

/-- The types that a definition refers to are named in its body or, in that of a directive, in its
arguments. -/
theorem refersTo_iff {known : String → Prop} (definition : Definition) :
    definition.RefersTo known ↔
      (∀ body, definition.body? = some body → body.RefersTo known) ∧
        ∀ directive, definition = .directive directive →
          ∀ argument ∈ directive.arguments, known argument.type.core := by
  cases definition with
  | schema definition => simp [Definition.RefersTo, Definition.references, Definition.body?]
  | type definition =>
    simp [Definition.refersTo_type_iff, Definition.body?]
  | extension node =>
    have hbody : (Definition.extension node).RefersTo known ↔ node.body.RefersTo known :=
      (TypeBody.refersTo_iff node.name node.body).symm
    simp [hbody, Definition.body?]
  | directive directive =>
    simp [Definition.RefersTo, Definition.references, Definition.body?, inputReferences]

theorem consistent_iff {configs : OrderedMap String S} :
    document.Consistent configs ↔ Registry.Buildable document configs := by
  have hknows : (∀ reference ∈ document.references,
      reference.type ∈ document.definedTypes ++ builtinScalars) ↔
        ∀ definition ∈ document.definitions, definition.RefersTo document.Knows := by
    rw [← forall_references_iff]
    simp only [knows_iff]
  constructor
  · intro h
    refine ⟨(typesOnce_iff _).mp h.typesOnce, hknows.mpr fun definition hmem => ?_,
      fun scalar hmem => definesScalar_iff.mp (h.configs scalar hmem)⟩
    refine (refersTo_iff definition).mpr ⟨fun body hbody => ⟨?_, ?_, ?_⟩, ?_⟩
    · exact fun field hfield => ⟨h.outputFields definition hmem body hbody field hfield _ (.core _),
        fun argument hargument =>
          h.fieldArguments definition hmem body hbody field hfield argument hargument _ (.core _)⟩
    · exact fun field hfield => h.inputFields definition hmem body hbody field hfield _ (.core _)
    · exact h.unionMembers definition hmem body hbody
    · rintro directive rfl argument hargument
      exact h.directiveArguments directive hmem argument hargument _ (.core _)
  · intro h
    have hrefers := hknows.mp h.references
    have hbodies : ∀ definition ∈ document.definitions, ∀ body, definition.body? = some body →
        body.RefersTo document.Knows := fun definition hmem =>
      ((refersTo_iff definition).mp (hrefers definition hmem)).1
    refine ⟨(typesOnce_iff _).mpr h.typesOnce, ?_, ?_, ?_, ?_, ?_,
      fun scalar hmem => definesScalar_iff.mpr (h.configs scalar hmem)⟩
    · intro definition hmem body hbody field hfield type htype
      exact TypeRef.names_iff.mp htype ▸ ((hbodies definition hmem body hbody).outputFields field hfield).1
    · intro definition hmem body hbody field hfield argument hargument type htype
      exact TypeRef.names_iff.mp htype ▸
        ((hbodies definition hmem body hbody).outputFields field hfield).2 argument hargument
    · intro definition hmem body hbody field hfield type htype
      exact TypeRef.names_iff.mp htype ▸ (hbodies definition hmem body hbody).inputFields field hfield
    · intro definition hmem body hbody
      exact (hbodies definition hmem body hbody).unionMembers
    · intro directive hmem argument hargument type htype
      exact TypeRef.names_iff.mp htype ▸
        ((refersTo_iff _).mp (hrefers _ hmem)).2 directive rfl argument hargument

end Document

namespace Registry

variable (document : Document) (configs : OrderedMap String S)

/-- The search for a reference to an unknown type finds the first violation of a definition. -/
theorem firstViolation_references_iff {error : RegistryError} :
    FirstViolation (Definition.Violates document.Knows) document.definitions error ↔
      ∃ reference, (document.references.find? fun reference =>
          !(document.definedTypes ++ builtinScalars).contains reference.type) = some reference ∧
        error = .undefinedTypeReference reference.referrer reference.type := by
  rw [FirstViolation.flatMap_iff Definition.violates_iff]
  refine firstViolation_iff_find? fun reference error => ?_
  simp [Reference.Violates, Document.knows_iff]

/-- The search for a config without a scalar finds the first violation among the configs. -/
theorem firstViolation_configs_iff {error : RegistryError} :
    FirstViolation
        (fun scalar error => ¬ document.DefinesScalar scalar ∧ error = .configForUndefinedScalar scalar)
        configs.keys error ↔
      ∃ scalar, (configs.keys.find? fun scalar => !document.definedScalars.contains scalar) = some scalar ∧
        error = .configForUndefinedScalar scalar := by
  refine firstViolation_iff_find? fun scalar error => ?_
  simp [Document.definesScalar_iff]

theorem firstRepeated?_eq_none_iff_typesOnce :
    firstRepeated? [] document.definedTypes = none ↔ TypesOnce document.definitions := by
  rw [firstRepeated?_eq_none_iff, Document.typesOnce_iff]
  simp

/-- The search for an unknown type comes back with nothing exactly if no definition is in violation. -/
theorem find?_references_eq_none_iff :
    (document.references.find? fun reference =>
        !(document.definedTypes ++ builtinScalars).contains reference.type) = none ↔
      ∀ definition ∈ document.definitions, ∀ other, ¬ definition.Violates document.Knows other := by
  rw [← FirstViolation.none_iff, Option.eq_none_iff_forall_ne_some]
  simp only [firstViolation_references_iff, not_exists, not_and]
  exact ⟨fun h _ reference hfound => absurd hfound (h reference), fun h reference hfound =>
    h _ reference hfound rfl⟩

/-- The error that is reported is the first violation. -/
theorem build_eq_error_iff {error : RegistryError} :
    build document configs = .error error ↔ Rejects document configs error := by
  constructor
  · intro h
    unfold build at h
    dsimp only at h
    split at h
    next type htypes =>
      cases h
      obtain ⟨before, definition, after, hsplit, hbefore, hearlier, rfl⟩ :=
        Document.firstRepeated?_definedTypes_iff.mp htypes
      exact .duplicate hsplit hbefore hearlier
    next htypes =>
      have honce := (firstRepeated?_eq_none_iff_typesOnce document).mp htypes
      split at h
      next reference hreference =>
        cases h
        exact .reference honce ((firstViolation_references_iff document).mpr ⟨_, hreference, rfl⟩)
      next hreferences =>
        have hknown := (find?_references_eq_none_iff document).mp hreferences
        split at h
        next scalar hscalar =>
          cases h
          exact .config honce hknown ((firstViolation_configs_iff document configs).mpr
            ⟨_, hscalar, rfl⟩)
        next => cases h
  · rintro (⟨hsplit, hbefore, hearlier⟩ | ⟨honce, hviolation⟩ | ⟨honce, hknown, hviolation⟩)
    · have htypes := Document.firstRepeated?_definedTypes_iff.mpr
        ⟨_, _, _, hsplit, hbefore, hearlier, rfl⟩
      simp only [build, htypes]
    · have htypes := (firstRepeated?_eq_none_iff_typesOnce document).mpr honce
      obtain ⟨reference, hreference, rfl⟩ := (firstViolation_references_iff document).mp hviolation
      simp only [build, htypes, hreference]
    · have htypes := (firstRepeated?_eq_none_iff_typesOnce document).mpr honce
      have hreferences := (find?_references_eq_none_iff document).mpr hknown
      obtain ⟨scalar, hscalar, rfl⟩ := (firstViolation_configs_iff document configs).mp hviolation
      simp only [build, htypes, hreferences, hscalar]

/-- A registry can be built exactly if the document is consistent with the configs.  Otherwise the error is
the first violation: of a type that is defined twice, of a reference to an unknown type, or of a config
without a scalar, in this order. -/
theorem build_succeeds_or_rejects :
    ((∃ registry, build document configs = .ok registry) ↔ document.Consistent configs) ∧
      ∀ error, build document configs = .error error ↔ Rejects document configs error := by
  refine ⟨?_, fun error => build_eq_error_iff document configs⟩
  rw [Document.consistent_iff]
  exact ⟨fun ⟨_, h⟩ => buildable_of_build h, fun h => ⟨_, h.build⟩⟩

/-- A field's own type is reported before that of its argument, and both before a config without a
scalar. -/
example : build (S := Unit)
    ⟨[.extension ⟨"A", [], .object [] [⟨none, "f", [⟨none, "x", .named "X", none, []⟩],
      .list (.nonNull (.named "Y")), []⟩]⟩]⟩ (.ofList [("Z", ())]) =
    .error (.undefinedTypeReference "A.f" "Y") := rfl

end Registry

end SchemaAlgebra
