import SchemaAlgebra.Proofs.NestedWords
import SchemaAlgebra.Proofs.ParsedNodes

/-!
# Legible nodes

A node is legible at some depth if it can be written there and is read back as it was.  A node is
legible exactly if its parts are, so a node that is put together from parts of legible nodes is
legible as well, no matter which of them the parts come from.

## Main statements

* `TypeExtension.legible_iff`, `Definition.legible_type_iff`, `Definition.legible_schema_iff`: nodes
  and their parts.
* `Document.parse_print_iff`: a document is read back from its text exactly if its definitions are
  legible.
-/

namespace SchemaAlgebra

/-! ## Forms -/

/-- How the nodes of some sort are written and read. -/
structure Form (ι : Type) where
  /-- The names in a node are names, and it can be written. -/
  WellFormed : ι → Prop
  words : ι → List Word
  reread : ι → Option ι
  balanced : ∀ node, Balanced (words node)

namespace Form

variable {ι : Type} {form : Form ι} {depth : Nat}

/-- A node is read back as it was where the brackets around it nest to some depth. -/
structure Legible (form : Form ι) (depth : Nat) (node : ι) : Prop where
  wellFormed : form.WellFormed node
  fits : Fits depth (form.words node)
  reread : form.reread node = some node

theorem mapM_eq_self_iff {nodes : List ι} {reread : ι → Option ι} :
    nodes.mapM reread = some nodes ↔ ∀ node ∈ nodes, reread node = some node := by
  refine ⟨fun h => ?_, mapM_eq_self⟩
  induction nodes with
  | nil => exact List.forall_mem_nil _
  | cons first rest ih =>
    rw [mapM_cons_eq] at h
    obtain ⟨found, hfirst, hrest⟩ := Option.bind_eq_some_iff.mp h
    obtain ⟨others, hothers, heq⟩ := Option.map_eq_some_iff.mp hrest
    obtain ⟨rfl, rfl⟩ := List.cons.inj heq
    exact List.forall_mem_cons.mpr ⟨hfirst, ih hothers⟩

/-- The nodes of a list are legible if the list is read back from their words as a whole. -/
theorem forall_legible_iff {nodes : List ι} :
    (∀ node ∈ nodes, form.Legible depth node) ↔
      (∀ node ∈ nodes, form.WellFormed node) ∧ Fits depth (nodes.flatMap form.words) ∧
        nodes.mapM form.reread = some nodes := by
  rw [Balanced.fits_flatMap_iff fun node _ => form.balanced node, mapM_eq_self_iff]
  constructor
  · intro h
    exact ⟨fun node hmem => (h node hmem).wellFormed, fun node hmem => (h node hmem).fits,
      fun node hmem => (h node hmem).reread⟩
  · rintro ⟨hwellFormed, hfits, hreread⟩ node hmem
    exact ⟨hwellFormed node hmem, hfits node hmem, hreread node hmem⟩

end Form

/-! ## Members -/

/-- Descriptions in lines that start at a column. -/
def descriptionForm (column : Nat) : Form (Option String) :=
  ⟨fun _ => True, descriptionWords column, rereadDescription column, balanced_descriptionWords column⟩

/-- Directive applications in lines that start at a column. -/
def Directive.form (column : Nat) : Form Directive :=
  ⟨Directive.WellFormed, words column, Directive.reread column, Directive.balanced column⟩

/-- Output fields in lines that start at a column. -/
def Field.form (column : Nat) : Form Field :=
  ⟨Field.WellFormed, words column, Field.reread column, Field.balanced column⟩

/-- Enum values in lines that start at a column. -/
def EnumValue.form (column : Nat) : Form EnumValue :=
  ⟨EnumValue.WellFormed, words column, EnumValue.reread column, EnumValue.balanced column⟩

/-- Input fields in lines that start at a column. -/
def InputValue.form (column : Nat) : Form InputValue :=
  ⟨InputValue.WellFormed, words column, InputValue.reread column, InputValue.balanced column⟩

/-! ## Type nodes -/

/-- The names in a body are names, and its members are legible. -/
structure TypeBody.Legible (body : TypeBody) : Prop where
  interfaces : ∀ name ∈ body.interfaces, isName name
  outputFields : ∀ field ∈ body.outputFields, (Field.form indentWidth).Legible 1 field
  unionMembers : ∀ name ∈ body.unionMembers, isName name
  enumValues : ∀ value ∈ body.enumValues, (EnumValue.form indentWidth).Legible 1 value
  inputFields : ∀ field ∈ body.inputFields, (InputValue.form indentWidth).Legible 1 field

namespace TypeBody

variable {body : TypeBody}

/-- The members of a type stand in braces, or they are names and nest nothing. -/
theorem fits_memberWords_iff :
    Fits 0 body.memberWords ↔
      (∀ field ∈ body.outputFields, Fits 1 (field.words indentWidth)) ∧
        (∀ value ∈ body.enumValues, Fits 1 (value.words indentWidth)) ∧
          ∀ field ∈ body.inputFields, Fits 1 (field.words indentWidth) := by
  have hnothing : ∀ {ι : Type} {property : ι → Prop}, ∀ node ∈ ([] : List ι), property node :=
    List.forall_mem_nil _
  have hbraces : ∀ {ι : Type} (form : Form ι) (nodes : List ι),
      Fits 0 (enclosedWords .braceOpen .braceClose form.words nodes) ↔
        ∀ node ∈ nodes, Fits 1 (form.words node) := fun form nodes =>
    Balanced.fits_enclosedWords_iff paired_braces (by decide) fun node _ => form.balanced node
  cases body with
  | scalar => exact ⟨fun _ => ⟨hnothing, hnothing, hnothing⟩, fun _ => fits_nil 0⟩
  | object _ fields =>
    exact (hbraces (Field.form indentWidth) fields).trans
      ⟨fun h => ⟨h, hnothing, hnothing⟩, fun h => h.1⟩
  | interface _ fields =>
    exact (hbraces (Field.form indentWidth) fields).trans
      ⟨fun h => ⟨h, hnothing, hnothing⟩, fun h => h.1⟩
  | union members =>
    exact ⟨fun _ => ⟨hnothing, hnothing, hnothing⟩, fun _ => fits_ledWords rfl rfl members 0⟩
  | enum values =>
    exact (hbraces (EnumValue.form indentWidth) values).trans
      ⟨fun h => ⟨hnothing, h, hnothing⟩, fun h => h.2.1⟩
  | inputObject fields =>
    exact (hbraces (InputValue.form indentWidth) fields).trans
      ⟨fun h => ⟨hnothing, hnothing, h⟩, fun h => h.2.2⟩

theorem reread_eq_self_iff :
    body.reread = some body ↔
      (∀ field ∈ body.outputFields, field.reread indentWidth = some field) ∧
        (∀ value ∈ body.enumValues, value.reread indentWidth = some value) ∧
          ∀ field ∈ body.inputFields, field.reread indentWidth = some field := by
  cases body <;>
    simp [reread, outputFields, enumValues, inputFields, ← Form.mapM_eq_self_iff]

/-- A body is legible exactly if its members are. -/
theorem legible_iff :
    body.Legible ↔ body.WellFormed ∧ Fits 0 body.memberWords ∧ body.reread = some body := by
  rw [fits_memberWords_iff, reread_eq_self_iff]
  constructor
  · intro h
    refine ⟨⟨h.interfaces, ?_, h.unionMembers, ?_, ?_⟩, ⟨?_, ?_, ?_⟩, ?_, ?_, ?_⟩
    · exact fun field hmem => (h.outputFields field hmem).wellFormed
    · exact fun value hmem => (h.enumValues value hmem).wellFormed
    · exact fun field hmem => (h.inputFields field hmem).wellFormed
    · exact fun field hmem => (h.outputFields field hmem).fits
    · exact fun value hmem => (h.enumValues value hmem).fits
    · exact fun field hmem => (h.inputFields field hmem).fits
    · exact fun field hmem => (h.outputFields field hmem).reread
    · exact fun value hmem => (h.enumValues value hmem).reread
    · exact fun field hmem => (h.inputFields field hmem).reread
  · rintro ⟨hwellFormed, ⟨hfields, hvalues, hinputs⟩, hfieldsBack, hvaluesBack, hinputsBack⟩
    exact {
      interfaces := hwellFormed.interfaces
      outputFields := fun field hmem =>
        ⟨hwellFormed.outputFields field hmem, hfields field hmem, hfieldsBack field hmem⟩
      unionMembers := hwellFormed.unionMembers
      enumValues := fun value hmem =>
        ⟨hwellFormed.enumValues value hmem, hvalues value hmem, hvaluesBack value hmem⟩
      inputFields := fun field hmem =>
        ⟨hwellFormed.inputFields field hmem, hinputs field hmem, hinputsBack field hmem⟩ }

end TypeBody

namespace TypeExtension

/-- The name and the parts of a type node are legible. -/
structure Legible (node : TypeExtension) : Prop where
  name : isName node.name
  directives : ∀ directive ∈ node.directives, (Directive.form 0).Legible 0 directive
  body : node.body.Legible

/-- The keyword, the name and the interfaces of a type node nest nothing. -/
theorem fits_words_iff {node : TypeExtension} :
    Fits 0 node.words ↔
      Fits 0 (directivesWords 0 node.directives) ∧ Fits 0 node.body.memberWords := by
  rw [words, fits_cons rfl, fits_cons rfl, (balanced_interfacesWords _).fits_append_iff,
    (balanced_directivesWords 0 _).fits_append_iff]
  exact ⟨fun h => h.2, fun h => ⟨fits_ledWords rfl rfl _ 0, h⟩⟩

theorem reread_eq_self_iff {node : TypeExtension} :
    node.reread = some node ↔
      node.directives.mapM (Directive.reread 0) = some node.directives ∧
        node.body.reread = some node.body := by
  obtain ⟨name, directives, body⟩ := node
  rw [reread]
  cases directives.mapM (Directive.reread 0) <;> cases body.reread <;> simp

/-- A type node is legible exactly if its parts are. -/
theorem legible_iff {node : TypeExtension} :
    node.Legible ↔ node.WellFormed ∧ Fits 0 node.words ∧ node.reread = some node := by
  have hdirectives : (∀ directive ∈ node.directives, (Directive.form 0).Legible 0 directive) ↔ _ :=
    Form.forall_legible_iff
  rw [fits_words_iff, reread_eq_self_iff]
  constructor
  · intro h
    obtain ⟨hwellFormed, hdirectivesFit, hdirectivesBack⟩ := hdirectives.mp h.directives
    obtain ⟨hbody, hbodyFits, hbodyBack⟩ := TypeBody.legible_iff.mp h.body
    exact ⟨⟨h.name, hwellFormed, hbody⟩, ⟨hdirectivesFit, hbodyFits⟩, hdirectivesBack, hbodyBack⟩
  · rintro ⟨hwellFormed, ⟨hdirectivesFit, hbodyFits⟩, hdirectivesBack, hbodyBack⟩
    exact {
      name := hwellFormed.name
      directives := hdirectives.mpr ⟨hwellFormed.directives, hdirectivesFit, hdirectivesBack⟩
      body := TypeBody.legible_iff.mpr ⟨hwellFormed.body, hbodyFits, hbodyBack⟩ }

end TypeExtension

/-- The description and the parts of a type definition are legible. -/
structure TypeDefinition.Legible (definition : TypeDefinition) : Prop where
  description : (descriptionForm 0).Legible 0 definition.description
  node : definition.toExtension.Legible

/-- An extension becomes a definition without a description. -/
theorem TypeExtension.Legible.toDefinition {node : TypeExtension} (h : node.Legible) :
    node.toDefinition.Legible := ⟨⟨trivial, fits_nil 0, rfl⟩, h⟩

/-! ## Definitions -/

namespace SchemaDefinition

/-- The parts of a schema definition are legible. -/
structure Legible (schema : SchemaDefinition) : Prop where
  directives : ∀ directive ∈ schema.directives, (Directive.form 0).Legible 0 directive
  operations : ∀ operation ∈ schema.operations, isName operation.2

/-- The operations of a schema definition consist of names, so nothing but their brackets nests. -/
theorem fits_words_iff {schema : SchemaDefinition} :
    Fits 0 schema.words ↔ Fits 0 (directivesWords 0 schema.directives) := by
  have hoperation : ∀ operation ∈ schema.operations, Balanced (operationWords operation) :=
    fun _ _ => .token rfl (.token rfl (.token rfl .nil))
  have hoperations : Fits 1 (schema.operations.flatMap operationWords) := by
    rw [Balanced.fits_flatMap_iff hoperation]
    exact fun _ _ => (fits_cons rfl).mpr ((fits_cons rfl).mpr ((fits_cons rfl).mpr (fits_nil 1)))
  rw [words, fits_cons rfl, (balanced_directivesWords 0 _).fits_append_iff,
    Balanced.fits_enclose_iff paired_braces (by decide) schema.balanced_operations]
  exact and_iff_left hoperations

theorem reread_eq_self_iff {schema : SchemaDefinition} :
    schema.reread = some schema ↔
      schema.directives.mapM (Directive.reread 0) = some schema.directives := by
  obtain ⟨directives, query, mutation, subscription⟩ := schema
  rw [reread]
  cases directives.mapM (Directive.reread 0) <;> simp

/-- A schema definition is legible exactly if its parts are. -/
theorem legible_iff {schema : SchemaDefinition} :
    schema.Legible ↔ schema.WellFormed ∧ Fits 0 schema.words ∧ schema.reread = some schema := by
  have hdirectives : (∀ directive ∈ schema.directives, (Directive.form 0).Legible 0 directive) ↔ _ :=
    Form.forall_legible_iff
  rw [fits_words_iff, reread_eq_self_iff]
  constructor
  · intro h
    obtain ⟨hwellFormed, hdirectivesFit, hdirectivesBack⟩ := hdirectives.mp h.directives
    exact ⟨⟨hwellFormed, h.operations⟩, hdirectivesFit, hdirectivesBack⟩
  · rintro ⟨hwellFormed, hdirectivesFit, hdirectivesBack⟩
    exact ⟨hdirectives.mpr ⟨hwellFormed.directives, hdirectivesFit, hdirectivesBack⟩,
      hwellFormed.operations⟩

end SchemaDefinition

namespace Definition

/-- Top-level definitions. -/
def form : Form Definition := ⟨WellFormed, words, reread, balanced⟩

/-- A definition is read back as it was. -/
def Legible (definition : Definition) : Prop := form.Legible 0 definition

theorem legible_schema_iff {schema : SchemaDefinition} :
    Legible (.schema schema) ↔ schema.Legible := by
  have hreread : form.reread (.schema schema) = some (.schema schema) ↔
      schema.reread = some schema := by
    simp [form, reread]
  rw [SchemaDefinition.legible_iff, ← hreread]
  exact ⟨fun h => ⟨h.wellFormed, h.fits, h.reread⟩, fun h => ⟨h.1, h.2.1, h.2.2⟩⟩

/-- A type definition comes back if its description and its node do. -/
theorem reread_type_eq_self_iff {definition : TypeDefinition} :
    reread (.type definition) = some (.type definition) ↔
      rereadDescription 0 definition.description = some definition.description ∧
        definition.toExtension.reread = some definition.toExtension := by
  obtain ⟨description, name, directives, body⟩ := definition
  simp only [reread]
  cases rereadDescription 0 description with
  | none => simp
  | some found =>
    cases (TypeDefinition.toExtension ⟨description, name, directives, body⟩).reread with
    | none => simp
    | some node =>
      obtain ⟨nodeName, nodeDirectives, nodeBody⟩ := node
      simp [TypeExtension.toDefinition, TypeDefinition.toExtension]

/-- A type definition is legible exactly if its description and its parts are. -/
theorem legible_type_iff {definition : TypeDefinition} :
    Legible (.type definition) ↔ definition.Legible := by
  have hfits : Fits 0 (form.words (.type definition)) ↔
      Fits 0 (descriptionWords 0 definition.description) ∧ Fits 0 definition.toExtension.words :=
    (balanced_descriptionWords 0 _).fits_append_iff
  constructor
  · intro h
    obtain ⟨hdescription, hnode⟩ := hfits.mp h.fits
    obtain ⟨hdescriptionBack, hnodeBack⟩ := reread_type_eq_self_iff.mp h.reread
    exact ⟨⟨trivial, hdescription, hdescriptionBack⟩,
      TypeExtension.legible_iff.mpr ⟨h.wellFormed, hnode, hnodeBack⟩⟩
  · intro h
    obtain ⟨hwellFormed, hnode, hnodeBack⟩ := TypeExtension.legible_iff.mp h.node
    exact ⟨hwellFormed, hfits.mpr ⟨h.description.fits, hnode⟩,
      reread_type_eq_self_iff.mpr ⟨h.description.reread, hnodeBack⟩⟩

/-- An extension comes back if its node does and adds something. -/
theorem reread_extension_eq_self_iff {node : TypeExtension} :
    reread (.extension node) = some (.extension node) ↔
      node.reread = some node ∧ Reader.addsSomething node := by
  -- It is read as a type node first, and then has to add something.
  have hextending : node.rereadExtending = some node ↔
      node.reread = some node ∧ Reader.addsSomething node := by
    rw [TypeExtension.rereadExtending]
    cases node.reread with
    | none => simp
    | some found =>
      rw [Option.bind_some, Option.ite_none_right_eq_some, Option.some_inj, and_comm]
      exact and_congr_right fun hfound => by rw [hfound]
  rw [← hextending, reread]
  cases node.rereadExtending <;> simp

/-- An extension that is read back has legible parts.  The converse fails, because an extension has
to add something. -/
theorem Legible.extension {node : TypeExtension} (h : Legible (.extension node)) : node.Legible :=
  TypeExtension.legible_iff.mpr
    ⟨h.wellFormed, (fits_cons rfl).mp h.fits, (reread_extension_eq_self_iff.mp h.reread).1⟩

/-- The normalized form of a type node is legible. -/
theorem Legible.typeDefinition? {definition : Definition} (h : definition.Legible)
    {node : TypeDefinition} (hnode : definition.typeDefinition? = some node) : node.Legible := by
  cases definition with
  | type definition =>
    cases hnode
    exact legible_type_iff.mp h
  | extension node =>
    cases hnode
    exact h.extension.toDefinition
  | schema definition => cases hnode
  | directive definition => cases hnode

end Definition

namespace Document

/-- A document is read back from its text exactly if all of its definitions are legible. -/
theorem parse_print_iff {document : Document} :
    parse document.print = .ok document ↔
      ∀ definition ∈ document.definitions, definition.Legible := by
  have hreread : document.reread = some document ↔
      document.definitions.mapM Definition.reread = some document.definitions := by
    obtain ⟨definitions⟩ := document
    simp [reread]
  have hall : (∀ definition ∈ document.definitions, definition.Legible) ↔
      (∀ definition ∈ document.definitions, definition.WellFormed) ∧ Fits 0 document.words ∧
        document.reread = some document := by
    rw [hreread]
    exact Form.forall_legible_iff
  rw [hall]
  constructor
  · intro h
    obtain ⟨hwellFormed, hcomplete⟩ := of_parse h
    -- The text was read, so its stream did not break off, and its words nest well.
    have hnest : (nest 0 document.words).isSome := by
      by_cases hne : document.definitions = []
      · simp [words, hne, nest]
      · -- A text that nests too deep or has a malformed word is not read.
        rw [Option.isSome_iff_ne_none]
        intro hnone
        have hbroken := (Stream.words_ofText (writes hwellFormed)).1 hnone
        rw [hcomplete hne] at hbroken
        cases hbroken
    have hback := parse_print hwellFormed hnest
    rw [h] at hback
    have hbalanced : Balanced document.words := .flatMap fun definition _ => definition.balanced
    exact ⟨hwellFormed, hbalanced.fits hnest, hback.symm⟩
  · rintro ⟨hwellFormed, hfits, hback⟩
    have hread := parse_print hwellFormed (by rw [hfits]; rfl)
    rw [hback] at hread
    cases hparse : parse document.print with
    | ok found =>
      rw [hparse] at hread
      cases hread
      rfl
    | error cause =>
      rw [hparse] at hread
      cases hread

end Document

end SchemaAlgebra
