import SchemaAlgebra.Trace

/-!
# Extensions as definitions

An extension consists of the same parts as a definition of its kind, except that it has no
description.  `TypeExtension.toDefinition` forgets that a node was written as an extension and
`TypeDefinition.toExtension` forgets a definition's description; the first undoes the second up to
that.

Merging and paring look at every type node in its normalized form, and report each extension that
they normalize.
-/

namespace SchemaAlgebra

/-! ## Single nodes -/

/-- The definition with an extension's parts and without a description. -/
def TypeExtension.toDefinition (node : TypeExtension) : TypeDefinition :=
  ⟨none, node.name, node.directives, node.body⟩

/-- The extension with a definition's parts. -/
def TypeDefinition.toExtension (definition : TypeDefinition) : TypeExtension :=
  ⟨definition.name, definition.directives, definition.body⟩

@[simp] theorem TypeExtension.toExtension_toDefinition (node : TypeExtension) :
    node.toDefinition.toExtension = node := rfl

@[simp] theorem TypeDefinition.toDefinition_toExtension (definition : TypeDefinition) :
    definition.toExtension.toDefinition = { definition with description := none } := rfl

/-- Turns an extension into a definition and reports it. -/
def TypeExtension.normalize (node : TypeExtension) : Noted TypeDefinition := do
  Traced.emit (.normalizing node.name)
  return node.toDefinition

namespace Definition

/-- The normalized form of a type node; other definitions have none. -/
def typeDefinition? : Definition → Option TypeDefinition
  | .type definition => some definition
  | .extension node => some node.toDefinition
  | _ => none

/-- The normalized form of a type node, with a report if it is an extension. -/
def normalizedType? : Definition → Noted (Option TypeDefinition)
  | .type definition => return some definition
  | .extension node => some <$> node.normalize
  | _ => return none

@[simp] theorem value_normalizedType? (definition : Definition) :
    definition.normalizedType?.value = definition.typeDefinition? := by
  cases definition <;> rfl

/-- Turns an extension into a definition and leaves every other node as it is. -/
def normalize : Definition → Noted Definition
  | .extension node => Definition.type <$> node.normalize
  | other => return other

/-- Whether a definition is an extension. -/
def isExtension : Definition → Bool
  | .extension _ => true
  | _ => false

theorem isExtension_normalize (definition : Definition) :
    definition.normalize.value.isExtension = false := by
  cases definition <;> rfl

end Definition

/-! ## Documents -/

/-- Turns every extension of a document into a definition. -/
def Document.normalize (document : Document) : Noted Document := do
  return ⟨← document.definitions.mapM Definition.normalize⟩

theorem Document.definitions_value_normalize (document : Document) :
    document.normalize.value.definitions =
      document.definitions.map fun definition => definition.normalize.value := by
  show (document.definitions.mapM Definition.normalize).value = _
  rw [← List.mapM'_eq_mapM]
  induction document.definitions with
  | nil => rfl
  | cons first rest ih => simp [List.mapM', ih]

end SchemaAlgebra
