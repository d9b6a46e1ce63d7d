import SchemaAlgebra.Language.Value

/-!
# Schema documents

A document is a list of top-level definitions: schema definitions, type definitions of six kinds,
extensions of the same six kinds, and directive definitions.  Where something stood in a text is
not part of it, so two texts that differ in layout only give the same document.

What the kinds of types differ in is their `TypeBody`.  Each kind has at most one collection of
named members: output fields, input fields, enum values or union members.  All named nodes are
instances of `Named`.
-/

namespace SchemaAlgebra

/-! ## Nodes -/

/-- A reference to a type: a name under any nesting of lists and non-null marks. -/
inductive TypeRef where
  | named (name : String)
  | list (element : TypeRef)
  | nonNull (inner : TypeRef)
  deriving DecidableEq, Repr

/-- The type name at the core of a reference. -/
def TypeRef.core : TypeRef → String
  | .named name => name
  | .list element => element.core
  | .nonNull inner => inner.core

/-- The application of a directive to a node. -/
structure Directive where
  name : String
  arguments : List (String × Value)
  deriving DecidableEq

/-- An argument of a field or a directive definition, or a field of an input object. -/
structure InputValue where
  description : Option String
  name : String
  type : TypeRef
  defaultValue : Option Value
  directives : List Directive
  deriving DecidableEq

/-- A field of an object or an interface. -/
structure Field where
  description : Option String
  name : String
  arguments : List InputValue
  type : TypeRef
  directives : List Directive
  deriving DecidableEq

/-- A value of an enum type. -/
structure EnumValue where
  description : Option String
  name : String
  directives : List Directive
  deriving DecidableEq

/-- What a type of each kind consists of, beyond its name and directives. -/
inductive TypeBody where
  | scalar
  | object (interfaces : List String) (fields : List Field)
  | interface (interfaces : List String) (fields : List Field)
  | union (members : List String)
  | enum (values : List EnumValue)
  | inputObject (fields : List InputValue)
  deriving DecidableEq

/-- The definition of a type. -/
structure TypeDefinition where
  description : Option String
  name : String
  directives : List Directive
  body : TypeBody
  deriving DecidableEq

/-- An extension of a type that is defined elsewhere. -/
structure TypeExtension where
  name : String
  directives : List Directive
  body : TypeBody
  deriving DecidableEq

/-- The places that a directive can be declared for. -/
inductive Location where
  | query | mutation | subscription | field | fragmentDefinition | fragmentSpread | inlineFragment
  | schema | scalar | object | fieldDefinition | argumentDefinition | interface | union | enum
  | enumValue | inputObject | inputFieldDefinition | variableDefinition
  deriving DecidableEq, Repr

/-- The definition of a directive. -/
structure DirectiveDefinition where
  description : Option String
  name : String
  arguments : List InputValue
  repeatable : Bool
  locations : List Location
  deriving DecidableEq

/-- A schema definition, which names the root types of the operations. -/
structure SchemaDefinition where
  directives : List Directive
  query : Option String
  mutation : Option String
  subscription : Option String
  deriving DecidableEq

/-- A top-level definition. -/
inductive Definition where
  | schema (definition : SchemaDefinition)
  | type (definition : TypeDefinition)
  | extension (node : TypeExtension)
  | directive (definition : DirectiveDefinition)
  deriving DecidableEq

/-- A schema document: definitions in order. -/
structure Document where
  definitions : List Definition
  deriving DecidableEq

instance : EmptyCollection Document := ⟨⟨[]⟩⟩
instance : Inhabited Document := ⟨∅⟩

/-! ## Names -/

/-- Nodes that are told apart from their siblings by a name. -/
class Named (α : Type) where
  name : α → String

instance : Named Directive := ⟨Directive.name⟩
instance : Named InputValue := ⟨InputValue.name⟩
instance : Named Field := ⟨Field.name⟩
instance : Named EnumValue := ⟨EnumValue.name⟩

/-- A union member is nothing but the name of a type. -/
instance : Named String := ⟨id⟩

/-- The names of the nodes of a collection, in order. -/
def namesOf {α : Type} [Named α] (nodes : List α) : List String := nodes.map Named.name

/-! ## Kinds -/

/-- The six kinds of types. -/
inductive TypeKind where
  | scalar | object | interface | union | enum | inputObject
  deriving DecidableEq, Repr

/-- The name of a kind, as it is written in messages. -/
def TypeKind.label : TypeKind → String
  | .scalar => "ScalarTypeDefinition"
  | .object => "ObjectTypeDefinition"
  | .interface => "InterfaceTypeDefinition"
  | .union => "UnionTypeDefinition"
  | .enum => "EnumTypeDefinition"
  | .inputObject => "InputObjectTypeDefinition"

/-- The kinds of member collections.  Objects and interfaces have the same one, so their members
can be merged with each other; scalars have none. -/
inductive Collection where
  | none | outputFields | inputFields | enumValues | unionMembers
  deriving DecidableEq, Repr

/-- The member collection of a kind of types. -/
def TypeKind.collection : TypeKind → Collection
  | .scalar => .none
  | .object | .interface => .outputFields
  | .union => .unionMembers
  | .enum => .enumValues
  | .inputObject => .inputFields

namespace TypeBody

/-- The kind that a body belongs to. -/
def kind : TypeBody → TypeKind
  | .scalar => .scalar
  | .object _ _ => .object
  | .interface _ _ => .interface
  | .union _ => .union
  | .enum _ => .enum
  | .inputObject _ => .inputObject

/-- The kind of the body's member collection. -/
def collection (body : TypeBody) : Collection := body.kind.collection

/-- The interfaces that an object or an interface implements. -/
def interfaces : TypeBody → List String
  | .object interfaces _ | .interface interfaces _ => interfaces
  | _ => []

/-- The fields of an object or an interface; a body of another kind has none. -/
def outputFields : TypeBody → List Field
  | .object _ fields | .interface _ fields => fields
  | _ => []

/-- The fields of an input object; a body of another kind has none. -/
def inputFields : TypeBody → List InputValue
  | .inputObject fields => fields
  | _ => []

/-- The values of an enum; a body of another kind has none. -/
def enumValues : TypeBody → List EnumValue
  | .enum values => values
  | _ => []

/-- The member types of a union; a body of another kind has none. -/
def unionMembers : TypeBody → List String
  | .union members => members
  | _ => []

/-- The names in the body's member collection, in order. -/
def memberNames : TypeBody → List String
  | .scalar => []
  | .object _ fields | .interface _ fields => namesOf fields
  | .union members => members
  | .enum values => namesOf values
  | .inputObject fields => namesOf fields

/-- The names of the body's fields or enum values.  The types that a union lists are no parts of
the union itself. -/
def declaredNames : TypeBody → List String
  | .union _ => []
  | body => body.memberNames

end TypeBody

/-- The kind of a type definition. -/
def TypeDefinition.kind (definition : TypeDefinition) : TypeKind := definition.body.kind

/-- The kind of the type that an extension extends. -/
def TypeExtension.kind (node : TypeExtension) : TypeKind := node.body.kind

namespace Definition

/-- The name of the type that a definition defines or extends. -/
def typeName? : Definition → Option String
  | .type definition => some definition.name
  | .extension node => some node.name
  | _ => none

/-- The body of a type definition or extension. -/
def body? : Definition → Option TypeBody
  | .type definition => some definition.body
  | .extension node => some node.body
  | _ => none

end Definition

end SchemaAlgebra
