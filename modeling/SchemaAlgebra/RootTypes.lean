import SchemaAlgebra.Language.Document

/-!
# Root operation types

The root types of a document are the types that its operations start from.  Schema definitions name
them; of several that name a root type for the same operation the last one counts.  A document
without a schema definition has the object types with the conventional names as its root types.
-/

namespace SchemaAlgebra

/-- The names of the root operation types. -/
structure RootTypes where
  query : Option String
  mutation : Option String
  subscription : Option String
  deriving DecidableEq, Repr

namespace RootTypes

instance : EmptyCollection RootTypes := ⟨⟨none, none, none⟩⟩
instance : Inhabited RootTypes := ⟨∅⟩

/-- The root types in the order query, mutation, subscription. -/
def toList (roots : RootTypes) : List String :=
  [roots.query, roots.mutation, roots.subscription].filterMap id

/-- Whether a type is a root type of some operation. -/
def contains (roots : RootTypes) (type : String) : Bool := roots.toList.contains type

/-- The root types that a schema definition names in addition to earlier ones. -/
def update (roots : RootTypes) (schema : SchemaDefinition) : RootTypes where
  query := schema.query.or roots.query
  mutation := schema.mutation.or roots.mutation
  subscription := schema.subscription.or roots.subscription

/-- The schema definition that a definition is. -/
def schema? : Definition → Option SchemaDefinition
  | .schema definition => some definition
  | _ => none

/-- Whether a definition defines or extends the object type of a name. -/
def isObjectNode (name : String) (definition : Definition) : Bool :=
  definition.typeName? = some name && definition.body?.any (·.kind = .object)

/-- A name, if the document has an object type of that name. -/
def conventional (document : Document) (name : String) : Option String :=
  if document.definitions.any (isObjectNode name) then some name else none

/-- The root types of a document. -/
def ofDocument (document : Document) : RootTypes :=
  match document.definitions.filterMap schema? with
  | [] => ⟨conventional document "Query", conventional document "Mutation",
      conventional document "Subscription"⟩
  | schemas => schemas.foldl update ∅

end RootTypes

namespace Document

/-- The names of the fields or enum values that some node of a type declares; nothing if the
document has no node of the type. -/
def membersOf? (document : Document) (type : String) : Option (List String) :=
  let nodes := document.definitions.filter fun definition => definition.typeName? = some type
  if nodes.isEmpty then none
  else some (nodes.flatMap fun definition => (definition.body?.map TypeBody.declaredNames).getD [])

/-- Whether some node of a type declares a field or enum value of a name. -/
def declares (document : Document) (type member : String) : Bool :=
  (document.membersOf? type).any (·.contains member)

/-- Whether some root operation type declares a field. -/
def declaresOnRoot (document : Document) (field : String) : Bool :=
  (RootTypes.ofDocument document).toList.any (document.declares · field)

end Document

end SchemaAlgebra
