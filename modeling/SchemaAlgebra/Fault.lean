import SchemaAlgebra.Language.Parser

/-!
# Faults

What can go wrong with the schemas that are handed to an operation, each cause with the message it
is reported by.
-/

namespace SchemaAlgebra

/-- The operations on two schemas. -/
inductive Operation where
  | merge | pare
  deriving DecidableEq, Repr

/-- The name of an operation. -/
def Operation.label : Operation → String
  | .merge => "merge"
  | .pare => "pare"

/-- The two schemas of an operation: the one that is merged into or pared from, and the one that is
merged in or subtracted. -/
inductive Side where
  | target | source
  deriving DecidableEq, Repr

/-- The name of a side. -/
def Side.label : Side → String
  | .target => "target"
  | .source => "source"

/-- Why a schema cannot be used as the input of an operation. -/
inductive SourceError where
  /-- The schema has no text.  `received` describes it. -/
  | invalidInput (operation : Operation) (side : Side) (received : String)
  /-- The text of the schema is not a document. -/
  | unparsableDocument (operation : Operation) (side : Side) (cause : ParseError)
  deriving DecidableEq, Repr

/-- The text of an input error. -/
def SourceError.message : SourceError → String
  | .invalidInput operation side received =>
    s!"`{operation.label}` was unable to produce schema text from its {side.label} input " ++
      s!"(received {received})"
  | .unparsableDocument operation side cause =>
    s!"Error parsing the {side.label} schema passed to `{operation.label}`: {cause.message}"

/-- Why no registry can be built for a document with scalar configs. -/
inductive RegistryError where
  /-- A config stands under a name that no scalar definition has. -/
  | configForUndefinedScalar (scalar : String)
  /-- Two type definitions have the same name. -/
  | duplicateTypeDefinition (type : String)
  /-- A type is referred to that is neither defined nor built in. -/
  | undefinedTypeReference (referrer type : String)
  deriving DecidableEq, Repr

/-- The text of a registry error. -/
def RegistryError.message : RegistryError → String
  | .configForUndefinedScalar scalar =>
    s!"A scalar config was provided for `{scalar}`, which is not a scalar defined in the schema"
  | .duplicateTypeDefinition type => s!"Multiple GraphQL types named `{type}` were defined"
  | .undefinedTypeReference referrer type =>
    s!"`{referrer}` references the undefined type `{type}`"

/-- One side of a merge has no registry, so that its scalar configs count as absent. -/
structure ConfigsUnavailable where
  side : Side
  reason : RegistryError
  deriving DecidableEq, Repr

/-- The text that reports missing scalar configs. -/
def ConfigsUnavailable.message (cause : ConfigsUnavailable) : String :=
  s!"Scalar configs of the {cause.side.label} schema are unavailable: {cause.reason.message}"

end SchemaAlgebra
