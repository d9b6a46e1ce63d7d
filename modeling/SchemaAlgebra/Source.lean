import SchemaAlgebra.Bundle

/-!
# Schema sources

A schema may be handed to an operation as text, as a document, as a bundle, or as something that
can print itself.  Whatever its form, the operation works on the document that its text stands
for: a document is printed and read again, and so takes the form that its text has.

Only a bundle has resolvers and scalar configs that an operation can see.
-/

namespace SchemaAlgebra

/-- A schema that is known by the text it prints. -/
structure PrintableSchema where
  /-- How the schema is shown in messages. -/
  label : String
  /-- The schema's text, if it has one. -/
  text : Option String
  deriving DecidableEq, Repr

/-- The printable schema around a bundle. -/
def Bundle.toPrintable {R S : Type} (bundle : Bundle R S) (label : String) : PrintableSchema :=
  ⟨label, some bundle.print⟩

/-- The forms that a schema can be handed over in. -/
inductive Source (R S : Type) where
  | built (schema : PrintableSchema)
  | bundle (bundle : Bundle R S)
  | document (document : Document)
  | sdl (text : String)

namespace Source

variable {R S : Type}

/-- How a source is described in messages. -/
def describe : Source R S → String
  | .built schema => s!"built schema {schema.label}"
  | .bundle _ => "schema bundle"
  | .document given => s!"document with {given.definitions.length} definitions"
  | .sdl text => s!"{text.utf8ByteSize} bytes of schema text"

/-- The text of a source on one side of an operation. -/
def toText (operation : Operation) (side : Side) (source : Source R S) :
    Noted (Except SourceError String) :=
  match source with
  | .built schema =>
    match schema.text with
    | some text => return .ok text
    | none => do
      Traced.emit (.unprintable operation side source.describe)
      return .error (.invalidInput operation side source.describe)
  | .bundle given => return .ok given.print
  | .document given => return .ok given.print
  | .sdl text => return .ok text

/-- The document that the text of a source stands for. -/
def toDocument (operation : Operation) (side : Side) (source : Source R S) :
    Noted (Except SourceError Document) := do
  match ← source.toText operation side with
  | .error cause => return .error cause
  | .ok text =>
    match Document.parse text with
    | .error cause => return .error (.unparsableDocument operation side cause)
    | .ok read => return .ok read

/-- The resolvers that an operation sees. -/
def resolvers : Source R S → ResolverMap R
  | .bundle given => given.resolvers
  | _ => ∅

/-- The scalar configs that an operation sees. -/
def scalars : Source R S → OrderedMap String S
  | .bundle given => given.scalars
  | _ => ∅

/-- The bundle that an operation works on: the document of a source's text with the source's
resolvers and scalar configs. -/
def toBundle (operation : Operation) (side : Side) (source : Source R S) :
    Noted (Except SourceError (Bundle R S)) := do
  match ← source.toDocument operation side with
  | .error cause => return .error cause
  | .ok read => return .ok ⟨read, source.resolvers, source.scalars⟩

end Source

end SchemaAlgebra
