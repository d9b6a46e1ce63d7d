import SchemaAlgebra.Fault
import SchemaAlgebra.OrderedMap
import SchemaAlgebra.RootTypes

/-!
# Registries

A registry is what a schema document with scalar configs offers for look-ups: its types, its root
operation types, and the configs of its scalars.

It can be built if the document is consistent enough to attach behaviour to: no type is defined
twice, every type that is referred to is defined or built in, and every config is one of a scalar
that is defined.  The first violation in that order of checks is the one that is reported, and
within a check the first in the document or among the configs.
-/

namespace SchemaAlgebra

/-! ## What a document defines and refers to -/

namespace Document

/-- The type definitions of a document.  Extensions are none. -/
def typeDefinitions (document : Document) : List TypeDefinition :=
  document.definitions.filterMap fun
    | .type definition => some definition
    | _ => none

/-- The names of the type definitions, in order. -/
def definedTypes (document : Document) : List String :=
  document.typeDefinitions.map TypeDefinition.name

/-- The names of the scalar definitions, in order. -/
def definedScalars (document : Document) : List String :=
  (document.typeDefinitions.filter (·.kind = .scalar)).map TypeDefinition.name

end Document

/-- A place that refers to a type: the text that describes the place, and the type's name. -/
structure Reference where
  referrer : String
  type : String
  deriving DecidableEq, Repr

/-- The references of argument declarations or input fields. -/
def inputReferences (owner : String) (inputs : List InputValue) : List Reference :=
  inputs.map fun input => ⟨owner ++ "(" ++ input.name ++ ")", input.type.core⟩

/-- The references of an output field: its own type, then those of its arguments. -/
def fieldReferences (type : String) (field : Field) : List Reference :=
  let path := type ++ "." ++ field.name
  ⟨path, field.type.core⟩ :: inputReferences path field.arguments

/-- The references of a type node.  Interfaces do not count. -/
def bodyReferences (type : String) : TypeBody → List Reference
  | .object _ fields | .interface _ fields => fields.flatMap (fieldReferences type)
  | .inputObject fields => inputReferences type fields
  | .union members => members.map fun member => ⟨"union " ++ type, member⟩
  | .scalar | .enum _ => []

/-- The references of a definition or extension. -/
def Definition.references : Definition → List Reference
  | .type definition => bodyReferences definition.name definition.body
  | .extension node => bodyReferences node.name node.body
  | .directive definition => inputReferences ("@" ++ definition.name) definition.arguments
  | .schema _ => []

/-- The references of a document, in order. -/
def Document.references (document : Document) : List Reference :=
  document.definitions.flatMap Definition.references

/-! ## Registries -/

/-- The names of the scalars that every schema has. -/
def builtinScalars : List String := ["Boolean", "Float", "ID", "Int", "String"]

/-- The first name of a list that also stands before its place. -/
def firstRepeated? : List String → List String → Option String
  | _, [] => none
  | seen, name :: rest => if seen.contains name then some name else firstRepeated? (name :: seen) rest

/-- No name is repeated exactly if the names are distinct and none of them was seen before. -/
theorem firstRepeated?_eq_none_iff (seen names : List String) :
    firstRepeated? seen names = none ↔ names.Nodup ∧ ∀ name ∈ names, name ∉ seen := by
  induction names generalizing seen with
  | nil => simp [firstRepeated?]
  | cons name rest ih =>
    by_cases h : name ∈ seen
    · simp [firstRepeated?, h]
    · simp only [firstRepeated?, List.contains_eq_mem, h, decide_false, Bool.false_eq_true,
        if_false, ih, List.nodup_cons, List.mem_cons, forall_eq_or_imp, not_false_eq_true, true_and,
        not_or]
      constructor
      · intro ⟨distinct, fresh⟩
        exact ⟨⟨fun again => (fresh name again).1 rfl, distinct⟩, fun n hn => (fresh n hn).2⟩
      · intro ⟨⟨once, distinct⟩, fresh⟩
        exact ⟨distinct, fun n hn => ⟨fun e => once (e ▸ hn), fresh n hn⟩⟩

/-- What a schema offers for look-ups. -/
structure Registry (S : Type) where
  roots : RootTypes
  configs : OrderedMap String S
  types : List String

namespace Registry

variable {S : Type}

/-- Builds the registry of a document with scalar configs. -/
def build (document : Document) (configs : OrderedMap String S) :
    Except RegistryError (Registry S) :=
  let types := document.definedTypes ++ builtinScalars
  match firstRepeated? [] document.definedTypes with
  | some type => .error (.duplicateTypeDefinition type)
  | none =>
    match document.references.find? fun reference => !types.contains reference.type with
    | some reference => .error (.undefinedTypeReference reference.referrer reference.type)
    | none =>
      match configs.keys.find? fun scalar => !document.definedScalars.contains scalar with
      | some scalar => .error (.configForUndefinedScalar scalar)
      | none => .ok ⟨.ofDocument document, configs, types⟩

/-- Whether a type is defined or built in. -/
def defines (registry : Registry S) (type : String) : Bool := registry.types.contains type

/-- The config of a scalar. -/
def config? (registry : Registry S) (scalar : String) : Option S := registry.configs.get? scalar

end Registry

end SchemaAlgebra
