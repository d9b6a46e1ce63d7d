import SchemaAlgebra.Trace

/-!
# Conflict policies

When two schemas have a node of the same name, a `Policy` says which node the merged schema gets.
It has one handler for each sort of nodes.  A handler sees both nodes and the type definitions that
they belong to, and it may answer with either node or with another one altogether.

Each time the policy is consulted, the `Question` becomes an event of the merge.

The policy for scalars is about their out-of-band configs.  What a config is does not matter here;
its type is the parameter `S`.
-/

namespace SchemaAlgebra

/-! ## Questions -/

/-- A field of either sort: an output field of an object or interface, or an input field. -/
inductive FieldNode where
  | input (node : InputValue)
  | output (node : Field)
  deriving DecidableEq

/-- The name of a field of either sort. -/
def FieldNode.name : FieldNode → String
  | .input node => node.name
  | .output node => node.name

instance : Named FieldNode := ⟨FieldNode.name⟩

/-- A question to a policy: two nodes of one name with the definitions that they belong to. -/
inductive Question (S : Type) where
  | directive (leftType : TypeDefinition) (left : Directive)
      (rightType : TypeDefinition) (right : Directive)
  | field (leftType : TypeDefinition) (left : FieldNode)
      (rightType : TypeDefinition) (right : FieldNode)
  | enumValue (leftType : TypeDefinition) (left : EnumValue)
      (rightType : TypeDefinition) (right : EnumValue)
  | unionMember (leftType : TypeDefinition) (left : String)
      (rightType : TypeDefinition) (right : String)
  | scalar (left : TypeDefinition) (leftConfig : Option S)
      (right : TypeDefinition) (rightConfig : Option S)

/-- What happens in the course of a merge or a pare. -/
inductive Event (S : Type) where
  | notice (notice : Notice)
  | asked (question : Question S)

namespace Event

variable {S : Type}

/-- The notice that an event is. -/
def notice? : Event S → Option Notice
  | .notice report => some report
  | .asked _ => none

/-- The question that an event is. -/
def question? : Event S → Option (Question S)
  | .notice _ => none
  | .asked consulted => some consulted

end Event

/-- A computation that may consult a policy. -/
abbrev Asking (S α : Type) := Traced (Event S) α

namespace Asking

variable {S α : Type}

/-- Reports a notice. -/
def note (notice : Notice) : Asking S Unit := Traced.emit (.notice notice)

/-- A computation that asks nothing. -/
def ofNoted (x : Noted α) : Asking S α := x.mapEvents .notice

@[simp] theorem value_ofNoted (x : Noted α) : (ofNoted x : Asking S α).value = x.value := rfl

instance : MonadLift (Traced Notice) (Traced (Event S)) := ⟨ofNoted⟩

@[simp] theorem value_liftM (x : Noted α) : (liftM x : Asking S α).value = x.value := rfl

/-- The notices of a computation, in order. -/
def notices (x : Asking S α) : List Notice := x.events.filterMap Event.notice?

/-- The questions of a computation, in order. -/
def questions (x : Asking S α) : List (Question S) := x.events.filterMap Event.question?

@[simp] theorem questions_pure (a : α) : (pure a : Asking S α).questions = [] := rfl

@[simp] theorem questions_bind {β : Type} (x : Asking S α) (f : α → Asking S β) :
    (Bind.bind x f : Asking S β).questions = x.questions ++ (f x.value).questions := by
  simp [questions]

@[simp] theorem questions_map {β : Type} (f : α → β) (x : Asking S α) :
    (f <$> x : Asking S β).questions = x.questions := by
  simp [questions]

@[simp] theorem questions_note (notice : Notice) : (note notice : Asking S Unit).questions = [] :=
  rfl

@[simp] theorem questions_asked (question : Question S) :
    questions (Traced.emit (.asked question) : Asking S Unit) = [question] := rfl

@[simp] theorem questions_ofNoted (x : Noted α) : (ofNoted x : Asking S α).questions = [] := by
  simp [questions, ofNoted, List.filterMap_map, Function.comp_def, Event.question?]

@[simp] theorem questions_liftM (x : Noted α) : (liftM x : Asking S α).questions = [] :=
  questions_ofNoted x

end Asking

/-! ## Policies -/

/-- What the merged schema gets where both schemas have a node of the same name. -/
structure Policy (S : Type) where
  directive : TypeDefinition → Directive → TypeDefinition → Directive → Directive
  field : TypeDefinition → FieldNode → TypeDefinition → FieldNode → FieldNode
  enumValue : TypeDefinition → EnumValue → TypeDefinition → EnumValue → EnumValue
  unionMember : TypeDefinition → String → TypeDefinition → String → String
  scalar : TypeDefinition → Option S → TypeDefinition → Option S → Option S

namespace Policy

variable {S : Type}

/-- The source wins: its node is taken, and its scalar config if it has one. -/
def rightWins : Policy S where
  directive _ _ _ right := right
  field _ _ _ right := right
  enumValue _ _ _ right := right
  unionMember _ _ _ right := right
  scalar _ leftConfig _ rightConfig := rightConfig.or leftConfig

instance : Inhabited (Policy S) := ⟨rightWins⟩

/-- The text that describes a policy.  Its handlers do not show. -/
def describe (_ : Policy S) : String := "ConflictResolvers \x7b .. \x7d"

/-- Asks which of two directive applications to take. -/
def askDirective (policy : Policy S) (leftType : TypeDefinition) (left : Directive)
    (rightType : TypeDefinition) (right : Directive) : Asking S Directive := do
  Traced.emit (.asked (.directive leftType left rightType right))
  return policy.directive leftType left rightType right

/-- Asks which of two fields to take. -/
def askField (policy : Policy S) (leftType : TypeDefinition) (left : FieldNode)
    (rightType : TypeDefinition) (right : FieldNode) : Asking S FieldNode := do
  Traced.emit (.asked (.field leftType left rightType right))
  return policy.field leftType left rightType right

/-- Asks which of two enum values to take. -/
def askEnumValue (policy : Policy S) (leftType : TypeDefinition) (left : EnumValue)
    (rightType : TypeDefinition) (right : EnumValue) : Asking S EnumValue := do
  Traced.emit (.asked (.enumValue leftType left rightType right))
  return policy.enumValue leftType left rightType right

/-- Asks which of two union members to take. -/
def askUnionMember (policy : Policy S) (leftType : TypeDefinition) (left : String)
    (rightType : TypeDefinition) (right : String) : Asking S String := do
  Traced.emit (.asked (.unionMember leftType left rightType right))
  return policy.unionMember leftType left rightType right

/-- Asks which config the merged scalar gets. -/
def askScalar (policy : Policy S) (left : TypeDefinition) (leftConfig : Option S)
    (right : TypeDefinition) (rightConfig : Option S) : Asking S (Option S) := do
  Traced.emit (.asked (.scalar left leftConfig right rightConfig))
  return policy.scalar left leftConfig right rightConfig

end Policy

end SchemaAlgebra
