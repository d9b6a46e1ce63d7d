import SchemaAlgebra.Merge.Collections
import SchemaAlgebra.Merge.Scalars
import SchemaAlgebra.Arena
import SchemaAlgebra.Normalize

/-!
# Merging types

A type of the target may be spread over a definition and extensions.  Before a source node is merged
into it, `foldNodes` gathers the target's nodes in the slot of the first one; there the first node of
a name stays.  Then `mergeType` merges the source node into the gathered one: first the
directives, then the members, where the policy settles what both have.  Interfaces and the
description are the target's.

Members can be merged if both nodes have the same kind of collection.  Otherwise the directives are
all that is merged.
-/

namespace SchemaAlgebra

variable {S : Type}

/-! ## Gathering the nodes of the target -/

/-- Adds what a later node of a type brings to the members of the first one. -/
def foldBody (owner : String) (into piece : TypeBody) : Asking S TypeBody :=
  match into with
  | .scalar => return .scalar
  | .object interfaces fields => do
    let fields ← mergeFirstWins owner fields piece.outputFields
    return .object (unionNames interfaces piece.interfaces) fields
  | .interface interfaces fields => do
    let fields ← mergeFirstWins owner fields piece.outputFields
    return .interface (unionNames interfaces piece.interfaces) fields
  | .union members => .union <$> mergeFirstWins owner members piece.unionMembers
  | .enum values => .enum <$> mergeFirstWins owner values piece.enumValues
  | .inputObject fields => .inputObject <$> mergeFirstWins owner fields piece.inputFields

/-- Adds what a later node of a type of the same kind brings to the first one. -/
def foldNode (into piece : TypeDefinition) : Asking S TypeDefinition := do
  let directives ← mergeFirstWins piece.name into.directives piece.directives
  let body ← foldBody piece.name into.body piece.body
  return { into with directives, body }

/-- The normalized form of the type node in a slot. -/
def Arena.typeAt (arena : Arena) (slot : Nat) : Noted (Option TypeDefinition) :=
  match arena.get? slot with
  | some definition => definition.normalizedType?
  | none => return none

/-- Gathers the node in a slot with the first node of its type and empties the slot.  A node of
another kind stays where it is. -/
def foldSlot (state : Arena × TypeDefinition) (slot : Nat) :
    Asking S (Arena × TypeDefinition) := do
  let (arena, into) := state
  match ← arena.typeAt slot with
  | none => return state
  | some piece =>
    -- Nodes of one collection may still differ in kind, as an object and an interface do.
    if piece.kind = into.kind then
      Asking.note (.folding into.name)
      let folded ← foldNode into piece
      return (arena.remove slot, folded)
    else
      Asking.note (.foreignNode into.name piece.kind into.kind)
      return state

/-- Gathers the nodes of a type.  Gives the slot of the first one and the gathered definition, if
there is a node at all; the slot itself is not written. -/
def foldNodes (arena : Arena) (type : String) :
    Asking S (Arena × Option (Nat × TypeDefinition)) := do
  match arena.findAll ⟨.type, type⟩ with
  | [] => return (arena, none)
  | first :: rest =>
    match ← arena.typeAt first with
    | none => return (arena, none)
    | some into =>
      let (arena, folded) ← rest.foldlM foldSlot (arena, into)
      return (arena, some (first, folded))

/-! ## Merging a source node -/

/-- Merges the directives of two nodes. -/
def mergeDirectives (policy : Policy S) (left right : TypeDefinition) :
    Asking S (List Directive) :=
  mergeSiblings right.name left.directives right.directives fun l r =>
    policy.askDirective left l right r

/-- Merges output fields.  If the policy answers with an input field, the right one is taken. -/
def mergeOutputFields (policy : Policy S) (left right : TypeDefinition) (fields : List Field) :
    Asking S (List Field) :=
  mergeSiblings right.name fields right.body.outputFields fun l r => do
    match ← policy.askField left (.output l) right (.output r) with
    | .output node => return node
    | .input _ =>
      Asking.note (.unexpectedInputField right.name r.name)
      return r

/-- Merges input fields.  If the policy answers with an output field, the right one is taken. -/
def mergeInputFields (policy : Policy S) (left right : TypeDefinition) (fields : List InputValue) :
    Asking S (List InputValue) :=
  mergeSiblings right.name fields right.body.inputFields fun l r => do
    match ← policy.askField left (.input l) right (.input r) with
    | .input node => return node
    | .output _ =>
      Asking.note (.unexpectedOutputField right.name r.name)
      return r

/-- Merges the members of two nodes.  Where the collections are of different kinds, the right node
has nothing to bring. -/
def mergeBody (policy : Policy S) (left right : TypeDefinition) : Asking S TypeBody :=
  match left.body with
  | .scalar => return .scalar
  | .object interfaces fields =>
    .object interfaces <$> mergeOutputFields policy left right fields
  | .interface interfaces fields =>
    .interface interfaces <$> mergeOutputFields policy left right fields
  | .union members =>
    .union <$> mergeSiblings right.name members right.body.unionMembers fun l r =>
      policy.askUnionMember left l right r
  | .enum values =>
    .enum <$> mergeSiblings right.name values right.body.enumValues fun l r =>
      policy.askEnumValue left l right r
  | .inputObject fields => .inputObject <$> mergeInputFields policy left right fields

/-- Merges a source node into the gathered node of the target.  If both are scalars, the policy's
answer about their configs comes with the result. -/
def mergeType (policy : Policy S) (sides : ScalarSides S) (left right : TypeDefinition) :
    Asking S (TypeDefinition × Option (ScalarAnswer S)) := do
  let left := { left with directives := ← mergeDirectives policy left right }
  -- From here on the policy is shown the merged directives, but still the old members.
  if left.body.collection ≠ right.body.collection then
    Asking.note (.directivesOnly right.name left.kind right.kind)
  let body ← mergeBody policy left right
  if left.kind = .scalar ∧ right.kind = .scalar then
    let answer ← sides.settle policy left right
    return ({ left with body }, some answer)
  else return ({ left with body }, none)

end SchemaAlgebra
