import SchemaAlgebra.Arena
import SchemaAlgebra.Source

/-!
# Paring schemas

`pare` subtracts one schema from another.  Every node of a type that the source has loses the
members that the source's node names, and is dropped if it loses its last one.  A scalar that the
source has is dropped.  A node keeps the form it is written in, and the directives, interfaces and
descriptions of what is left are not touched, nor are schema definitions.

What only the source defines is added, just as a merge would add it.

Resolvers and scalar configs go with the members and scalars that they belong to.
-/

namespace SchemaAlgebra

variable {R S : Type}

/-! ## Members -/

/-- Splits a collection into the nodes whose names are not taken away and the names of the rest. -/
def splitByName {α : Type} [Named α] (taken : List String) (nodes : List α) :
    List α × List String :=
  let (removed, kept) := nodes.partition fun node => taken.contains (Named.name node)
  (kept, namesOf removed)

/-- Takes the members that a body names away from another one.  Gives what is left and the names
of what is gone, in order. -/
def TypeBody.subtract (left right : TypeBody) : TypeBody × List String :=
  match left with
  | .scalar => (.scalar, [])
  | .object interfaces fields =>
    let (kept, removed) := splitByName (namesOf right.outputFields) fields
    (.object interfaces kept, removed)
  | .interface interfaces fields =>
    let (kept, removed) := splitByName (namesOf right.outputFields) fields
    (.interface interfaces kept, removed)
  | .union members =>
    let (kept, removed) := splitByName right.unionMembers members
    (.union kept, removed)
  | .enum values =>
    let (kept, removed) := splitByName (namesOf right.enumValues) values
    (.enum kept, removed)
  | .inputObject fields =>
    let (kept, removed) := splitByName (namesOf right.inputFields) fields
    (.inputObject kept, removed)

/-! ## Definitions -/

/-- A pare under way. -/
structure PareState (S : Type) where
  arena : Arena
  /-- The fields and enum values that were removed, with their types, in order. -/
  removed : List (String × String)
  scalars : OrderedMap String S

/-- A type node in one of its two written forms. -/
def Definition.ofType (asExtension : Bool) (definition : TypeDefinition) : Definition :=
  if asExtension then .extension definition.toExtension else .type definition

/-- Pares a source node from the target's node in a slot, whose normalized form is `left`. -/
def pareNode (state : PareState S) (slot : Nat) (asExtension : Bool)
    (left right : TypeDefinition) : Noted (PareState S) :=
  if left.kind = .scalar then do
    Traced.emit (.droppingScalar right.name)
    return { state with
      arena := state.arena.remove slot
      scalars := state.scalars.erase right.name }
  else if left.body.collection ≠ right.body.collection then do
    Traced.emit (.nothingPared right.name left.kind right.kind)
    return state
  else do
    let (body, removed) := left.body.subtract right.body
    -- Union members have no resolvers that could go with them.
    let paths := if left.kind = .union then [] else removed.map fun member => (right.name, member)
    let state := { state with removed := state.removed ++ paths }
    -- A node that was empty from the start has nothing removed and stays.
    if removed.isEmpty then return state
    else if body.memberNames.isEmpty then
      Traced.emit (.droppingEmptied left.kind right.name)
      return { state with arena := state.arena.remove slot }
    else
      Traced.emit (.paredMembers right.name removed)
      let definition := Definition.ofType asExtension { left with body }
      return { state with arena := state.arena.replace slot definition }

/-- Pares a source node from the definition in a slot, if there is one. -/
def pareSlot (right : TypeDefinition) (state : PareState S) (slot : Nat) :
    Noted (PareState S) := do
  match state.arena.get? slot with
  | none => return state
  | some definition =>
    match ← definition.normalizedType? with
    | none => return state
    | some left => pareNode state slot definition.isExtension left right

/-- Pares a type definition of the source. -/
def pareTypeDefinition (state : PareState S) (right : TypeDefinition) : Noted (PareState S) :=
  match state.arena.findAll ⟨.type, right.name⟩ with
  | [] => do
    Traced.emit (.absentType right.name)
    return { state with arena := state.arena.push (.type right) }
  | slots => slots.foldlM (pareSlot right) state

/-- Pares a definition of the source. -/
def pareDefinition (state : PareState S) : Definition → Noted (PareState S)
  | .type right => pareTypeDefinition state right
  | .extension node => do pareTypeDefinition state (← node.normalize)
  | .directive right =>
    match state.arena.find? ⟨.directive, right.name⟩ with
    | some _ => return state
    | none => do
      Traced.emit (.absentDirective right.name)
      return { state with arena := state.arena.push (.directive right) }
  | .schema _ => do
    Traced.emit .leavingSchema
    return state

/-! ## Schemas -/

/-- Pares a bundle from another one.  Their documents are taken as they are. -/
def pareBundles (target source : Bundle R S) : Noted (Bundle R S) := do
  let source ← source.document.normalize
  Traced.emit (.paring source.definitions.length target.document.definitions.length)
  let state ← source.definitions.foldlM pareDefinition
    ⟨.ofDocument target.document, [], target.scalars⟩
  let document := state.arena.toDocument
  let (resolvers, _) ← target.resolvers.removeFields state.removed document
  let (resolvers, _) ← resolvers.retainPresent document
  return ⟨document, resolvers, state.scalars⟩

/-- Pares a source schema from a target schema. -/
def pare (target source : Source R S) : Noted (Except SourceError (Bundle R S)) := do
  match ← target.toBundle .pare .target with
  | .error cause => return .error cause
  | .ok target =>
    match ← source.toBundle .pare .source with
    | .error cause => return .error cause
    | .ok source => return .ok (← pareBundles target source)

/-- The text that describes a pare. -/
def describePare : String := "PareEngine"

/-- Pares two texts and prints the result. -/
def pareTexts (target source : String) : Noted (Except SourceError String) := do
  let pared : Except SourceError (Bundle Unit Unit) ← pare (.sdl target) (.sdl source)
  return pared.map Bundle.print

end SchemaAlgebra
