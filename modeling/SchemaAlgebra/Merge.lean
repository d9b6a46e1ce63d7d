import SchemaAlgebra.Merge.Types
import SchemaAlgebra.Source

/-!
# Merging schemas

`merge` combines two schemas.  What only the source defines is added at the end of the target; what
both define is merged in the target's place, and a `Policy` settles what both say differently.  The
source's extensions count as definitions.

* A type is merged by its directives and members.
* A directive definition of the source replaces the target's.
* A schema definition is merged by its directives and operations, the source winning.

The resolver maps of both sides are merged, the source winning, and cut down to what the merged
document declares.  The scalar configs follow the policy.

`mergeAll` merges any number of schemas, one after the other.
-/

namespace SchemaAlgebra

variable {R S : Type}

/-! ## Definitions -/

/-- A merge under way: the target's definitions, and the policy's answers about scalars. -/
structure MergeState (S : Type) where
  arena : Arena
  answers : OrderedMap String (ScalarAnswer S)

/-- Merges two schema definitions.  The source wins, operation by operation. -/
def mergeSchemaDefinitions (left right : SchemaDefinition) : Asking S SchemaDefinition := do
  let directives ← mergeLastWins "schema" left.directives right.directives
  return {
    directives
    query := right.query.or left.query
    mutation := right.mutation.or left.mutation
    subscription := right.subscription.or left.subscription }

/-- The target's first schema definition, with its slot. -/
def Arena.schema? (arena : Arena) : Option (Nat × SchemaDefinition) :=
  match arena.find? ⟨.schema, ""⟩ with
  | none => none
  | some slot =>
    match arena.get? slot with
    | some (.schema definition) => some (slot, definition)
    | _ => none

/-- Merges a directive definition of the source. -/
def mergeDirectiveDefinition (arena : Arena) (right : DirectiveDefinition) : Asking S Arena :=
  match arena.find? ⟨.directive, right.name⟩ with
  | some slot => do
    Asking.note (.replacingDirective right.name)
    return arena.replace slot (.directive right)
  | none => do
    Asking.note (.addingDirective right.name)
    return arena.push (.directive right)

/-- Merges a schema definition of the source. -/
def mergeSchemaDefinition (arena : Arena) (right : SchemaDefinition) : Asking S Arena :=
  match arena.schema? with
  | some (slot, left) => do
    return arena.replace slot (.schema (← mergeSchemaDefinitions left right))
  | none => return arena.push (.schema right)

/-- Merges a type definition of the source. -/
def mergeTypeDefinition (policy : Policy S) (sides : ScalarSides S) (state : MergeState S)
    (right : TypeDefinition) : Asking S (MergeState S) := do
  match ← foldNodes state.arena right.name with
  | (arena, none) =>
    Asking.note (.addingType right.kind right.name)
    return { state with arena := arena.push (.type right) }
  | (arena, some (slot, left)) =>
    Asking.note (.mergingType right.kind right.name left.kind)
    let (merged, answer) ← mergeType policy sides left right
    let answers := match answer with
      | some answer => state.answers.insert right.name answer
      | none => state.answers
    return ⟨arena.replace slot (.type merged), answers⟩

/-- Merges a definition of the source. -/
def mergeDefinition (policy : Policy S) (sides : ScalarSides S) (state : MergeState S) :
    Definition → Asking S (MergeState S)
  | .type right => mergeTypeDefinition policy sides state right
  | .extension node => do mergeTypeDefinition policy sides state (← node.normalize)
  | .directive right => do
    return { state with arena := ← mergeDirectiveDefinition state.arena right }
  | .schema right => do
    return { state with arena := ← mergeSchemaDefinition state.arena right }

/-! ## Schemas -/

/-- Merges two bundles whose documents are taken as they are. -/
def mergeBundles (policy : Policy S) (target source : Bundle R S) : Asking S (Bundle R S) := do
  let source := { source with document := ← source.document.normalize }
  Asking.note (.merging source.document.definitions.length target.document.definitions.length)
  -- The configs are looked up in the two schemas as they are before the merge.
  let sides : ScalarSides S := ⟨target.registry, source.registry⟩
  let state ← source.document.definitions.foldlM (mergeDefinition policy sides)
    ⟨.ofDocument target.document, ∅⟩
  let document := state.arena.toDocument
  let (resolvers, _) ← (target.resolvers.merge source.resolvers).retainPresent document
  let scalars ← mergeScalars target.scalars source.scalars state.answers document
  return ⟨document, resolvers, scalars⟩

/-- Merges a source schema into a target schema. -/
def merge (policy : Policy S) (target source : Source R S) :
    Asking S (Except SourceError (Bundle R S)) := do
  match ← target.toBundle .merge .target with
  | .error cause => return .error cause
  | .ok target =>
    match ← source.toBundle .merge .source with
    | .error cause => return .error cause
    | .ok source => return .ok (← mergeBundles policy target source)

/-- Merges the next schema of a list into the bundle that the ones before it gave. -/
def mergeNext (policy : Policy S) (merged : Except SourceError (Bundle R S)) (source : Source R S) :
    Asking S (Except SourceError (Bundle R S)) :=
  match merged with
  | .error cause => return .error cause
  | .ok bundle => merge policy (.bundle bundle) source

/-- Merges a list of schemas in order, starting from the empty one.  After a failure the rest is
not looked at. -/
def mergeAll (policy : Policy S) (sources : List (Source R S)) :
    Asking S (Except SourceError (Bundle R S)) :=
  sources.foldlM (mergeNext policy) (.ok ∅)

/-- The text that describes a merge under some policy. -/
def describeMerge (policy : Policy S) : String :=
  s!"MergeEngine \x7b resolvers: {policy.describe} \x7d"

/-- Merges two texts under the policy that the source wins, and prints the result. -/
def mergeTexts (target source : String) : Asking Unit (Except SourceError String) := do
  let merged : Except SourceError (Bundle Unit Unit) ←
    merge Policy.rightWins (.sdl target) (.sdl source)
  return merged.map Bundle.print

end SchemaAlgebra
