import SchemaAlgebra.OrderedMap
import SchemaAlgebra.Language.Document

/-!
# Arenas

An `Arena` is the working copy of a document.  Its definitions stand in numbered slots.  Removing a
definition empties its slot and leaves all other numbers as they are, and new definitions get new
slots at the end.  An index finds the slots of a name.

Types, directives and schema definitions have name spaces of their own: a type and a directive may
have the same name, and all schema definitions share the empty one.
-/

namespace SchemaAlgebra

/-! ## Keys -/

/-- The name spaces of top-level definitions. -/
inductive Namespace where
  | directive | schema | type
  deriving DecidableEq, Repr

/-- A name in its name space. -/
structure DefinitionKey where
  space : Namespace
  name : String
  deriving DecidableEq, Repr

/-- The key that a definition is found under.  A type and its extensions have the same one. -/
def Definition.key : Definition → DefinitionKey
  | .directive definition => ⟨.directive, definition.name⟩
  | .schema _ => ⟨.schema, ""⟩
  | .type definition => ⟨.type, definition.name⟩
  | .extension node => ⟨.type, node.name⟩

/-! ## Arenas -/

/-- A document's definitions in slots, with an index of their keys. -/
structure Arena where
  /-- The definitions; a slot without one has been emptied. -/
  slots : List (Option Definition)
  /-- The slots of each key in increasing order. -/
  index : OrderedMap DefinitionKey (List Nat)
  deriving DecidableEq

namespace Arena

/-- The arena without slots. -/
def empty : Arena := ⟨[], ∅⟩

instance : EmptyCollection Arena := ⟨empty⟩
instance : Inhabited Arena := ⟨empty⟩

/-- The slots of a key, in increasing order. -/
def findAll (arena : Arena) (key : DefinitionKey) : List Nat := (arena.index.get? key).getD []

/-- The first slot of a key. -/
def find? (arena : Arena) (key : DefinitionKey) : Option Nat := (arena.findAll key).head?

/-- The definition in a slot. -/
def get? (arena : Arena) (slot : Nat) : Option Definition := arena.slots[slot]?.join

/-- Puts a definition into a new slot at the end. -/
def push (arena : Arena) (definition : Definition) : Arena where
  slots := arena.slots ++ [some definition]
  index := arena.index.insert definition.key (arena.findAll definition.key ++ [arena.slots.length])

/-- Empties a slot.  Look-ups of its key go on to the next slot of that key; a key without slots
leaves the index. -/
def remove (arena : Arena) (slot : Nat) : Arena :=
  match arena.get? slot with
  | none => arena
  | some definition =>
    let key := definition.key
    let others := (arena.findAll key).filter (· ≠ slot)
    { slots := arena.slots.set slot none
      index := if others.isEmpty then arena.index.erase key else arena.index.insert key others }

/-- Overwrites a slot.  The index stays as it is, so the new definition must have the key of the
one before it. -/
def replace (arena : Arena) (slot : Nat) (definition : Definition) : Arena :=
  { arena with slots := arena.slots.set slot (some definition) }

/-- The arena that holds a document's definitions in order. -/
def ofDocument (document : Document) : Arena := document.definitions.foldl push ∅

/-- The definitions that are left, in order. -/
def toDocument (arena : Arena) : Document := ⟨arena.slots.filterMap id⟩

/-! ## Views -/

@[simp] theorem slots_push (arena : Arena) (definition : Definition) :
    (arena.push definition).slots = arena.slots ++ [some definition] := rfl

@[simp] theorem slots_replace (arena : Arena) (slot : Nat) (definition : Definition) :
    (arena.replace slot definition).slots = arena.slots.set slot (some definition) := rfl

private theorem slots_foldl_push (definitions : List Definition) (arena : Arena) :
    (definitions.foldl push arena).slots = arena.slots ++ definitions.map some := by
  induction definitions generalizing arena with
  | nil => simp
  | cons definition rest ih => simp [ih]

/-- A document's definitions get a slot each, in order. -/
theorem slots_ofDocument (document : Document) :
    (ofDocument document).slots = document.definitions.map some := by
  simp [ofDocument, slots_foldl_push, EmptyCollection.emptyCollection, empty]

/-- A document that is put into an arena comes out unchanged. -/
@[simp] theorem toDocument_ofDocument (document : Document) :
    (ofDocument document).toDocument = document := by
  simp [toDocument, slots_ofDocument]

end Arena

end SchemaAlgebra
