import SchemaAlgebra.OrderedMap
import SchemaAlgebra.RootTypes
import SchemaAlgebra.Trace
import SchemaAlgebra.Text.Inspect

/-!
# Resolver maps

A resolver map assigns resolvers to the fields of a schema.  It has entries of two forms: a *type
entry* holds the resolvers of a type's fields, and a *root field entry* stands for a field of
whichever root operation type declares it.  A map is *flattened* if it has an entry of the second
form.

The keys of both forms share one name space, so a root field whose name is the key of a type entry
cannot be flattened.

What a resolver is does not matter here; its type is the parameter `R`.
-/

namespace SchemaAlgebra

/-- An entry of a resolver map. -/
inductive ResolverEntry (R : Type) where
  /-- The resolvers of a type's fields. -/
  | type (fields : OrderedMap String R)
  /-- The resolver of a field of the root operation types. -/
  | rootField (resolver : R)

/-- The fields of a type entry. -/
def ResolverEntry.fields? {R : Type} : ResolverEntry R → Option (OrderedMap String R)
  | .type fields => some fields
  | .rootField _ => none

/-- The resolver of a root field entry. -/
def ResolverEntry.root? {R : Type} : ResolverEntry R → Option R
  | .type _ => none
  | .rootField resolver => some resolver

/-- Resolvers by type and field, or by root field. -/
structure ResolverMap (R : Type) where
  entries : OrderedMap String (ResolverEntry R)

namespace ResolverMap

variable {R : Type}

instance : EmptyCollection (ResolverMap R) := ⟨⟨∅⟩⟩
instance : Inhabited (ResolverMap R) := ⟨∅⟩

/-! ## Looking up -/

/-- The number of entries. -/
def size (map : ResolverMap R) : Nat := map.entries.size

/-- Whether a map has no entries. -/
def isEmpty (map : ResolverMap R) : Bool := map.entries.isEmpty

/-- Whether a map has a root field entry. -/
def isFlattened (map : ResolverMap R) : Bool :=
  map.entries.values.any fun entry => entry.root?.isSome

/-- The resolvers of a type's entry. -/
def type? (map : ResolverMap R) (type : String) : Option (OrderedMap String R) :=
  (map.entries.get? type).bind ResolverEntry.fields?

/-- The resolver in the type entry of a field. -/
def nested? (map : ResolverMap R) (type field : String) : Option R :=
  (map.type? type).bind (·.get? field)

/-- The resolver in the root field entry of a field. -/
def root? (map : ResolverMap R) (field : String) : Option R :=
  (map.entries.get? field).bind ResolverEntry.root?

/-- Whether a field has a resolver in the entry of its type. -/
def hasField (map : ResolverMap R) (type field : String) : Bool := (map.nested? type field).isSome

/-- Whether a field has a root field entry. -/
def hasRootField (map : ResolverMap R) (field : String) : Bool := (map.root? field).isSome

/-- The resolver of a field: the one in its type's entry, or else, for a root operation type, the
one in the field's root field entry. -/
def resolver? (map : ResolverMap R) (type field : String) (roots : RootTypes) : Option R :=
  (map.nested? type field).or (if roots.contains type then map.root? field else none)

/-- The resolvers of a map in order, each with its type, if it stands in a type entry, and its
field. -/
def leaves (map : ResolverMap R) : List (Option String × String × R) :=
  map.entries.entries.flatMap fun (key, entry) =>
    match entry with
    | .type fields => fields.entries.map fun (field, resolver) => (some key, field, resolver)
    | .rootField resolver => [(none, key, resolver)]

/-! ## Inserting -/

/-- Puts a resolver into the entry of its type.  A root field entry under that name gives way. -/
def insertField (map : ResolverMap R) (type field : String) (resolver : R) : ResolverMap R :=
  ⟨map.entries.insert type (.type (((map.type? type).getD ∅).insert field resolver))⟩

/-- Puts a resolver into a root field entry.  A type entry under that name gives way. -/
def insertRootField (map : ResolverMap R) (field : String) (resolver : R) : ResolverMap R :=
  ⟨map.entries.insert field (.rootField resolver)⟩

/-- Merges one entry into a map: the fields of a type entry into the type entry of that name, and
any other entry in place of what stands there. -/
def mergeEntry (map : ResolverMap R) (key : String) (entry : ResolverEntry R) : ResolverMap R :=
  match map.type? key, entry with
  | some left, .type right => ⟨map.entries.insert key (.type (left.insertAll right.entries))⟩
  | _, entry => ⟨map.entries.insert key entry⟩

/-- Merges two maps.  The right one wins, field by field where both have a type entry. -/
def merge (left right : ResolverMap R) : ResolverMap R :=
  right.entries.entries.foldl (fun map (key, entry) => map.mergeEntry key entry) left

/-! ## Flattening and nesting -/

/-- Moves the resolver of a root operation type's field into a root field entry, unless the map has
a type entry under the field's name.  Such a field is put aside. -/
def flattenField (map : ResolverMap R) (type : String)
    (state : ResolverMap R × List (String × String × R)) (field : String) (resolver : R) :
    Noted (ResolverMap R × List (String × String × R)) := do
  if (map.type? field).isSome then
    Traced.emit (.unableToFlatten type field)
    return (state.1, state.2 ++ [(type, field, resolver)])
  else return (state.1.insertRootField field resolver, state.2)

/-- Moves one entry into a map that is being flattened. -/
def flattenEntry (map : ResolverMap R) (roots : RootTypes)
    (state : ResolverMap R × List (String × String × R)) (key : String) (entry : ResolverEntry R) :
    Noted (ResolverMap R × List (String × String × R)) :=
  match entry with
  | .type fields =>
    if roots.contains key then
      fields.entries.foldlM
        (fun state (field, resolver) => map.flattenField key state field resolver) state
    else
      return (fields.entries.foldl
        (fun acc (field, resolver) => acc.insertField key field resolver) state.1, state.2)
  | .rootField resolver => return (state.1.insertRootField key resolver, state.2)

/-- The map with root field entries for the fields of all root operation types.  Fields that
cannot be flattened stay in the entries of their types, which come last. -/
def flatten (map : ResolverMap R) (roots : RootTypes) : Noted (ResolverMap R) := do
  let (flat, aside) ← map.entries.entries.foldlM
    (fun state (key, entry) => map.flattenEntry roots state key entry) (∅, [])
  return aside.foldl (fun acc (type, field, resolver) => acc.insertField type field resolver) flat

/-- The first root operation type that declares a field. -/
def owner? (document : Document) (field : String) : Option String :=
  (RootTypes.ofDocument document).toList.find? (document.declares · field)

/-- Moves one entry into a map that is being nested. -/
def nestEntry (document : Document) (acc : ResolverMap R) (key : String)
    (entry : ResolverEntry R) : Noted (ResolverMap R) :=
  match entry with
  | .type fields =>
    return fields.entries.foldl (fun acc (field, resolver) => acc.insertField key field resolver) acc
  | .rootField resolver =>
    match owner? document key with
    | some type => return acc.insertField type key resolver
    | none => do
      Traced.emit (.notARootField key)
      return acc.insertRootField key resolver

/-- The map with each root field entry moved into the entry of the root operation type that
declares the field.  Entries whose field no root type declares stay as they are. -/
def nest (map : ResolverMap R) (document : Document) : Noted (ResolverMap R) :=
  map.entries.entries.foldlM (fun acc (key, entry) => nestEntry document acc key entry) ∅

/-- The map in flattened or in nested form. -/
def «export» (map : ResolverMap R) (flattened : Bool) (document : Document) :
    Noted (ResolverMap R) :=
  if flattened then map.flatten (RootTypes.ofDocument document) else map.nest document

/-! ## Removing -/

/-- Removes the resolver of a field, and tells whether there was one.  `document` no longer has the
field on that type.  A resolver in a root field entry stays as long as a root operation type
declares the field.  A type entry without fields is removed. -/
def removePath (document : Document) (map : ResolverMap R) (type field : String) :
    Noted (ResolverMap R × Bool) :=
  if map.hasField type field then do
    Traced.emit (.removedResolver type field)
    let left := ((map.type? type).getD ∅).erase field
    -- No type entry is left empty.
    let entries :=
      if left.isEmpty then map.entries.erase type else map.entries.insert type (.type left)
    return (⟨entries⟩, true)
  else if !(RootTypes.ofDocument document).contains type || !map.hasRootField field then
    return (map, false)
  -- All root operation types share the root field entry.
  else if document.declaresOnRoot field then do
    Traced.emit (.keepingFlattened field)
    return (map, false)
  else do
    Traced.emit (.removedFlattened type field)
    return (⟨map.entries.erase field⟩, true)

/-- Removes the resolvers of many fields one after the other, and counts the ones removed. -/
def removeFields (map : ResolverMap R) (paths : List (String × String)) (document : Document) :
    Noted (ResolverMap R × Nat) :=
  paths.foldlM (fun (map, count) (type, field) => do
    let (map, removed) ← removePath document map type field
    return (map, if removed then count + 1 else count)) (map, 0)

/-- Removes the resolver of a field, and tells whether there was one. -/
def removeField (map : ResolverMap R) (type field : String) (document : Document) :
    Noted (ResolverMap R × Bool) := do
  let (map, count) ← map.removeFields [(type, field)] document
  return (map, count == 1)

/-- Removes the entry under a name, and tells whether it was a type entry. -/
def removeType (map : ResolverMap R) (type : String) : ResolverMap R × Bool :=
  (⟨map.entries.erase type⟩, (map.type? type).isSome)

/-- Whether a name belongs to a resolver about a type as a whole rather than about a field. -/
def isMeta (field : String) : Bool := "__".toList.isPrefixOf field.toList

/-- Whether a field's resolver is about something that a type still has, given the type's
members. -/
def keepsField (members : List String) (field : String) : Bool :=
  isMeta field || members.contains field

/-- An entry without the resolvers of what a document no longer has; nothing if none is left. -/
def retainEntry (document : Document) (key : String) :
    ResolverEntry R → Option (ResolverEntry R)
  | .type fields => do
    let members ← document.membersOf? key
    let kept := fields.filter fun field _ => keepsField members field
    if kept.isEmpty then none else some (.type kept)
  | .rootField resolver =>
    if document.declaresOnRoot key then some (.rootField resolver) else none

/-- The paths of the resolvers in an entry that are about what a document no longer has. -/
def orphansIn (document : Document) (key : String) : ResolverEntry R → List String
  | .type fields =>
    let lost := match document.membersOf? key with
      | none => fields.keys
      | some members => fields.keys.filter (!keepsField members ·)
    lost.map fun field => key ++ "." ++ field
  | .rootField _ => if document.declaresOnRoot key then [] else [key]

/-- Removes the resolvers of what a document no longer has, and gives their paths in the order of
the map.  Resolvers about types as a whole stay for as long as their type. -/
def retainPresent (map : ResolverMap R) (document : Document) :
    Noted (ResolverMap R × List String) := do
  let orphans := map.entries.entries.flatMap fun (key, entry) => orphansIn document key entry
  orphans.forM fun path => Traced.emit (.orphanedResolver path)
  return (⟨map.entries.filterMap (retainEntry document)⟩, orphans)

/-! ## Describing -/

/-- The text that describes an entry: its fields, or that it is one of a root field. -/
def describeEntry : ResolverEntry R → String
  | .type fields => "Type([" ++ ", ".intercalate (fields.keys.map inspect) ++ "])"
  | .rootField _ => "RootField"

/-- The text that describes a map: its keys with the forms of their entries. -/
def describe (map : ResolverMap R) : String :=
  "ResolverMap \x7b entries: \x7b" ++
    ", ".intercalate (map.entries.entries.map fun (key, entry) =>
      inspect key ++ ": " ++ describeEntry entry) ++
    "\x7d \x7d"

end ResolverMap

end SchemaAlgebra
