import SchemaAlgebra.OrderedMap
import SchemaAlgebra.Language.Document

/-!
# Sibling nodes

The nodes of one collection are told apart by their names.  Where a name stands more than once, the
first node of that name is the one that counts: `findSibling` looks for it from the front, and a
`SiblingIndex` remembers where each name stands first.
-/

namespace SchemaAlgebra

variable {α : Type} [Named α]

/-- The first node with a name. -/
def findSibling (siblings : List α) (name : String) : Option α :=
  siblings.find? fun node => Named.name node = name

/-- The first place of each name in a collection. -/
structure SiblingIndex where
  positions : OrderedMap String Nat
  deriving DecidableEq

namespace SiblingIndex

/-- The place of a name. -/
def find? (index : SiblingIndex) (name : String) : Option Nat := index.positions.get? name

/-- Notes the place of a name, unless it has one. -/
def insert (index : SiblingIndex) (name : String) (position : Nat) : SiblingIndex :=
  if index.positions.contains name then index else ⟨index.positions.insert name position⟩

/-- The index of a collection. -/
def ofList (siblings : List α) : SiblingIndex :=
  siblings.zipIdx.foldl (fun index entry => index.insert (Named.name entry.1) entry.2) ⟨∅⟩

/-- Noting a place changes the place of a new name only. -/
theorem find?_insert (index : SiblingIndex) (name other : String) (position : Nat) :
    (index.insert name position).find? other =
      if other = name then (index.find? name).or (some position) else index.find? other := by
  unfold insert find?
  split
  · next present =>
    by_cases h : other = name
    · subst h
      obtain ⟨place, hp⟩ := Option.isSome_iff_exists.mp present
      simp [hp]
    · simp [h]
  · next absent =>
    have none : index.positions.get? name = none := by
      simpa [OrderedMap.contains] using absent
    simp [OrderedMap.get?_insert, none]

end SiblingIndex

end SchemaAlgebra
