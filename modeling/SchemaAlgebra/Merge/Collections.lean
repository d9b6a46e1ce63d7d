import SchemaAlgebra.Policy
import SchemaAlgebra.Siblings

/-!
# Merging collections

Two collections of named nodes are merged node by node: a right node whose name is new goes to the
end, and one whose name is there is settled with the node of that name, in its place.  The merged
collection thus begins with the left one's names in their order and goes on with the names that the
right one adds.

The place of each name is looked up in an index that grows along with the collection.
-/

namespace SchemaAlgebra

variable {S α : Type} [Named α]

/-- Merges one right node into the nodes merged so far, which come with their index. -/
def mergeSibling (owner : String) (resolve : α → α → Asking S α) (merged : List α × SiblingIndex)
    (right : α) : Asking S (List α × SiblingIndex) :=
  let (nodes, index) := merged
  let name := Named.name right
  match index.find? name with
  | some place =>
    match nodes[place]? with
    | some left => do
      Asking.note (.resolvingConflict owner name)
      let node ← resolve left right
      -- The place keeps its name in the index, whatever the answer is called.
      return (nodes.set place node, index)
    | none => return merged
  | none => do
    Asking.note (.addingNode owner name)
    return (nodes ++ [right], index.insert name nodes.length)

/-- Merges two collections.  `owner` names the node they belong to, and `resolve` settles two nodes
of the same name. -/
def mergeSiblings (owner : String) (left right : List α) (resolve : α → α → Asking S α) :
    Asking S (List α) := do
  let (nodes, _) ← right.foldlM (mergeSibling owner resolve) (left, .ofList left)
  return nodes

/-- Merges two collections without asking: of two nodes of the same name the left one stays. -/
def mergeFirstWins (owner : String) (left right : List α) : Asking S (List α) :=
  mergeSiblings owner left right fun node _ => return node

/-- Merges two collections without asking: of two nodes of the same name the right one is taken. -/
def mergeLastWins (owner : String) (left right : List α) : Asking S (List α) :=
  mergeSiblings owner left right fun _ node => return node

/-- Adds the names of a list that are not in another one to its end. -/
def unionNames (left right : List String) : List String :=
  right.foldl (fun names name => if names.contains name then names else names ++ [name]) left

example : unionNames ["a", "b"] ["c", "a", "c"] = ["a", "b", "c"] := by decide +kernel

end SchemaAlgebra
