import SchemaAlgebra.Proofs.Siblings

/-!
# Collections merged by looking through them

The index that `mergeSiblings` looks names up in is there to save time only.  `scanSiblings` does without:
for each right node it looks through the nodes merged so far, from the front, for one of the same name.
As long as answers keep the name that they were asked about, both do the same: they give the same
collection, ask the same questions in the same order, and report the same notices.

Names may be repeated on either side.  In both ways the first node of a name is the one that counts.

## Main statements

* `mergeSibling_eq_scan`: one right node, with an index that tracks the nodes merged so far.
* `mergeSiblings_eq_scan`: whole collections.
-/

namespace SchemaAlgebra

variable {S α : Type} [Named α]

/-! ## The plain scan -/

/-- Merges one right node into the nodes merged so far.  The first of them that has its name gives way to
the answer about the two, and a node of a new name goes to the end. -/
def scanSibling (owner : String) (resolve : α → α → Asking S α) (nodes : List α) (right : α) :
    Asking S (List α) :=
  let name := Named.name right
  match findSibling nodes name with
  | some left => do
    Asking.note (.resolvingConflict owner name)
    let node ← resolve left right
    return nodes.set (nodes.findIdx fun node => Named.name node = name) node
  | none => do
    Asking.note (.addingNode owner name)
    return nodes ++ [right]

/-- Merges two collections by looking through them. -/
def scanSiblings (owner : String) (left right : List α) (resolve : α → α → Asking S α) :
    Asking S (List α) :=
  right.foldlM (scanSibling owner resolve) left

/-! ## First places and first nodes -/

theorem findSibling_of_firstPlace?_eq_none {nodes : List α} {name : String}
    (h : firstPlace? nodes name = none) : findSibling nodes name = none := by
  rw [firstPlace?, List.findIdx?_eq_none_iff] at h
  rw [findSibling, List.find?_eq_none]
  intro node hnode
  rw [h node hnode]
  exact Bool.false_ne_true

/-- In the first place of a name stands the node that a scan finds. -/
theorem findSibling_of_firstPlace?_eq_some {nodes : List α} {name : String} {place : Nat}
    (h : firstPlace? nodes name = some place) :
    ∃ left, nodes[place]? = some left ∧ Named.name left = name ∧
      findSibling nodes name = some left ∧
      nodes.findIdx (fun node => Named.name node = name) = place := by
  have hidx : nodes.findIdx (fun node => Named.name node = name) = place := by
    rw [List.findIdx_eq_getD_findIdx?]
    exact congrArg (Option.getD · nodes.length) h
  obtain ⟨hlt, hname, hbefore⟩ := List.findIdx?_eq_some_iff_getElem.mp h
  refine ⟨nodes[place], List.getElem?_eq_getElem hlt, by simpa using hname, ?_, hidx⟩
  rw [findSibling, List.find?_eq_some_iff_getElem]
  exact ⟨hname, place, hlt, rfl, fun earlier hearlier => by simpa using hbefore earlier hearlier⟩

/-! ## The index stands for the scan -/

/-- How a computation goes on matters only for the value that it has. -/
theorem Traced.bind_congr {ε β γ : Type} {x : Traced ε β} {f g : β → Traced ε γ}
    (h : f x.value = g x.value) : x >>= f = x >>= g :=
  Traced.ext (by rw [Traced.value_bind, Traced.value_bind, h])
    (by rw [Traced.events_bind, Traced.events_bind, h])

section Scan

variable (owner : String) {resolve : α → α → Asking S α}
  (hkeeps : KeepsName fun left right => (resolve left right).value)
include hkeeps

/-- The step: with an index that tracks the nodes merged so far, one right node is merged as the scan
merges it, and the index goes on tracking. -/
theorem mergeSibling_eq_scan {nodes : List α} {index : SiblingIndex} (h : index.Tracks nodes)
    (right : α) :
    ∃ next : SiblingIndex, next.Tracks (scanSibling owner resolve nodes right).value ∧
      mergeSibling owner resolve (nodes, index) right =
        (·, next) <$> scanSibling owner resolve nodes right := by
  cases hplace : firstPlace? nodes (Named.name right) with
  | none =>
    refine ⟨index.insert (Named.name right) nodes.length, ?_, ?_⟩
    · simp only [scanSibling, findSibling_of_firstPlace?_eq_none hplace]
      exact SiblingIndex.tracks_insert h right
    · simp [mergeSibling, scanSibling, h (Named.name right), hplace,
        findSibling_of_firstPlace?_eq_none hplace]
  | some place =>
    obtain ⟨left, hleft, hname, hfound, hidx⟩ := findSibling_of_firstPlace?_eq_some hplace
    refine ⟨index, ?_, ?_⟩
    · -- The answer keeps the name of the node that it replaces, so no first place moves.
      have hsame : Named.name (resolve left right).value = Named.name left :=
        (hkeeps left right hname).trans hname.symm
      intro name
      simp only [scanSibling, hfound, hidx, Traced.value_bind, Traced.value_pure]
      rw [firstPlace?_set hleft hsame, h name]
    · simp [mergeSibling, scanSibling, h (Named.name right), hplace, hleft, hfound, hidx]

/-- The run: from any nodes and an index that tracks them, the right nodes are merged as the scan merges
them. -/
theorem foldlM_mergeSibling_eq_scan {nodes : List α} {index : SiblingIndex} (h : index.Tracks nodes)
    (right : List α) :
    Prod.fst <$> right.foldlM (mergeSibling owner resolve) (nodes, index) =
      right.foldlM (scanSibling owner resolve) nodes := by
  induction right generalizing nodes index with
  | nil => rfl
  | cons node rest ih =>
    obtain ⟨next, htracks, hstep⟩ := mergeSibling_eq_scan owner hkeeps h node
    rw [List.foldlM_cons, List.foldlM_cons, hstep, bind_map_left, map_bind]
    -- The rest goes on from the nodes that this step gives, which the next index tracks.
    exact Traced.bind_congr (ih htracks)

end Scan

/-- Merging two collections by the index is merging them by looking through them: the collection, the
questions and the notices are the same for all answers that keep their name, whatever names either side
repeats.  And if the left side repeats no name, neither does the merged collection. -/
theorem mergeSiblings_eq_scan (owner : String) (left right : List α) (resolve : α → α → Asking S α)
    (hkeeps : KeepsName fun left right => (resolve left right).value) :
    mergeSiblings owner left right resolve = scanSiblings owner left right resolve ∧
      ((namesOf left).Nodup → (namesOf (mergeSiblings owner left right resolve).value).Nodup) := by
  refine ⟨?_, fun hleft => ?_⟩
  · rw [mergeSiblings, scanSiblings,
      ← foldlM_mergeSibling_eq_scan owner hkeeps (SiblingIndex.tracks_ofList left) right]
    exact (bind_pure_comp _ _).symm
  · rw [value_mergeSiblings owner left right resolve hkeeps]
    exact nodup_settleAll hkeeps right hleft

/-- Both sides repeat a name, and the answers join the directives of the two nodes that they are about. -/
theorem mergeSiblings_repeatedValues_eq_scan :
    let resolve : EnumValue → EnumValue → Asking Unit EnumValue := fun left right =>
      return { right with directives := left.directives ++ right.directives }
    let left : List EnumValue := [⟨none, "A", [⟨"x", []⟩]⟩, ⟨none, "B", []⟩, ⟨none, "A", []⟩]
    let right : List EnumValue :=
      [⟨none, "C", []⟩, ⟨none, "A", [⟨"y", []⟩]⟩, ⟨none, "C", []⟩, ⟨none, "A", [⟨"z", []⟩]⟩]
    (KeepsName fun left right => (resolve left right).value) ∧
      mergeSiblings "E" left right resolve = scanSiblings "E" left right resolve ∧
      ((namesOf left).Nodup → (namesOf (mergeSiblings "E" left right resolve).value).Nodup) :=
  have hkeeps := fun _ _ _ => rfl
  ⟨hkeeps, mergeSiblings_eq_scan "E" _ _ _ hkeeps⟩

/-- Where an answer has another name, the index goes on knowing its place by the old one. -/
example :
    let resolve : String → String → Asking Unit String := fun left right => return left ++ right
    (mergeSiblings "U" ["a"] ["a", "a"] resolve).value = ["aaa"] ∧
      (scanSiblings "U" ["a"] ["a", "a"] resolve).value = ["aa", "a"] := by decide +kernel

end SchemaAlgebra
