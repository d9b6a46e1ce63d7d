import Mathlib.Data.List.Induction
import SchemaAlgebra.Proofs.Siblings

/-!
# Colliding nodes

Where two collections are merged and neither repeats a name, every right node collides with one left
node at most.  The policy is then asked once for each collision, in the order of the right nodes, and
its answer stands in the place of the left node.

The answer may have any name.  The index keeps the name that the place had, so a renamed node meets no
later right node, and a right node that has the new name is added all the same.

## Main statements

* `mergeSibling_step`: one right node, merged into what the ones before it gave.
* `value_mergeSiblings_eq`, `questions_mergeSiblings`: the merged collection and the questions about it.
-/

namespace SchemaAlgebra

variable {S α : Type} [Named α]

/-- The pairs of a left and a right node that have a name in common, in the order of the right ones. -/
def collisions (left right : List α) : List (α × α) :=
  right.filterMap fun node => (findSibling left (Named.name node)).map (·, node)

/-- The left nodes with an answer in the place of each that collides, and behind them the right nodes of
new names. -/
def landed (resolve : α → α → α) (left right : List α) : List α :=
  (left.map fun node => ((findSibling right (Named.name node)).map (resolve node)).getD node) ++
    right.filter (Named.name · ∉ namesOf left)

example : landed (fun l r => l ++ r) ["a", "b"] ["c", "b"] = ["a", "bb", "c"] := by decide +kernel

/-! ## Where a name stands -/

/-- A name takes a collection that does not repeat it apart. -/
theorem exists_split_of_mem_namesOf {nodes : List α} {name : String} (hmem : name ∈ namesOf nodes)
    (hnodup : (namesOf nodes).Nodup) :
    ∃ front node back, nodes = front ++ node :: back ∧ Named.name node = name ∧
      name ∉ namesOf front ∧ name ∉ namesOf back := by
  obtain ⟨node, hnode, rfl⟩ := List.mem_map.mp hmem
  obtain ⟨front, back, rfl⟩ := List.append_of_mem hnode
  rw [namesOf_append, namesOf_cons, List.nodup_append, List.nodup_cons] at hnodup
  obtain ⟨-, ⟨hback, -⟩, hfront⟩ := hnodup
  refine ⟨front, node, back, rfl, rfl, fun hagain => ?_, hback⟩
  exact hfront _ hagain _ List.mem_cons_self rfl

theorem firstPlace?_eq_none_iff {nodes : List α} {name : String} :
    firstPlace? nodes name = none ↔ name ∉ namesOf nodes := by
  simp [firstPlace?, List.findIdx?_eq_none_iff, namesOf]

theorem firstPlace?_of_split {front : List α} {node : α} (back : List α)
    (hfront : Named.name node ∉ namesOf front) :
    firstPlace? (front ++ node :: back) (Named.name node) = some front.length := by
  induction front with
  | nil => simp [firstPlace?_cons]
  | cons first rest ih =>
    rw [namesOf_cons, List.mem_cons, not_or] at hfront
    have hne : ¬ Named.name first = Named.name node := fun e => hfront.1 e.symm
    rw [List.cons_append, firstPlace?_cons, if_neg hne, ih hfront.2]
    rfl

theorem findSibling_of_split {front : List α} {node : α} (back : List α)
    (hfront : Named.name node ∉ namesOf front) :
    findSibling (front ++ node :: back) (Named.name node) = some node := by
  rw [findSibling_append, findSibling_eq_none_iff.mpr hfront, Option.none_or, findSibling_cons,
    if_pos rfl]

/-! ## One right node -/

section Landed

variable {resolve : α → α → α} {left done : List α} {node : α}

/-- A right node meets nothing in the left nodes of other names. -/
theorem map_landed_snoc_of_ne (h : Named.name node ∉ namesOf left) :
    (left.map fun l => ((findSibling (done ++ [node]) (Named.name l)).map (resolve l)).getD l) =
      left.map fun l => ((findSibling done (Named.name l)).map (resolve l)).getD l := by
  apply List.map_congr_left
  intro l hl
  have hne : ¬ Named.name node = Named.name l := fun e => h (e ▸ List.mem_map_of_mem hl)
  rw [findSibling_append, findSibling_cons, if_neg hne]
  simp [findSibling]

/-- A right node of a new name goes to the end. -/
theorem landed_snoc_of_new (h : Named.name node ∉ namesOf left) :
    landed resolve left (done ++ [node]) = landed resolve left done ++ [node] := by
  rw [landed, landed, map_landed_snoc_of_ne h, List.filter_append, List.append_assoc]
  simp [h]

/-- The answer about a right node lands in the place of the left node that it collides with. -/
theorem landed_snoc_of_collision (resolve : α → α → α) {front back : List α} {l : α}
    (hname : Named.name l = Named.name node) (hfront : Named.name node ∉ namesOf front)
    (hback : Named.name node ∉ namesOf back) (hdone : Named.name node ∉ namesOf done) :
    (landed resolve (front ++ l :: back) done)[front.length]? = some l ∧
      landed resolve (front ++ l :: back) (done ++ [node]) =
        (landed resolve (front ++ l :: back) done).set front.length (resolve l node) := by
  have hbefore : findSibling done (Named.name l) = none := by
    rw [findSibling_eq_none_iff, hname]
    exact hdone
  have hafter : findSibling (done ++ [node]) (Named.name l) = some node := by
    rw [findSibling_append, hbefore, Option.none_or, hname, findSibling_cons, if_pos rfl]
  have hold : Named.name node ∈ namesOf (front ++ l :: back) := by simp [hname]
  have hnothing : [node].filter (Named.name · ∉ namesOf (front ++ l :: back)) = [] :=
    List.filter_cons_of_neg (by simpa only [decide_eq_true_eq, not_not] using hold)
  refine ⟨?_, ?_⟩
  · simp [landed, hbefore]
  · rw [landed, landed, List.filter_append, hnothing, List.append_nil]
    simp only [List.map_append, List.map_cons, hbefore, hafter, map_landed_snoc_of_ne hfront,
      map_landed_snoc_of_ne hback]
    simp

theorem collisions_snoc (left done : List α) (node : α) :
    collisions left (done ++ [node]) = collisions left done ++ collisions left [node] :=
  List.filterMap_append

end Landed

/-- The step: merging a right node into what the right nodes before it gave.  The index knows the left
nodes under their old names. -/
theorem mergeSibling_step (owner : String) (resolve : α → α → Asking S α) {left done : List α}
    {right : α} {index : SiblingIndex} (hleft : (namesOf left).Nodup)
    (hnew : Named.name right ∉ namesOf done)
    (hindex : index.Tracks (left ++ done.filter (Named.name · ∉ namesOf left))) :
    let answer := fun l r => (resolve l r).value
    let step := mergeSibling owner resolve (landed answer left done, index) right
    step.value.1 = landed answer left (done ++ [right]) ∧
      step.value.2.Tracks (left ++ (done ++ [right]).filter (Named.name · ∉ namesOf left)) ∧
      step.questions = (collisions left [right]).flatMap fun pair =>
        (resolve pair.1 pair.2).questions := by
  intro answer step
  by_cases hold : Named.name right ∈ namesOf left
  · obtain ⟨front, l, back, rfl, hname, hfront, hback⟩ := exists_split_of_mem_namesOf hold hleft
    rw [← hname] at hfront
    -- The place is the one of the left node, which nothing has been put into so far.
    have hplace : index.find? (Named.name right) = some front.length := by
      rw [hindex, ← hname, List.append_assoc, List.cons_append, firstPlace?_of_split _ hfront]
    have hsibling : findSibling (front ++ l :: back) (Named.name right) = some l := by
      rw [← hname, findSibling_of_split _ hfront]
    rw [hname] at hfront
    obtain ⟨hunchanged, hlands⟩ := landed_snoc_of_collision answer hname hfront hback hnew
    have hstep : step = do
        Asking.note (.resolvingConflict owner (Named.name right))
        let node ← resolve l right
        return ((landed answer (front ++ l :: back) done).set front.length node, index) := by
      simp only [step, mergeSibling, hplace, hunchanged]
    have hfilter : (done ++ [right]).filter (Named.name · ∉ namesOf (front ++ l :: back)) =
        done.filter (Named.name · ∉ namesOf (front ++ l :: back)) := by
      have hnothing : [right].filter (Named.name · ∉ namesOf (front ++ l :: back)) = [] :=
        List.filter_cons_of_neg (by simpa only [decide_eq_true_eq, not_not] using hold)
      rw [List.filter_append, hnothing, List.append_nil]
    rw [hstep, hlands, hfilter]
    refine ⟨rfl, hindex, ?_⟩
    simp [collisions, hsibling]
  · -- Neither a left node nor a right node before this one has the name.
    have hplace : index.find? (Named.name right) = none := by
      rw [hindex, firstPlace?_eq_none_iff, namesOf_append, List.mem_append, not_or]
      refine ⟨hold, fun hmem => hnew ?_⟩
      exact List.map_subset _ List.filter_sublist.subset hmem
    have hlength : (landed answer left done).length =
        (left ++ done.filter (Named.name · ∉ namesOf left)).length := by
      simp [landed]
    have hfilter : left ++ (done ++ [right]).filter (Named.name · ∉ namesOf left) =
        (left ++ done.filter (Named.name · ∉ namesOf left)) ++ [right] := by
      rw [List.filter_append, List.filter_cons_of_pos (by simpa using hold), List.filter_nil,
        List.append_assoc]
    have hstep : step = do
        Asking.note (.addingNode owner (Named.name right))
        return (landed answer left done ++ [right],
          index.insert (Named.name right) (landed answer left done).length) := by
      simp only [step, mergeSibling, hplace]
    rw [hstep, landed_snoc_of_new hold, hfilter, hlength]
    refine ⟨rfl, SiblingIndex.tracks_insert hindex right, ?_⟩
    simp [collisions, findSibling_eq_none_iff.mpr hold]

/-! ## Whole collections -/

section Run

variable (owner : String) (resolve : α → α → Asking S α) {left right : List α}
  (hleft : (namesOf left).Nodup) (hright : (namesOf right).Nodup)
include hleft hright

/-- The run: merging any front part of the right nodes. -/
theorem foldlM_mergeSibling :
    let answer := fun l r => (resolve l r).value
    let run := right.foldlM (mergeSibling owner resolve) (left, .ofList left)
    run.value.1 = landed answer left right ∧
      run.value.2.Tracks (left ++ right.filter (Named.name · ∉ namesOf left)) ∧
      run.questions = (collisions left right).flatMap fun pair =>
        (resolve pair.1 pair.2).questions := by
  intro answer
  -- From the end of the part: its last node is merged into what the others gave.
  induction right using List.reverseRecOn with
  | nil =>
    refine ⟨?_, ?_, rfl⟩
    · simp [landed, findSibling]
    · rw [List.filter_nil, List.append_nil]
      exact SiblingIndex.tracks_ofList left
  | append_singleton done node ih =>
    rw [namesOf_append, List.nodup_append] at hright
    obtain ⟨hdone, -, hapart⟩ := hright
    have hnew : Named.name node ∉ namesOf done := fun hmem =>
      hapart _ hmem _ (List.mem_singleton_self _) rfl
    obtain ⟨hnodes, hindex, hquestions⟩ := ih hdone
    obtain ⟨hlanded, htracks, hasked⟩ := mergeSibling_step owner resolve hleft hnew hindex
    rw [← hnodes] at hlanded htracks hasked
    intro run
    have hrun : run = done.foldlM (mergeSibling owner resolve) (left, .ofList left) >>= fun state =>
        mergeSibling owner resolve state node := by
      simp [run, List.foldlM_append]
    rw [hrun, Traced.value_bind, Asking.questions_bind, hquestions, collisions_snoc,
      List.flatMap_append]
    exact ⟨hlanded, htracks, congrArg _ hasked⟩

theorem value_mergeSiblings_eq : (mergeSiblings owner left right resolve).value =
    landed (fun l r => (resolve l r).value) left right :=
  (foldlM_mergeSibling owner resolve hleft hright).1

theorem questions_mergeSiblings : (mergeSiblings owner left right resolve).questions =
    (collisions left right).flatMap fun pair => (resolve pair.1 pair.2).questions := by
  rw [← (foldlM_mergeSibling owner resolve hleft hright).2.2, mergeSiblings, Asking.questions_bind]
  exact List.append_nil _

end Run

end SchemaAlgebra
