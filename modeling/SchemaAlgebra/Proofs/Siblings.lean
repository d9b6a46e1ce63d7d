import SchemaAlgebra.Merge.Collections

/-!
# Merged collections

`mergeSiblings` looks names up in an index that grows along with the collection.  Here it is shown
to compute what a plain scan computes: `settle` goes through a collection to the first node of a
name, and `settleAll` does that for every right node in turn.

The merged collection is then described without any loop, by its names and by the node under each
name.

## Main statements

* `value_mergeSiblings`: the indexed merge is the scan, for answers that keep their name.
* `namesOf_settleAll`: the left names, then the further right names by first occurrence.
* `findSibling_lastWins`, `findSibling_firstWins`: the node under each name.
-/

namespace SchemaAlgebra

variable {S α : Type} [Named α]

/-! ## Scanning -/

/-- Settles a right node with the first node of its name, in that node's place.  A node whose name
is new goes to the end. -/
def settle (resolve : α → α → α) (right : α) : List α → List α
  | [] => [right]
  | node :: rest =>
    if Named.name node = Named.name right then resolve node right :: rest
    else node :: settle resolve right rest

/-- Settles the right nodes one after the other. -/
def settleAll (resolve : α → α → α) (left right : List α) : List α :=
  right.foldl (fun nodes node => settle resolve node nodes) left

/-- The left node of two stays. -/
def firstWins (left right : List α) : List α := settleAll (fun node _ => node) left right

/-- The right node of two is taken. -/
def lastWins (left right : List α) : List α := settleAll (fun _ node => node) left right

/-- An answer has the name of the two nodes that it is given. -/
def KeepsName (resolve : α → α → α) : Prop :=
  ∀ left right, Named.name left = Named.name right →
    Named.name (resolve left right) = Named.name right

theorem keepsName_first : KeepsName fun (node _ : α) => node := fun _ _ h => h

theorem keepsName_last : KeepsName fun (_ node : α) => node := fun _ _ _ => rfl

/-- What stands behind is settled after what stands before. -/
theorem settleAll_append (resolve : α → α → α) (left right more : List α) :
    settleAll resolve left (right ++ more) = settleAll resolve (settleAll resolve left right) more :=
  List.foldl_append

/-! ## The index stands for the scan -/

/-- Where a name stands first. -/
def firstPlace? (nodes : List α) (name : String) : Option Nat :=
  nodes.findIdx? fun node => Named.name node = name

theorem firstPlace?_cons (node : α) (rest : List α) (name : String) :
    firstPlace? (node :: rest) name =
      if Named.name node = name then some 0 else (firstPlace? rest name).map (· + 1) := by
  simp [firstPlace?, List.findIdx?_cons]

theorem firstPlace?_snoc (nodes : List α) (node : α) (name : String) :
    firstPlace? (nodes ++ [node]) name =
      (firstPlace? nodes name).or (if Named.name node = name then some nodes.length else none) := by
  simp only [firstPlace?, List.findIdx?_append, List.findIdx?_singleton, decide_eq_true_eq]
  split <;> simp

/-- Settling replaces the node in the first place of the name, if the name has one. -/
theorem settle_of_firstPlace? (resolve : α → α → α) (right : α) (nodes : List α) :
    (firstPlace? nodes (Named.name right) = none → settle resolve right nodes = nodes ++ [right]) ∧
    (∀ place, firstPlace? nodes (Named.name right) = some place →
      ∃ left, nodes[place]? = some left ∧ Named.name left = Named.name right ∧
        settle resolve right nodes = nodes.set place (resolve left right)) := by
  induction nodes with
  | nil => simp [firstPlace?, settle]
  | cons node rest ih =>
    rw [firstPlace?_cons]
    by_cases hnode : Named.name node = Named.name right
    · simp [settle, hnode]
    · -- If the name has a place, it is one in the rest, one further on.
      obtain ⟨absent, present⟩ := ih
      simp only [settle, hnode, if_false, Option.map_eq_none_iff, Option.map_eq_some_iff]
      refine ⟨fun hnone => by simp [absent hnone], ?_⟩
      rintro _ ⟨place, hplace, rfl⟩
      obtain ⟨left, hleft, hname, heq⟩ := present place hplace
      exact ⟨left, by simpa using hleft, hname, by simp [heq]⟩

/-- An index knows the first place of every name of a collection. -/
def SiblingIndex.Tracks (index : SiblingIndex) (nodes : List α) : Prop :=
  ∀ name, index.find? name = firstPlace? nodes name

theorem SiblingIndex.tracks_insert {index : SiblingIndex} {nodes : List α}
    (h : index.Tracks nodes) (node : α) :
    (index.insert (Named.name node) nodes.length).Tracks (nodes ++ [node]) := by
  intro name
  rw [find?_insert, firstPlace?_snoc, ← h name]
  by_cases hname : name = Named.name node
  · simp [hname]
  · have hname' : ¬ Named.name node = name := fun e => hname e.symm
    simp [hname, hname']

/-- Going on with an index from the place where it ends keeps it right. -/
private theorem tracks_foldl_zipIdx (nodes : List α) {index : SiblingIndex} {done : List α}
    (h : index.Tracks done) :
    ((nodes.zipIdx done.length).foldl
      (fun index entry => index.insert (Named.name entry.1) entry.2) index).Tracks
      (done ++ nodes) := by
  induction nodes generalizing index done with
  | nil => simpa using h
  | cons node rest ih =>
    have hnext := ih (SiblingIndex.tracks_insert h node)
    simpa [List.zipIdx_cons] using hnext

theorem SiblingIndex.tracks_ofList (nodes : List α) : (ofList nodes).Tracks nodes := by
  have hempty : (⟨∅⟩ : SiblingIndex).Tracks ([] : List α) := fun _ => rfl
  simpa [ofList] using tracks_foldl_zipIdx nodes hempty

/-- A change that keeps the name in a place keeps the first place of every name. -/
theorem firstPlace?_set {nodes : List α} {place : Nat} {left node : α}
    (hleft : nodes[place]? = some left) (hname : Named.name node = Named.name left) (name : String) :
    firstPlace? (nodes.set place node) name = firstPlace? nodes name := by
  induction nodes generalizing place with
  | nil => simp at hleft
  | cons first rest ih =>
    cases place with
    | zero =>
      obtain rfl : first = left := by simpa using hleft
      simp [firstPlace?_cons, hname]
    | succ place =>
      have hrest : rest[place]? = some left := by simpa using hleft
      simp [firstPlace?_cons, ih hrest]

/-- One step of the indexed merge: it settles the right node, and its index stays right. -/
theorem value_mergeSibling (owner : String) {resolve : α → α → Asking S α}
    (hkeeps : KeepsName fun left right => (resolve left right).value)
    {nodes : List α} {index : SiblingIndex} (h : index.Tracks nodes) (right : α) :
    (mergeSibling owner resolve (nodes, index) right).value.1 =
        settle (fun left right => (resolve left right).value) right nodes ∧
      (mergeSibling owner resolve (nodes, index) right).value.2.Tracks
        (mergeSibling owner resolve (nodes, index) right).value.1 := by
  obtain ⟨absent, present⟩ :=
    settle_of_firstPlace? (fun left right => (resolve left right).value) right nodes
  simp only [mergeSibling, h (Named.name right)]
  cases hplace : firstPlace? nodes (Named.name right) with
  | none =>
    refine ⟨(absent hplace).symm, ?_⟩
    exact SiblingIndex.tracks_insert h right
  | some place =>
    obtain ⟨left, hleft, hname, heq⟩ := present place hplace
    simp only [hleft, Traced.value_bind, Traced.value_pure]
    refine ⟨heq.symm, fun name => ?_⟩
    -- The answer keeps its name, so the index need not change.
    have hsame : Named.name (resolve left right).value = Named.name left :=
      (hkeeps left right hname).trans hname.symm
    rw [h name, firstPlace?_set hleft hsame]

/-- The indexed merge is the scan, as long as answers keep the name they were asked about. -/
theorem value_mergeSiblings (owner : String) (left right : List α) (resolve : α → α → Asking S α)
    (hkeeps : KeepsName fun left right => (resolve left right).value) :
    (mergeSiblings owner left right resolve).value =
      settleAll (fun left right => (resolve left right).value) left right := by
  -- The index grows along with the collection, so the induction is for any index that tracks one.
  have loop : ∀ (right nodes : List α) (index : SiblingIndex), index.Tracks nodes →
      (right.foldl (fun state node => (mergeSibling owner resolve state node).value)
        (nodes, index)).1 = settleAll (fun left right => (resolve left right).value) nodes right := by
    intro right
    induction right with
    | nil => intro nodes index _; rfl
    | cons node rest ih =>
      intro nodes index h
      obtain ⟨heq, htracks⟩ := value_mergeSibling owner hkeeps h node
      simp only [List.foldl_cons, settleAll, ← heq]
      exact ih _ _ htracks
  simpa [mergeSiblings] using loop right left _ (SiblingIndex.tracks_ofList left)

@[simp] theorem value_mergeFirstWins (owner : String) (left right : List α) :
    (mergeFirstWins owner left right : Asking S (List α)).value = firstWins left right :=
  value_mergeSiblings owner left right _ keepsName_first

@[simp] theorem value_mergeLastWins (owner : String) (left right : List α) :
    (mergeLastWins owner left right : Asking S (List α)).value = lastWins left right :=
  value_mergeSiblings owner left right _ keepsName_last

/-! ## Names -/

@[simp] theorem namesOf_nil : namesOf ([] : List α) = [] := rfl

@[simp] theorem namesOf_cons (node : α) (rest : List α) :
    namesOf (node :: rest) = Named.name node :: namesOf rest := rfl

@[simp] theorem namesOf_append (left right : List α) :
    namesOf (left ++ right) = namesOf left ++ namesOf right := List.map_append

/-- Union members are names themselves. -/
@[simp] theorem namesOf_self (names : List String) : namesOf names = names := List.map_id names

section Names

variable {resolve : α → α → α} (hkeeps : KeepsName resolve)
include hkeeps

theorem namesOf_settle (right : α) (nodes : List α) :
    namesOf (settle resolve right nodes) =
      if Named.name right ∈ namesOf nodes then namesOf nodes
      else namesOf nodes ++ [Named.name right] := by
  induction nodes with
  | nil => simp [settle]
  | cons node rest ih =>
    by_cases hnode : Named.name node = Named.name right
    · simp [settle, hnode, hkeeps node right hnode]
    · have hnode' : ¬ Named.name right = Named.name node := fun e => hnode e.symm
      simp only [settle, hnode, if_false, namesOf_cons, ih, List.mem_cons, hnode', false_or]
      split <;> simp

/-- The merged collection has the left names in their order, followed by the further right names
in the order of their first occurrence. -/
theorem namesOf_settleAll (left right : List α) :
    namesOf (settleAll resolve left right) =
      namesOf left ++ ((namesOf right).filter (· ∉ namesOf left)).eraseDups := by
  induction right generalizing left with
  | nil => simp [settleAll]
  | cons node rest ih =>
    have hstep : settleAll resolve left (node :: rest) =
        settleAll resolve (settle resolve node left) rest := rfl
    rw [hstep, ih, namesOf_settle hkeeps]
    by_cases hnode : Named.name node ∈ namesOf left
    · simp [namesOf_cons, hnode]
    · -- The name is new: it heads the further names, and the rest is looked up without it.
      simp only [hnode, if_false, List.append_assoc, namesOf_cons, List.filter_cons,
        decide_not, decide_false, Bool.not_false, if_true, List.eraseDups_cons, List.filter_filter]
      have hfurther : (namesOf rest).filter (fun name =>
            !decide (name ∈ namesOf left ++ [Named.name node])) =
          (namesOf rest).filter fun name =>
            !name == Named.name node && !decide (name ∈ namesOf left) :=
        List.filter_congr fun name _ => by
          by_cases hname : name = Named.name node <;> simp [hname]
      rw [List.singleton_append, hfurther]

theorem mem_namesOf_settleAll {left right : List α} {name : String} :
    name ∈ namesOf (settleAll resolve left right) ↔ name ∈ namesOf left ∨ name ∈ namesOf right := by
  rw [namesOf_settleAll hkeeps, List.mem_append, List.mem_eraseDups, List.mem_filter]
  by_cases h : name ∈ namesOf left <;> simp [h]

theorem nodup_settle {nodes : List α} (right : α) (h : (namesOf nodes).Nodup) :
    (namesOf (settle resolve right nodes)).Nodup := by
  rw [namesOf_settle hkeeps]
  split
  case isTrue => exact h
  case isFalse hnew =>
    rw [List.nodup_append]
    refine ⟨h, by simp, ?_⟩
    rintro name hname _ hlast rfl
    rw [List.mem_singleton] at hlast
    exact hnew (hlast ▸ hname)

/-- A merged collection repeats no name if the left one repeats none. -/
theorem nodup_settleAll {left : List α} (right : List α) (h : (namesOf left).Nodup) :
    (namesOf (settleAll resolve left right)).Nodup := by
  induction right generalizing left with
  | nil => exact h
  | cons node rest ih => exact ih (nodup_settle hkeeps node h)

end Names

theorem mem_unionNames {left right : List String} {name : String} :
    name ∈ unionNames left right ↔ name ∈ left ∨ name ∈ right := by
  unfold unionNames
  induction right generalizing left with
  | nil => simp
  | cons first rest ih =>
    rw [List.foldl_cons, ih]
    by_cases hfirst : first ∈ left
    · rw [if_pos (List.contains_iff_mem.mpr hfirst), List.mem_cons]
      constructor
      · exact Or.imp_right .inr
      · rintro (h | rfl | h)
        · exact .inl h
        · exact .inl hfirst
        · exact .inr h
    · rw [if_neg (mt List.contains_iff_mem.mp hfirst), List.mem_append, List.mem_singleton,
        List.mem_cons, or_assoc]

section Origins

variable {resolve : α → α → α}
  (heither : ∀ left right, resolve left right = left ∨ resolve left right = right)
include heither

theorem settle_subset (right : α) (nodes : List α) : settle resolve right nodes ⊆ nodes ++ [right] := by
  induction nodes with
  | nil => exact List.Subset.refl _
  | cons node rest ih =>
    unfold settle
    split
    · refine List.cons_subset.mpr ⟨?_, fun other hother => by simp [hother]⟩
      rcases heither node right with hanswer | hanswer <;> simp [hanswer]
    · exact List.cons_subset_cons node ih

/-- If every answer is one of the two nodes, nothing is in the merged collection that neither side
has. -/
theorem settleAll_subset (left right : List α) : settleAll resolve left right ⊆ left ++ right := by
  induction right generalizing left with
  | nil => simp [settleAll]
  | cons node rest ih =>
    intro other hother
    rcases List.mem_append.mp (ih _ hother) with hsettled | hrest
    · have hstep := settle_subset heither node left hsettled
      rw [List.append_cons, List.mem_append]
      exact .inl hstep
    · exact List.mem_append_right _ (List.mem_cons_of_mem _ hrest)

end Origins

theorem firstWins_subset (left right : List α) : firstWins left right ⊆ left ++ right :=
  settleAll_subset (fun _ _ => .inl rfl) left right

theorem lastWins_subset (left right : List α) : lastWins left right ⊆ left ++ right :=
  settleAll_subset (fun _ _ => .inr rfl) left right

theorem unionNames_subset (left right : List String) : unionNames left right ⊆ left ++ right :=
  fun _ hname => List.mem_append.mpr (mem_unionNames.mp hname)

/-- Nodes whose names are new and distinct are added as they stand. -/
theorem settleAll_of_nodup (resolve : α → α → α) {left right : List α}
    (h : (namesOf (left ++ right)).Nodup) : settleAll resolve left right = left ++ right := by
  induction right generalizing left with
  | nil => simp [settleAll]
  | cons node rest ih =>
    -- The node is new among the left ones, and the rest is new behind it.
    have hnew : firstPlace? left (Named.name node) = none := by
      rw [firstPlace?, List.findIdx?_eq_none_iff]
      intro other hother
      rw [namesOf_append, namesOf_cons, List.nodup_append] at h
      have hne := h.2.2 _ (List.mem_map_of_mem hother) _ List.mem_cons_self
      simpa using hne
    have hstep : settle resolve node left = left ++ [node] :=
      (settle_of_firstPlace? resolve node left).1 hnew
    have hrest : (namesOf ((left ++ [node]) ++ rest)).Nodup := by
      simpa [List.append_assoc] using h
    calc settleAll resolve left (node :: rest)
        = settleAll resolve (settle resolve node left) rest := rfl
      _ = (left ++ [node]) ++ rest := by rw [hstep]; exact ih hrest
      _ = left ++ node :: rest := by simp

/-! ## The node under each name -/

theorem findSibling_cons (node : α) (rest : List α) (name : String) :
    findSibling (node :: rest) name =
      if Named.name node = name then some node else findSibling rest name := by
  simp only [findSibling, List.find?_cons]
  by_cases h : Named.name node = name <;> simp [h]

theorem findSibling_append (left right : List α) (name : String) :
    findSibling (left ++ right) name = (findSibling left name).or (findSibling right name) :=
  List.find?_append

theorem findSibling_eq_none_iff {nodes : List α} {name : String} :
    findSibling nodes name = none ↔ name ∉ namesOf nodes := by
  simp only [findSibling, List.find?_eq_none, decide_eq_true_eq, namesOf, List.mem_map, not_exists,
    not_and]

/-- Settling a node changes what stands under its own name only. -/
theorem findSibling_settle {resolve : α → α → α} (hkeeps : KeepsName resolve) (right : α)
    (nodes : List α) (name : String) :
    findSibling (settle resolve right nodes) name =
      if Named.name right = name then
        some (((findSibling nodes name).map (resolve · right)).getD right)
      else findSibling nodes name := by
  induction nodes with
  | nil => simp [settle, findSibling]
  | cons node rest ih =>
    by_cases hnode : Named.name node = Named.name right
    · by_cases hname : Named.name right = name
      · simp [settle, findSibling_cons, hnode, hkeeps node right hnode, hname]
      · simp [settle, findSibling_cons, hnode, hkeeps node right hnode, hname]
    · by_cases hname : Named.name right = name
      · subst hname
        simp [settle, findSibling_cons, hnode, ih]
      · simp [settle, findSibling_cons, hnode, ih, hname]

/-- If the left nodes stay, the first node of a name counts. -/
theorem findSibling_firstWins (left right : List α) (name : String) :
    findSibling (firstWins left right) name =
      (findSibling left name).or (findSibling right name) := by
  induction right generalizing left with
  | nil => simp [firstWins, settleAll, findSibling]
  | cons node rest ih =>
    have hstep : firstWins left (node :: rest) =
        firstWins (settle (fun node _ => node) node left) rest := rfl
    rw [hstep, ih, findSibling_settle keepsName_first, findSibling_cons]
    split
    · cases findSibling left name <;> simp
    · rfl

/-- If the right nodes are taken, the last node of a name counts. -/
theorem findSibling_lastWins (left right : List α) (name : String) :
    findSibling (lastWins left right) name =
      (findSibling right.reverse name).or (findSibling left name) := by
  induction right generalizing left with
  | nil => simp [lastWins, settleAll, findSibling]
  | cons node rest ih =>
    have hstep : lastWins left (node :: rest) =
        lastWins (settle (fun _ node => node) node left) rest := rfl
    rw [hstep, ih, findSibling_settle keepsName_last, List.reverse_cons, findSibling_append,
      findSibling_cons]
    -- A node of the name that comes later in the rest hides both this one and the left one.
    split
    · cases findSibling rest.reverse name <;> cases findSibling left name <;> simp
    · simp [findSibling]

end SchemaAlgebra
