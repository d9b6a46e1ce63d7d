import SchemaAlgebra.Proofs.Collisions
import SchemaAlgebra.Proofs.ScalarConfigs

/-!
# What the policy is asked

A source node is merged into the node that the target has of its type.  The policy, which may be any, is
asked once about each pair of nodes that collide: first about the directives, then about the members if
both types have members of the same sort, or about the configs if both are scalars.  It is shown the left
type as it is at that time, and its answer goes where the left node of the pair was.

Neither of the two types may repeat a name within a collection.  Gathering the nodes of the target asks
nothing.

## Main statements

* `mergeType_asks`: two nodes of a type.
* `mergeTypeDefinition_asksPerCollision`: a source node and the document so far.
* `merge_asksPerCollision`: any source node, within a whole merge.
-/

namespace SchemaAlgebra

variable {R S : Type}

/-! ## What is asked about two nodes -/

/-- The questions about two collections, one for each collision. -/
def questionsAbout {α : Type} [Named α] (ask : α → α → Question S) (left right : List α) :
    List (Question S) :=
  (collisions left right).map fun pair => ask pair.1 pair.2

namespace Policy

variable (policy : Policy S) (left right : TypeDefinition)

/-- What comes in the place of an output field.  An input field cannot, so the right field does. -/
def outputField (l r : Field) : Field :=
  match policy.field left (.output l) right (.output r) with
  | .output node => node
  | .input _ => r

/-- What comes in the place of an input field.  An output field cannot, so the right field does. -/
def inputField (l r : InputValue) : InputValue :=
  match policy.field left (.input l) right (.input r) with
  | .input node => node
  | .output _ => r

/-- The left node with the merged directives and still with its old members. -/
def mergedDirectives : TypeDefinition :=
  { left with
    directives :=
      landed (fun l r => policy.directive left l right r) left.directives right.directives }

/-- The left body with the answers about its members. -/
def mergedBody : TypeBody :=
  match left.body with
  | .scalar => .scalar
  | .object interfaces fields =>
    .object interfaces (landed (policy.outputField left right) fields right.body.outputFields)
  | .interface interfaces fields =>
    .interface interfaces (landed (policy.outputField left right) fields right.body.outputFields)
  | .union members =>
    .union (landed (fun l r => policy.unionMember left l right r) members right.body.unionMembers)
  | .enum values =>
    .enum (landed (fun l r => policy.enumValue left l right r) values right.body.enumValues)
  | .inputObject fields =>
    .inputObject (landed (policy.inputField left right) fields right.body.inputFields)

/-- The left node with all answers about it and a right node. -/
def mergedType : TypeDefinition :=
  let left := policy.mergedDirectives left right
  { left with body := policy.mergedBody left right }

/-- The questions about the members of two nodes, if these are of one sort. -/
def memberQuestions (left right : TypeDefinition) : List (Question S) :=
  match left.body.collection, right.body.collection with
  | .outputFields, .outputFields =>
    questionsAbout (fun l r => .field left (.output l) right (.output r)) left.body.outputFields
      right.body.outputFields
  | .inputFields, .inputFields =>
    questionsAbout (fun l r => .field left (.input l) right (.input r)) left.body.inputFields
      right.body.inputFields
  | .enumValues, .enumValues =>
    questionsAbout (fun l r => .enumValue left l right r) left.body.enumValues right.body.enumValues
  | .unionMembers, .unionMembers =>
    questionsAbout (fun l r => .unionMember left l right r) left.body.unionMembers
      right.body.unionMembers
  | _, _ => []

/-- The question about the configs of two scalars. -/
def scalarQuestions (sides : ScalarSides S) (left right : TypeDefinition) : List (Question S) :=
  if left.kind = .scalar ∧ right.kind = .scalar then
    [.scalar left (sides.visible? .target right.name) right (sides.visible? .source right.name)]
  else []

/-- All questions about two nodes, in order. -/
def typeQuestions (policy : Policy S) (sides : ScalarSides S) (left right : TypeDefinition) :
    List (Question S) :=
  let directed := policy.mergedDirectives left right
  questionsAbout (fun l r => .directive left l right r) left.directives right.directives ++
    (memberQuestions directed right ++ scalarQuestions sides directed right)

end Policy

/-! ## Two nodes -/

/-- A way to settle two nodes that consults the policy once. -/
structure AsksOnce {α : Type} (resolve : α → α → Asking S α) (ask : α → α → Question S)
    (answer : α → α → α) : Prop where
  value : ∀ l r, (resolve l r).value = answer l r
  questions : ∀ l r, (resolve l r).questions = [ask l r]

/-- Two collections that are settled in this way and become part of something. -/
theorem AsksOnce.merged {α β : Type} [Named α] {resolve : α → α → Asking S α}
    {ask : α → α → Question S} {answer : α → α → α} (h : AsksOnce resolve ask answer)
    (build : List α → β) (owner : String) {left right : List α} (hleft : (namesOf left).Nodup)
    (hright : (namesOf right).Nodup) :
    (build <$> mergeSiblings owner left right resolve).value = build (landed answer left right) ∧
      (build <$> mergeSiblings owner left right resolve).questions =
        questionsAbout ask left right := by
  have hanswer : (fun l r => (resolve l r).value) = answer :=
    funext fun l => funext fun r => h.value l r
  rw [Traced.value_map, Asking.questions_map, value_mergeSiblings_eq owner resolve hleft hright,
    questions_mergeSiblings owner resolve hleft hright, hanswer]
  refine ⟨rfl, ?_⟩
  simp only [h.questions]
  exact List.map_eq_flatMap.symm

section Nodes

variable (policy : Policy S) (left right : TypeDefinition)

/-- An input field among the answers is reported and not taken. -/
theorem asksOnce_outputField :
    AsksOnce (fun l r => do
        match ← policy.askField left (.output l) right (.output r) with
        | .output node => return node
        | .input _ =>
          Asking.note (.unexpectedInputField right.name r.name)
          return r)
      (fun l r => .field left (.output l) right (.output r)) (policy.outputField left right) where
  value l r := by
    rw [Traced.value_bind, Policy.outputField]
    cases hanswer : policy.field left (.output l) right (.output r) with
    | output node => simp [Policy.askField, hanswer]
    | input node => simp [Policy.askField, hanswer]
  questions l r := by
    cases hanswer : policy.field left (.output l) right (.output r) with
    | output node => simp [Policy.askField, hanswer]
    | input node => simp [Policy.askField, hanswer]

/-- An output field among the answers is reported and not taken. -/
theorem asksOnce_inputField :
    AsksOnce (fun l r => do
        match ← policy.askField left (.input l) right (.input r) with
        | .input node => return node
        | .output _ =>
          Asking.note (.unexpectedOutputField right.name r.name)
          return r)
      (fun l r => .field left (.input l) right (.input r)) (policy.inputField left right) where
  value l r := by
    rw [Traced.value_bind, Policy.inputField]
    cases hanswer : policy.field left (.input l) right (.input r) with
    | output node => simp [Policy.askField, hanswer]
    | input node => simp [Policy.askField, hanswer]
  questions l r := by
    cases hanswer : policy.field left (.input l) right (.input r) with
    | output node => simp [Policy.askField, hanswer]
    | input node => simp [Policy.askField, hanswer]

theorem asksOnce_directive :
    AsksOnce (fun l r => policy.askDirective left l right r) (fun l r => .directive left l right r)
      (fun l r => policy.directive left l right r) :=
  ⟨fun _ _ => rfl, fun _ _ => rfl⟩

theorem asksOnce_enumValue :
    AsksOnce (fun l r => policy.askEnumValue left l right r) (fun l r => .enumValue left l right r)
      (fun l r => policy.enumValue left l right r) :=
  ⟨fun _ _ => rfl, fun _ _ => rfl⟩

theorem asksOnce_unionMember :
    AsksOnce (fun l r => policy.askUnionMember left l right r)
      (fun l r => .unionMember left l right r) (fun l r => policy.unionMember left l right r) :=
  ⟨fun _ _ => rfl, fun _ _ => rfl⟩

variable {left right}

/-- The directives of two nodes. -/
theorem mergeDirectives_asks (hleft : (namesOf left.directives).Nodup)
    (hright : (namesOf right.directives).Nodup) :
    (mergeDirectives policy left right).value = (policy.mergedDirectives left right).directives ∧
      (mergeDirectives policy left right).questions =
        questionsAbout (fun l r => .directive left l right r) left.directives right.directives := by
  have hmerged := (asksOnce_directive policy left right).merged id right.name hleft hright
  rwa [id_map] at hmerged

/-- The members of two nodes.  What the right node does not have collides with nothing. -/
theorem mergeBody_asks (hleft : left.body.memberNames.Nodup) (hright : right.NamesDistinct) :
    (mergeBody policy left right).value = policy.mergedBody left right ∧
      (mergeBody policy left right).questions = Policy.memberQuestions left right := by
  unfold mergeBody Policy.mergedBody Policy.memberQuestions
  -- The left kind says which members are merged; of a right node of another kind that is none.
  cases hbody : left.body with
  | scalar => cases right.body <;> exact ⟨rfl, rfl⟩
  | object interfaces fields =>
    rw [hbody] at hleft
    have hfields : (namesOf right.body.outputFields).Nodup := Part.outputFields.distinct right hright
    obtain ⟨hvalue, hquestions⟩ := (asksOnce_outputField policy left right).merged
      (TypeBody.object interfaces) right.name hleft hfields
    refine ⟨hvalue, hquestions.trans ?_⟩
    cases right.body <;> rfl
  | interface interfaces fields =>
    rw [hbody] at hleft
    have hfields : (namesOf right.body.outputFields).Nodup := Part.outputFields.distinct right hright
    obtain ⟨hvalue, hquestions⟩ := (asksOnce_outputField policy left right).merged
      (TypeBody.interface interfaces) right.name hleft hfields
    refine ⟨hvalue, hquestions.trans ?_⟩
    cases right.body <;> rfl
  | union members =>
    rw [hbody] at hleft
    have hmembers : (namesOf right.body.unionMembers).Nodup := Part.unionMembers.distinct right hright
    obtain ⟨hvalue, hquestions⟩ := (asksOnce_unionMember policy left right).merged
      TypeBody.union right.name (namesOf_self members ▸ hleft) hmembers
    refine ⟨hvalue, hquestions.trans ?_⟩
    cases right.body <;> rfl
  | enum values =>
    rw [hbody] at hleft
    have hvalues : (namesOf right.body.enumValues).Nodup := Part.enumValues.distinct right hright
    obtain ⟨hvalue, hquestions⟩ := (asksOnce_enumValue policy left right).merged
      TypeBody.enum right.name hleft hvalues
    refine ⟨hvalue, hquestions.trans ?_⟩
    cases right.body <;> rfl
  | inputObject fields =>
    rw [hbody] at hleft
    have hfields : (namesOf right.body.inputFields).Nodup := Part.inputFields.distinct right hright
    obtain ⟨hvalue, hquestions⟩ := (asksOnce_inputField policy left right).merged
      TypeBody.inputObject right.name hleft hfields
    refine ⟨hvalue, hquestions.trans ?_⟩
    cases right.body <;> rfl

end Nodes

/-! ## The configs of two scalars -/

theorem questions_shown (sides : ScalarSides S) (side : Side) (scalar : String) :
    (sides.shown side scalar).questions = [] := by
  unfold ScalarSides.shown
  split
  · rfl
  · rfl

theorem questions_settle (policy : Policy S) (sides : ScalarSides S) (left right : TypeDefinition) :
    (sides.settle policy left right).questions =
      [.scalar left (sides.visible? .target right.name) right
        (sides.visible? .source right.name)] := by
  simp [ScalarSides.settle, Policy.askScalar, questions_shown, ScalarSides.value_shown]

/-! ## A whole node -/

section Types

variable (policy : Policy S) (sides : ScalarSides S) {left right : TypeDefinition}

/-- What comes after the directives. -/
theorem mergeMembers_asks (hleft : left.body.memberNames.Nodup) (hright : right.NamesDistinct) :
    let rest : Asking S (TypeDefinition × Option (ScalarAnswer S)) := do
      let body ← mergeBody policy left right
      if left.kind = .scalar ∧ right.kind = .scalar then
        let answer ← sides.settle policy left right
        return ({ left with body }, some answer)
      else return ({ left with body }, none)
    rest.value.1 = { left with body := policy.mergedBody left right } ∧
      rest.questions =
        Policy.memberQuestions left right ++ Policy.scalarQuestions sides left right := by
  intro rest
  obtain ⟨hbody, hasked⟩ := mergeBody_asks policy hleft hright
  simp only [rest, Traced.value_bind, Asking.questions_bind, hbody, hasked, Policy.scalarQuestions]
  split
  · simp [questions_settle]
  · simp

/-- Two nodes of a type. -/
theorem mergeType_asks (hleft : left.NamesDistinct) (hright : right.NamesDistinct) :
    (mergeType policy sides left right).value.1 = policy.mergedType left right ∧
      (mergeType policy sides left right).questions = policy.typeQuestions sides left right := by
  let directed := policy.mergedDirectives left right
  obtain ⟨hdirectives, hasked⟩ := mergeDirectives_asks policy hleft.1 hright.1
  -- The members are still the old ones, whatever has become of the directives.
  have hmembers : directed.body.memberNames.Nodup := hleft.2
  obtain ⟨hvalue, hrest⟩ := mergeMembers_asks policy sides hmembers hright
  unfold mergeType Policy.typeQuestions
  rw [Traced.value_bind, Asking.questions_bind, hdirectives, hasked]
  dsimp only
  split
  · exact ⟨hvalue, congrArg _ hrest⟩
  · exact ⟨hvalue, congrArg _ hrest⟩

end Types

/-! ## A source node and the document so far -/

/-- The first node of a type, in which the later nodes of its kind are gathered. -/
def gathered? (name : String) (definitions : List Definition) : Option TypeDefinition :=
  match nodesOf name definitions with
  | [] => none
  | first :: later => some ((later.filter (·.kind = first.kind)).foldl TypeDefinition.absorb first)

theorem gathered?_of_split {front later : List Definition} {first : Definition}
    {left : TypeDefinition} (hfront : ∀ earlier ∈ front, earlier.key ≠ ⟨.type, left.name⟩)
    (hleft : first.typeDefinition? = some left) :
    gathered? left.name (front ++ first :: later) = some (left.gather later) := by
  rw [gathered?, nodesOf_of_split later hfront hleft rfl, TypeDefinition.gather,
    TypeDefinition.filterMap_piece?_eq_filter]

/-- Gathering asks nothing. -/
theorem questions_foldNodes (arena : Arena) (type : String) :
    (foldNodes arena type : Asking S _).questions = [] :=
  List.eq_nil_iff_forall_not_mem.mpr (all_foldNodes (p := fun _ => False) arena type)

/-- A source node is merged into the gathered node of its type: the policy is asked once for each pair of
nodes that collide, and the answers land in the first node's place. -/
structure AsksPerCollision (policy : Policy S) (sides : ScalarSides S) (before : List Definition)
    (left right : TypeDefinition) (step : Asking S (MergeState S)) : Prop where
  questions : step.questions = policy.typeQuestions sides left right
  lands : ∃ front first later, before = front ++ first :: later ∧
    first.key = ⟨.type, right.name⟩ ∧ (∀ earlier ∈ front, earlier.key ≠ ⟨.type, right.name⟩) ∧
    step.value.arena.toDocument.definitions = front ++ .type (policy.mergedType left right) ::
      later.filter fun definition => (left.piece? definition).isNone

theorem mergeTypeDefinition_asksPerCollision (policy : Policy S) (sides : ScalarSides S)
    {state : MergeState S} (h : state.arena.Indexed) {left right : TypeDefinition}
    (hgathered : gathered? right.name state.arena.toDocument.definitions = some left)
    (hleft : left.NamesDistinct) (hright : right.NamesDistinct) :
    AsksPerCollision policy sides state.arena.toDocument.definitions left right
      (mergeTypeDefinition policy sides state right) := by
  obtain ⟨-, hdocument⟩ := mergeTypeDefinition_refines policy sides h right
  rcases foldNodes_cases (S := S) h right.name with
    ⟨habsent, -⟩ | ⟨front, first, later, node, folded, slot, hsplit, hfront, hnode, hname, hnodes⟩
  · -- The document would have no node of the type.
    rw [gathered?, nodesOf_eq_nil_of_absent habsent] at hgathered
    cases hgathered
  · -- The folded node is the gathered one, since the first node is the same.
    have hkey : first.key = ⟨.type, right.name⟩ := by
      rw [Definition.key_of_typeDefinition? hnode, hname]
    rw [hsplit, ← hname, gathered?_of_split (hname.symm ▸ hfront) hnode] at hgathered
    obtain rfl := Option.some.inj hgathered
    obtain ⟨hmerged, hasked⟩ := mergeType_asks policy sides hleft hright
    refine ⟨?_, front, first, later, hsplit, hkey, hfront, ?_⟩
    · rw [mergeTypeDefinition, Asking.questions_bind, questions_foldNodes, hnodes]
      simp only [Asking.questions_bind, Asking.questions_note, Asking.questions_pure, hasked,
        List.nil_append, List.append_nil]
    · rw [hdocument, hsplit, mergeTypeInto, atFirst_of_split _ hfront hkey, hnode]
      simp only [hmerged, TypeDefinition.piece?, TypeDefinition.name_gather,
        TypeDefinition.kind_gather]

/-! ## Whole merges -/

section Runs

variable (policy : Policy S) (target source : Bundle R S)

theorem mergeRun_append (front back : List Definition) :
    mergeRun policy target source (front ++ back) = mergeRun policy target source front >>= fun state =>
      back.foldlM (mergeDefinition policy (scalarSides target source)) state :=
  List.foldlM_append

theorem indexed_mergeRun (part : List Definition) :
    (mergeRun policy target source part).value.arena.Indexed := by
  rw [mergeRun, Traced.value_foldlM]
  exact (foldl_mergeDefinition_refines policy _ part _ (Arena.indexed_ofDocument _)).1

/-- Nothing is asked outside of the run. -/
theorem questions_mergeBundles : (mergeBundles policy target source).questions =
    (mergeRun policy target source source.document.normalize.value.definitions).questions := by
  simp only [mergeBundles, Asking.questions_bind, Asking.questions_liftM, Asking.questions_note,
    Asking.questions_pure, Asking.value_liftM, List.nil_append, List.append_nil]
  rfl

theorem document_mergeBundles : (mergeBundles policy target source).value.document =
    (mergeRun policy target source
      source.document.normalize.value.definitions).value.arena.toDocument := by
  simp only [mergeBundles, Traced.value_bind, Traced.value_pure, Asking.value_liftM]
  rfl

end Runs

/-- Whatever the policy answers, it is asked about a source node once for each pair of nodes that collide
and about nothing else, between the questions about the source nodes before and behind it, and the
answers land in their places. -/
theorem merge_asksPerCollision (policy : Policy S) {target source : Source R S}
    {targetBundle sourceBundle : Bundle R S}
    (htarget : (target.toBundle .merge .target).value = .ok targetBundle)
    (hsource : (source.toBundle .merge .source).value = .ok sourceBundle)
    {before after : List Definition} {left right : TypeDefinition}
    (hsplit : sourceBundle.document.normalize.value.definitions = before ++ .type right :: after)
    (hgathered : gathered? right.name (mergeRun policy targetBundle sourceBundle
      before).value.arena.toDocument.definitions = some left)
    (hleft : left.NamesDistinct) (hright : right.NamesDistinct) :
    let sides := scalarSides targetBundle sourceBundle
    let sofar := mergeRun policy targetBundle sourceBundle before
    let step := mergeDefinition policy sides sofar.value (.type right)
    let rest := after.foldlM (mergeDefinition policy sides) step.value
    (∃ merged : Bundle R S, (merge policy target source).value = .ok merged ∧
        merged.document = rest.value.arena.toDocument) ∧
      (merge policy target source).questions =
        sofar.questions ++ (step.questions ++ rest.questions) ∧
      AsksPerCollision policy sides sofar.value.arena.toDocument.definitions left right step := by
  intro sides sofar step rest
  -- The run splits at the node, and its questions with it.
  have hrun : mergeRun policy targetBundle sourceBundle
      sourceBundle.document.normalize.value.definitions = sofar >>= fun state =>
        mergeDefinition policy sides state (.type right) >>= fun next =>
          after.foldlM (mergeDefinition policy sides) next := by
    rw [hsplit, mergeRun_append]
    simp only [List.foldlM_cons]
    rfl
  refine ⟨⟨(mergeBundles policy targetBundle sourceBundle).value, ?_, ?_⟩, ?_,
    mergeTypeDefinition_asksPerCollision policy sides
      (indexed_mergeRun policy targetBundle sourceBundle before) hgathered hleft hright⟩
  · simp [merge, htarget, hsource]
  · rw [document_mergeBundles, hrun]
    rfl
  · have hmerge : (merge policy target source).questions =
        (mergeBundles policy targetBundle sourceBundle).questions := by
      simp [merge, htarget, hsource]
    rw [hmerge, questions_mergeBundles, hrun, Asking.questions_bind, Asking.questions_bind]

/-- The target extends a type that the source extends further.  The policy answers with an input field
about `x` and gives `z` the name of a field that the source adds. -/
theorem merge_renamedField_asksPerCollision :
    let target : Bundle Unit Nat :=
      ⟨⟨[.type ⟨none, "A", [⟨"old", []⟩], .object [] [⟨none, "x", [], .named "Int", []⟩,
          ⟨none, "y", [], .named "Int", []⟩]⟩,
        .extension ⟨"A", [], .object [] [⟨none, "z", [], .named "Int", []⟩]⟩]⟩, ∅, ∅⟩
    let source : Bundle Unit Nat :=
      ⟨⟨[.type ⟨none, "Date", [], .scalar⟩,
        .extension ⟨"A", [⟨"new", []⟩, ⟨"old", []⟩], .object [] [⟨none, "z", [], .named "ID", []⟩,
          ⟨none, "w", [], .named "Date", []⟩, ⟨none, "x", [], .named "ID", []⟩]⟩,
        .type ⟨none, "B", [], .union ["A"]⟩]⟩, ∅, ∅⟩
    let policy : Policy Nat := { Policy.rightWins with
      field := fun _ _ _ r =>
        if r.name = "x" then .input ⟨none, "x", .named "Int", none, []⟩
        else .output ⟨none, "w", [], .named "Int", []⟩ }
    let left : TypeDefinition := ⟨none, "A", [⟨"old", []⟩], .object [] [
      ⟨none, "x", [], .named "Int", []⟩, ⟨none, "y", [], .named "Int", []⟩,
      ⟨none, "z", [], .named "Int", []⟩]⟩
    let right : TypeDefinition := ⟨none, "A", [⟨"new", []⟩, ⟨"old", []⟩], .object [] [
      ⟨none, "z", [], .named "ID", []⟩, ⟨none, "w", [], .named "Date", []⟩,
      ⟨none, "x", [], .named "ID", []⟩]⟩
    let sides := scalarSides target source
    let sofar := mergeRun policy target source [.type ⟨none, "Date", [], .scalar⟩]
    let step := mergeDefinition policy sides sofar.value (.type right)
    let rest := [.type ⟨none, "B", [], .union ["A"]⟩].foldlM (mergeDefinition policy sides) step.value
    (∃ merged : Bundle Unit Nat,
        (merge policy (.bundle target) (.bundle source)).value = .ok merged ∧
          merged.document = rest.value.arena.toDocument) ∧
      (merge policy (.bundle target) (.bundle source)).questions =
        sofar.questions ++ (step.questions ++ rest.questions) ∧
      AsksPerCollision policy sides sofar.value.arena.toDocument.definitions left right step := by
  intro target source policy left right
  have htarget : target.Readable := by decide +kernel
  have hsource : source.Readable := by decide +kernel
  exact merge_asksPerCollision policy (by simp [Source.toBundle, htarget.toDocument]; rfl)
    (by simp [Source.toBundle, hsource.toDocument]; rfl) (by decide +kernel) (by decide +kernel)
    (by decide +kernel) (by decide +kernel)

end SchemaAlgebra
