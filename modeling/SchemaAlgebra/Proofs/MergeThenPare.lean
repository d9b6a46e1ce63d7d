import SchemaAlgebra.Proofs.Overlays
import SchemaAlgebra.Proofs.Subtraction

/-!
# Paring what was merged

A source is merged into a target and then pared from the result.  What is left of the types is the part
of the target that is its own: the members that the source does not name, in the target's own nodes.
Types that nothing is left of are gone, and so are all scalars that the source names.

Directives are the exception.  A pare takes members only, so a type keeps the directives that the merge
has put on it.

## Main statements

* `without_override`: paring the source's members takes away what the merge has added or replaced.
* `survivor?_covered`: what becomes of a definition of the target.
* `pare_merge_leavesOwnParts`: the types after a merge and a pare of the same source.
-/

namespace SchemaAlgebra

variable {R S : Type}

/-! ## Members -/

section Members

variable {α : Type} [Named α]

/-- Settling a node changes nothing among the nodes of other names. -/
theorem filter_settle {taken : List String} {right : α} (h : Named.name right ∈ taken)
    (nodes : List α) :
    (settle (fun _ node => node) right nodes).filter (Named.name · ∉ taken) =
      nodes.filter (Named.name · ∉ taken) := by
  induction nodes with
  | nil => simp [settle, h]
  | cons node rest ih =>
    unfold settle
    split
    next hname => simp [hname, h]
    next => rw [List.filter_cons, List.filter_cons, ih]

theorem filter_lastWins {taken : List String} {right : List α} (h : ∀ node ∈ right, Named.name node ∈ taken)
    (left : List α) :
    (lastWins left right).filter (Named.name · ∉ taken) = left.filter (Named.name · ∉ taken) :=
  List.foldlRecOn
    (motive := fun nodes => nodes.filter (Named.name · ∉ taken) = left.filter (Named.name · ∉ taken))
    right _ rfl fun nodes hnodes node hnode => (filter_settle (h node hnode) nodes).trans hnodes

theorem filter_lastWins_namesOf (left right : List α) :
    (lastWins left right).filter (Named.name · ∉ namesOf right) =
      left.filter (Named.name · ∉ namesOf right) :=
  filter_lastWins (fun _ hnode => List.mem_map_of_mem hnode) left

end Members

/-- Without the names of the right body, a merged body has the members that are the left one's own. -/
theorem TypeBody.without_override {left right : TypeBody} (h : left.kind = right.kind) :
    (left.joinWith (fun names _ => names) lastWins right).without right.memberNames =
      left.without right.memberNames := by
  cases left <;> cases right <;> cases h
  case scalar => rfl
  case object names fields _ others =>
    exact congrArg (TypeBody.object names) (filter_lastWins_namesOf fields others)
  case interface names fields _ others =>
    exact congrArg (TypeBody.interface names) (filter_lastWins_namesOf fields others)
  case union names others =>
    have hunion := filter_lastWins_namesOf names others
    rw [namesOf_self] at hunion
    exact congrArg TypeBody.union hunion
  case enum values others => exact congrArg TypeBody.enum (filter_lastWins_namesOf values others)
  case inputObject fields others =>
    exact congrArg TypeBody.inputObject (filter_lastWins_namesOf fields others)

/-! ## Types -/

namespace TypeDefinition

/-- What is left of a type node that a source node has been merged into and pared from: the members that
the source node does not name, if there are any.  The directives stay merged. -/
def ownPart? (left right : TypeDefinition) : Option TypeDefinition :=
  let body := left.body.without right.body.memberNames
  if body.memberNames = [] then none
  else some { left with directives := lastWins left.directives right.directives, body }

/-- Every node but those of scalars has a member. -/
def HasMembers (nodes : List TypeDefinition) : Prop :=
  ∀ node ∈ nodes, node.kind ≠ .scalar → node.body.memberNames ≠ []

instance (nodes : List TypeDefinition) : Decidable (HasMembers nodes) :=
  inferInstanceAs (Decidable (∀ node ∈ nodes, _ → _))

variable {left right : TypeDefinition}

/-- A scalar has no members. -/
theorem memberNames_of_scalar (h : left.kind = .scalar) : left.body.memberNames = [] := by
  rw [kind] at h
  cases hbody : left.body <;> rw [hbody] at h <;> cases h
  rfl

theorem pared?_override (hkind : left.kind = right.kind)
    (hmembers : right.kind ≠ .scalar → right.body.memberNames ≠ []) :
    (left.override right).pared? right = left.ownPart? right := by
  have hown : (left.override right).body.without right.body.memberNames =
      left.body.without right.body.memberNames := TypeBody.without_override hkind
  by_cases hscalar : left.kind = .scalar
  · have hnone : (left.body.without right.body.memberNames).memberNames = [] := by
      rw [TypeBody.memberNames_without, memberNames_of_scalar hscalar, List.filter_nil]
    rw [pared?, kind_override, if_pos hscalar, ownPart?, if_pos hnone]
  · have hcollection : (left.override right).body.collection = right.body.collection :=
      congrArg TypeKind.collection ((kind_override left right).trans hkind)
    -- A node that had no members before the pare would stay, but the merge has put some there.
    have hsome : (left.override right).body.memberNames ≠ [] := by
      obtain ⟨name, hname⟩ := List.exists_mem_of_ne_nil _ (hmembers (hkind ▸ hscalar))
      have hsame : left.body.collection = right.body.collection :=
        congrArg TypeKind.collection hkind
      refine List.ne_nil_of_mem ((TypeBody.mem_memberNames_joinWith (fun names _ => names) ?_).mpr
        (.inr ⟨hsame, hname⟩))
      exact fun _ _ _ => mem_namesOf_settleAll keepsName_last
    rw [pared?, kind_override, if_neg hscalar, if_neg (not_not_intro hcollection), hown]
    simp only [ownPart?, hsome, true_and, ne_eq, not_false_iff]
    rfl

/-- Nothing is left of a node that is pared from itself. -/
theorem pared?_self (hmembers : right.kind ≠ .scalar → right.body.memberNames ≠ []) :
    right.pared? right = none := by
  have hnone : (right.body.without right.body.memberNames).memberNames = [] := by
    rw [TypeBody.memberNames_without, List.filter_eq_nil_iff]
    simp
  unfold pared?
  split
  next => rfl
  next hscalar =>
    rw [if_neg (not_not_intro rfl)]
    exact if_pos ⟨hmembers hscalar, hnone⟩

end TypeDefinition

/-- What is left of a target's type node after a merge and a pare of a source.  A node of a type that the
source does not carry stays as it is. -/
def ownPart? (source : List Definition) (node : TypeDefinition) : Option TypeDefinition :=
  match (nodesOf node.name source).head? with
  | none => some node
  | some other => node.ownPart? other

/-! ## Definitions -/

/-- In a plain document a type has one node. -/
theorem IsPlain.nodesOf_eq_singleton {definitions : List Definition} (h : IsPlain definitions)
    {node : TypeDefinition} (hmem : .type node ∈ definitions) :
    nodesOf node.name definitions = [node] := by
  obtain ⟨front, later, rfl⟩ := List.append_of_mem hmem
  obtain ⟨hfront, hlater⟩ := ne_key_of_once h.once
  rw [nodesOf_of_split later hfront rfl rfl, nodesOf_eq_nil_of_absent hlater]

/-- A definition that is no type node becomes none when something is laid over it. -/
theorem Definition.typeDefinition?_covered {definition : Definition}
    (h : definition.typeDefinition? = none) (source : List Definition) :
    (covered key override source definition).typeDefinition? = none := by
  unfold covered
  split
  next other _ => cases definition <;> cases other <;> first | rfl | cases h
  next => exact h

section Covered

variable {source : List Definition} (hplain : IsPlain source)
  (hmembers : TypeDefinition.HasMembers (typeNodes source))
include hplain hmembers

/-- What becomes of a type of the target when a source is merged into it and pared again. -/
theorem survivor?_covered_type {node : TypeDefinition}
    (hkind : ∀ other ∈ nodesOf node.name source, node.kind = other.kind) :
    survivor? source (covered Definition.key Definition.override source (.type node)) =
      (ownPart? source node).map .type := by
  cases hfound : source.find? (·.key = (Definition.type node).key) with
  | none =>
    have habsent : ∀ other ∈ source, other.key ≠ (Definition.type node).key := by
      intro other hother hkey
      exact List.find?_eq_none.mp hfound other hother (decide_eq_true hkey)
    have hnodes : nodesOf node.name source = [] := nodesOf_eq_nil_of_absent habsent
    rw [covered, hfound, survivor?_of_absent habsent, ownPart?, hnodes]
    rfl
  | some found =>
    have hmem := List.mem_of_find?_eq_some hfound
    have hkey : found.key = (Definition.type node).key := by
      simpa only [decide_eq_true_eq] using List.find?_some hfound
    obtain ⟨other, rfl⟩ := Definition.exists_type (hplain.written found hmem) hkey
    have hname : other.name = node.name := congrArg DefinitionKey.name hkey
    have hnodes : nodesOf node.name source = [other] := hname ▸ hplain.nodesOf_eq_singleton hmem
    have hother : other ∈ nodesOf node.name source := hnodes ▸ List.mem_singleton_self other
    have hpared := TypeDefinition.pared?_override (hkind other hother)
      (hmembers other (mem_typeNodes_of_mem_nodesOf hother))
    -- The one source node of the type is merged into the node and then pared from it.
    rw [covered, hfound, ownPart?, hnodes]
    show survivor? source (.type (node.override other)) = (node.ownPart? other).map .type
    rw [← hpared]
    simp only [survivor?, Definition.typeDefinition?, TypeDefinition.name_override, hnodes]
    rfl

/-- Of a type that only the source carries nothing is left. -/
theorem survivor?_self {node : TypeDefinition} (hnode : .type node ∈ source) :
    survivor? source (.type node) = none := by
  have hnodes := hplain.nodesOf_eq_singleton hnode
  have hself : node.pared? node = none := TypeDefinition.pared?_self
    (hmembers node (mem_typeNodes_of_mem_nodesOf (hnodes ▸ List.mem_singleton_self node)))
  simp only [survivor?, Definition.typeDefinition?, hnodes, List.head?_cons, Definition.pared?, hself,
    Option.map_none]

/-- The types of the target, after the source was merged into them and pared again. -/
theorem filter_survivor?_covered {target : List Definition}
    (hwritten : ∀ definition ∈ target, definition.isExtension = false)
    (hkind : OneKind (target ++ source)) :
    ((target.map (covered Definition.key Definition.override source)).filterMap
        (survivor? source)).filter (·.typeDefinition?.isSome) =
      ((typeNodes target).filterMap (ownPart? source)).map .type := by
  rw [List.filterMap_map, List.filter_filterMap, typeNodes, List.filterMap_filterMap,
    List.map_filterMap]
  apply List.filterMap_congr
  intro definition hmem
  cases hnode : definition.typeDefinition? with
  | none =>
    -- A definition that is no type survives, and is left out here.
    have hcovered := Definition.typeDefinition?_covered hnode source
    simp [survivor?, hcovered, Option.filter]
  | some node =>
    obtain ⟨node, rfl⟩ :=
      Definition.exists_type (hwritten definition hmem) (Definition.key_of_typeDefinition? hnode)
    obtain rfl := Option.some.inj hnode
    have hsame : ∀ other ∈ nodesOf node.name source, node.kind = other.kind := by
      intro other hother
      refine hkind.sameKind node.name node ?_ other ?_
      · exact mem_nodesOf.mpr ⟨.type node, List.mem_append_left _ hmem, rfl, rfl⟩
      · exact nodesOf_append target source ▸ List.mem_append_right _ hother
    rw [Function.comp_apply, survivor?_covered_type hplain hmembers hsame]
    cases hown : ownPart? source node with
    | none => simp [hown]
    | some own => simp [hown, Definition.typeDefinition?]

/-- Nothing is left of the types that only the source carries. -/
theorem filter_survivor?_further (target : List Definition) :
    ((source.filter (·.key ∉ keysOf target)).filterMap (survivor? source)).filter
      (·.typeDefinition?.isSome) = [] := by
  rw [List.filter_filterMap, List.filterMap_eq_nil_iff]
  intro definition hfurther
  have hmem := List.mem_of_mem_filter hfurther
  cases hnode : definition.typeDefinition? with
  | none => simp [survivor?, hnode, Option.filter]
  | some node =>
    obtain ⟨node, rfl⟩ :=
      Definition.exists_type (hplain.written definition hmem) (Definition.key_of_typeDefinition? hnode)
    rw [survivor?_self hplain hmembers hmem]
    rfl

/-- The types that are left when a source is pared from what it was merged into. -/
theorem filter_foldl_pare_overlay {target : List Definition} (htarget : IsPlain target)
    (hkind : OneKind (target ++ source)) (start : PareSummary S)
    (hstart : start.definitions = overlay Definition.key Definition.override target source) :
    (source.foldl PareSummary.pare start).definitions.filter (·.typeDefinition?.isSome) =
      ((typeNodes target).filterMap (ownPart? source)).map .type := by
  have hnothing : source.filterMap (addition? start.definitions) = [] := by
    rw [List.filterMap_eq_nil_iff]
    intro definition hmem
    refine if_pos ?_
    rw [hstart]
    exact (mem_map_key_overlay Definition.keepsKey_override).mpr (.inr (List.mem_map_of_mem hmem))
  rw [definitions_foldl_pare start (hplain.once.filter _), hnothing, List.append_nil, hstart, overlay,
    List.filterMap_append, List.filter_append,
    filter_survivor?_covered hplain hmembers htarget.written hkind]
  exact (congrArg _ (filter_survivor?_further hplain hmembers target)).trans (List.append_nil _)

end Covered

/-! ## Schemas -/

/-- A text is read alike wherever it is handed over. -/
theorem Source.toDocument_of_ok {source : Source R S} {operation : Operation} {side : Side}
    {document : Document} (h : (source.toDocument operation side).value = .ok document)
    (other : Operation) (place : Side) : (source.toDocument other place).value = .ok document := by
  -- Operation and side are for the fault, if the text is not there or is not read.
  have hread : ∀ text : String, (∀ operation side,
      (source.toText operation side).value = .ok text) →
        (source.toDocument other place).value = .ok document := by
    intro text htext
    simp only [toDocument, Traced.value_bind, htext] at h ⊢
    cases hparse : Document.parse text with
    | error cause => simp [hparse] at h
    | ok read => simpa [hparse] using h
  cases source with
  | built schema =>
    cases htext : schema.text with
    | none => simp [toDocument, toText, htext] at h
    | some text => exact hread text fun _ _ => by simp [toText, htext]
  | bundle given => exact hread _ fun _ _ => rfl
  | document given => exact hread _ fun _ _ => rfl
  | sdl text => exact hread _ fun _ _ => rfl

/-- Merging a source and paring it again leaves the types of the target, each with the members that are
its own.  What nothing is left of is gone. -/
theorem pare_merge_leavesOwnParts {target source : Source R S} {left right : Document}
    (hleft : (target.toDocument .merge .target).value = .ok left)
    (hright : (source.toDocument .merge .source).value = .ok right)
    (hleftPlain : IsPlain left.definitions) (hrightPlain : IsPlain right.definitions)
    (hkind : OneKind (left.definitions ++ right.definitions))
    (hmembers : TypeDefinition.HasMembers (typeNodes right.definitions))
    (hreadable : ∀ merged : Bundle R S,
      (merge Policy.rightWins target source).value = .ok merged → merged.Readable) :
    ∃ merged pared : Bundle R S,
      (merge Policy.rightWins target source).value = .ok merged ∧
      (pare (.bundle merged) source).value = .ok pared ∧
      pared.document.definitions.filter (·.typeDefinition?.isSome) =
        ((typeNodes left.definitions).filterMap (ownPart? right.definitions)).map .type := by
  obtain ⟨merged, hmerged, hdefinitions⟩ :=
    definitions_merge_eq_overlay hleft hright hleftPlain hrightPlain
  have htarget := (hreadable merged hmerged).toDocument .pare .target
  have hsource := Source.toDocument_of_ok hright .pare .source
  refine ⟨merged, _, hmerged, value_pare htarget hsource, ?_⟩
  rw [value_pareBundles]
  exact filter_foldl_pare_overlay hrightPlain hmembers hleftPlain hkind _ hdefinitions

/-- A type that keeps a member, one that is emptied, one of the target alone and one of the source alone,
and a scalar. -/
theorem pare_merge_user_leavesOwnParts :
    ∃ merged pared : Bundle Unit Unit,
      (merge Policy.rightWins
        (.sdl "type User { id: ID name: Int } scalar Date enum Color { RED } union Any = User")
        (.sdl "enum Color { RED BLUE } type User @key { age: Int id: Int } type Extra { x: Date } scalar Date")
        ).value = .ok merged ∧
      (pare (.bundle merged)
        (.sdl "enum Color { RED BLUE } type User @key { age: Int id: Int } type Extra { x: Date } scalar Date")
        ).value = .ok pared ∧
      pared.document.definitions.filter (·.typeDefinition?.isSome) =
        [.type ⟨none, "User", [⟨"key", []⟩], .object [] [⟨none, "name", [], .named "Int", []⟩]⟩,
          .type ⟨none, "Any", [], .union ["User"]⟩] := by
  let left : Document := ⟨[.type ⟨none, "User", [], .object [] [⟨none, "id", [], .named "ID", []⟩,
      ⟨none, "name", [], .named "Int", []⟩]⟩, .type ⟨none, "Date", [], .scalar⟩,
    .type ⟨none, "Color", [], .enum [⟨none, "RED", []⟩]⟩, .type ⟨none, "Any", [], .union ["User"]⟩]⟩
  let right : Document := ⟨[
    .type ⟨none, "Color", [], .enum [⟨none, "RED", []⟩, ⟨none, "BLUE", []⟩]⟩,
    .type ⟨none, "User", [⟨"key", []⟩], .object [] [⟨none, "age", [], .named "Int", []⟩,
      ⟨none, "id", [], .named "Int", []⟩]⟩,
    .type ⟨none, "Extra", [], .object [] [⟨none, "x", [], .named "Date", []⟩]⟩,
    .type ⟨none, "Date", [], .scalar⟩]⟩
  have hleft : ((.sdl "type User { id: ID name: Int } scalar Date enum Color { RED } union Any = User" :
      Source Unit Unit).toDocument .merge .target).value = .ok left := by decide +kernel
  have hright : ((.sdl
      "enum Color { RED BLUE } type User @key { age: Int id: Int } type Extra { x: Date } scalar Date" :
      Source Unit Unit).toDocument .merge .source).value = .ok right := by decide +kernel
  refine pare_merge_leavesOwnParts hleft hright (by decide +kernel) (by decide +kernel)
    (by decide +kernel) (by decide +kernel) ?_
  intro merged hmerged
  rw [value_merge Policy.rightWins hleft hright] at hmerged
  obtain rfl := Except.ok.inj hmerged
  decide +kernel

end SchemaAlgebra
