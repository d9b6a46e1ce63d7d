import SchemaAlgebra.Pare
import SchemaAlgebra.Proofs.Siblings
import SchemaAlgebra.Proofs.Slots
import SchemaAlgebra.Proofs.TypeNodes

/-!
# The document of a pare

A pare goes through the slots of a type in an arena and empties or overwrites them one by one.  Here
the same is said about plain lists of definitions.  `TypeDefinition.pared?` is what is left of one
node, `PareSummary` is what a pare knows apart from the arena's slots and index, and
`PareSummary.pare` pares one definition of the source.

## Main statements

* `TypeBody.subtract_eq`: subtraction filters the members by name.
* `pareDefinition_refines`: one step on an indexed arena is a step on its summary.
* `value_pareBundles`: the fields of a pared bundle, from the summary of the whole source.
-/

namespace SchemaAlgebra

variable {R S : Type}

/-! ## Members -/

/-- A body without the members of some names. -/
def TypeBody.without (body : TypeBody) (taken : List String) : TypeBody :=
  match body with
  | .scalar => .scalar
  | .object interfaces fields => .object interfaces (fields.filter (Named.name · ∉ taken))
  | .interface interfaces fields => .interface interfaces (fields.filter (Named.name · ∉ taken))
  | .union members => .union (members.filter (· ∉ taken))
  | .enum values => .enum (values.filter (Named.name · ∉ taken))
  | .inputObject fields => .inputObject (fields.filter (Named.name · ∉ taken))

namespace TypeBody

@[simp] theorem kind_without (body : TypeBody) (taken : List String) :
    (body.without taken).kind = body.kind := by
  cases body <;> rfl

@[simp] theorem collection_without (body : TypeBody) (taken : List String) :
    (body.without taken).collection = body.collection := by
  rw [collection, kind_without, collection]

@[simp] theorem interfaces_without (body : TypeBody) (taken : List String) :
    (body.without taken).interfaces = body.interfaces := by
  cases body <;> rfl

/-- What is left are the members of other names. -/
theorem memberNames_without (body : TypeBody) (taken : List String) :
    (body.without taken).memberNames = body.memberNames.filter (· ∉ taken) := by
  have hnames : ∀ {α : Type} [Named α] (nodes : List α),
      namesOf (nodes.filter (Named.name · ∉ taken)) = (namesOf nodes).filter (· ∉ taken) := by
    intro α _ nodes
    rw [namesOf, namesOf, List.filter_map]
    rfl
  cases body with
  | scalar => rfl
  | object interfaces fields => exact hnames fields
  | interface interfaces fields => exact hnames fields
  | union members => rfl
  | enum values => exact hnames values
  | inputObject fields => exact hnames fields

/-- If no member has one of the names, nothing changes. -/
theorem without_of_disjoint {body : TypeBody} {taken : List String}
    (h : ∀ name ∈ body.memberNames, name ∉ taken) : body.without taken = body := by
  have hkept : ∀ {α : Type} [Named α] (nodes : List α), (∀ name ∈ namesOf nodes, name ∉ taken) →
      nodes.filter (Named.name · ∉ taken) = nodes := by
    intro α _ nodes hnodes
    rw [List.filter_eq_self]
    intro node hnode
    simpa using hnodes _ (List.mem_map_of_mem hnode)
  cases body with
  | scalar => rfl
  | object interfaces fields => rw [without, hkept fields h]
  | interface interfaces fields => rw [without, hkept fields h]
  | union members => exact congrArg TypeBody.union (hkept members (by rwa [namesOf_self]))
  | enum values => rw [without, hkept values h]
  | inputObject fields => rw [without, hkept fields h]

@[simp] theorem without_nil (body : TypeBody) : body.without [] = body :=
  without_of_disjoint fun _ _ => List.not_mem_nil

@[simp] theorem without_without (body : TypeBody) (taken more : List String) :
    (body.without taken).without more = body.without (taken ++ more) := by
  cases body <;> simp [without, List.filter_filter, Bool.and_comm]

end TypeBody

theorem splitByName_eq {α : Type} [Named α] (taken : List String) (nodes : List α) :
    splitByName taken nodes =
      (nodes.filter (Named.name · ∉ taken), (namesOf nodes).filter (· ∈ taken)) := by
  have hgone : namesOf (nodes.filter (Named.name · ∈ taken)) =
      (namesOf nodes).filter (· ∈ taken) := by
    rw [namesOf, namesOf, List.filter_map]
    rfl
  rw [← hgone]
  simp [splitByName, List.partition_eq_filter_filter, Function.comp_def]

/-- Subtraction of a body with the same kind of collection filters the members by their names. -/
theorem TypeBody.subtract_eq {left right : TypeBody} (h : left.collection = right.collection) :
    left.subtract right = (left.without right.memberNames,
      left.memberNames.filter (· ∈ right.memberNames)) := by
  cases left <;> cases right <;> cases h <;>
    simp only [subtract, splitByName_eq, namesOf_self] <;> rfl

/-! ## Nodes -/

namespace TypeDefinition

/-- What is left of a node if a source node of its type is pared from it.  A scalar goes, and so does
a node that loses its last member. -/
def pared? (left right : TypeDefinition) : Option TypeDefinition :=
  if left.kind = .scalar then none
  else if left.body.collection ≠ right.body.collection then some left
  else
    let body := left.body.without right.body.memberNames
    if left.body.memberNames ≠ [] ∧ body.memberNames = [] then none
    else some { left with body }

/-- The fields and enum values that a node loses if a source node is pared from it. -/
def lostPaths (left right : TypeDefinition) : List (String × String) :=
  if left.kind = .scalar ∨ left.kind = .union ∨ left.body.collection ≠ right.body.collection then []
  else (left.body.memberNames.filter (· ∈ right.body.memberNames)).map fun member =>
    (right.name, member)

/-- The members that source nodes take away from a node: those of the nodes with its kind of
collection. -/
def takenFrom (left : TypeDefinition) (rights : List TypeDefinition) : List String :=
  (rights.filter (·.body.collection = left.body.collection)).flatMap (·.body.memberNames)

/-- If something is left, it is the node without the members that are taken away. -/
theorem eq_of_pared? {left right pared : TypeDefinition} (h : left.pared? right = some pared) :
    left.kind ≠ .scalar ∧
      pared = { left with body := left.body.without (left.takenFrom [right]) } := by
  unfold pared? at h
  split at h
  · cases h
  · next hscalar =>
    refine ⟨hscalar, ?_⟩
    by_cases hcollection : left.body.collection = right.body.collection
    · have htaken : left.takenFrom [right] = right.body.memberNames := by
        simp [takenFrom, hcollection]
      rw [if_neg (not_not_intro hcollection)] at h
      dsimp only at h
      split at h
      · cases h
      · rw [htaken]
        exact (Option.some.inj h).symm
    · have hother : ¬ right.body.collection = left.body.collection := fun e => hcollection e.symm
      have htaken : left.takenFrom [right] = [] := by simp [takenFrom, hother]
      -- Nothing is taken away by a node with another kind of collection.
      rw [if_pos hcollection] at h
      rw [htaken, TypeBody.without_nil]
      exact (Option.some.inj h).symm

theorem name_of_pared? {left right pared : TypeDefinition} (h : left.pared? right = some pared) :
    pared.name = left.name := by
  rw [(eq_of_pared? h).2]

end TypeDefinition

namespace Definition

/-- What is left of a definition if a source node is pared from it; a type node keeps its form. -/
def pared? (definition : Definition) (right : TypeDefinition) : Option Definition :=
  match definition.typeDefinition? with
  | some left => (left.pared? right).map (ofType definition.isExtension)
  | none => some definition

/-- What is left of a definition if it is pared only in case it is a node of the source's type. -/
def paredBy? (right : TypeDefinition) (definition : Definition) : Option Definition :=
  if definition.key = ⟨.type, right.name⟩ then definition.pared? right else some definition

/-- A type node is its normalized form, written in its own form. -/
theorem ofType_typeDefinition? {definition : Definition} {node : TypeDefinition}
    (h : definition.typeDefinition? = some node) :
    ofType definition.isExtension node = definition := by
  rcases eq_of_typeDefinition? h with rfl | ⟨extension, rfl, rfl⟩
  · rfl
  · rfl

@[simp] theorem key_ofType (asExtension : Bool) (node : TypeDefinition) :
    (ofType asExtension node).key = ⟨.type, node.name⟩ := by
  cases asExtension <;> rfl

theorem key_of_pared? {definition pared : Definition} {right : TypeDefinition}
    (h : definition.pared? right = some pared) : pared.key = definition.key := by
  unfold Definition.pared? at h
  split at h
  · next left hleft =>
    obtain ⟨node, hnode, rfl⟩ := Option.map_eq_some_iff.mp h
    rw [key_ofType, TypeDefinition.name_of_pared? hnode, key_of_typeDefinition? hleft]
  · cases h
    rfl

end Definition

/-! ## Summaries -/

/-- What a pare knows, apart from how its arena is laid out. -/
structure PareSummary (S : Type) where
  definitions : List Definition
  removed : List (String × String)
  scalars : OrderedMap String S

/-- The summary of a pare under way. -/
def PareState.summary (state : PareState S) : PareSummary S :=
  ⟨state.arena.toDocument.definitions, state.removed, state.scalars⟩

namespace PareSummary

/-- Takes the config of a scalar away that is dropped. -/
def dropScalar (right : TypeDefinition) (scalars : OrderedMap String S) (left : TypeDefinition) :
    OrderedMap String S :=
  if left.kind = .scalar then scalars.erase right.name else scalars

/-- Pares a source node from all nodes of its type, or adds it if there are none. -/
def pareType (state : PareSummary S) (right : TypeDefinition) : PareSummary S :=
  let nodes := nodesOf right.name state.definitions
  if nodes = [] then { state with definitions := state.definitions ++ [.type right] }
  else
    { definitions := state.definitions.filterMap (Definition.paredBy? right)
      removed := state.removed ++ nodes.flatMap (·.lostPaths right)
      scalars := nodes.foldl (dropScalar right) state.scalars }

/-- Pares a definition of the source. -/
def pare (state : PareSummary S) : Definition → PareSummary S
  | .type right => state.pareType right
  | .extension node => state.pareType node.toDefinition
  | .directive right =>
    if ⟨.directive, right.name⟩ ∈ keysOf state.definitions then state
    else { state with definitions := state.definitions ++ [.directive right] }
  | .schema _ => state

end PareSummary

/-! ## One slot -/

/-- Paring a node empties its slot or writes what is left into it.  If nothing was removed, that is
the node itself. -/
theorem value_pareNode {state : PareState S} {slot : Nat} {asExtension : Bool}
    {left : TypeDefinition} (right : TypeDefinition)
    (hslot : state.arena.get? slot = some (Definition.ofType asExtension left)) :
    (pareNode state slot asExtension left right).value =
      { arena := match left.pared? right with
          | none => state.arena.remove slot
          | some node => state.arena.replace slot (Definition.ofType asExtension node)
        removed := state.removed ++ left.lostPaths right
        scalars := PareSummary.dropScalar right state.scalars left } := by
  by_cases hscalar : left.kind = .scalar
  · simp [pareNode, TypeDefinition.pared?, TypeDefinition.lostPaths, PareSummary.dropScalar, hscalar]
  by_cases hcollection : left.body.collection = right.body.collection
  case neg =>
    -- The node is left as it is, and overwriting it with itself changes no slot.
    simp [pareNode, TypeDefinition.pared?, TypeDefinition.lostPaths, PareSummary.dropScalar, hscalar,
      hcollection, Arena.replace_self hslot]
  obtain ⟨gone, hgone⟩ : ∃ gone, left.body.memberNames.filter (· ∈ right.body.memberNames) = gone :=
    ⟨_, rfl⟩
  have hpaths : left.lostPaths right =
      if left.kind = .union then [] else gone.map fun member => (right.name, member) := by
    simp [TypeDefinition.lostPaths, hscalar, hcollection, hgone]
  have hdrop : PareSummary.dropScalar right state.scalars left = state.scalars := by
    simp [PareSummary.dropScalar, hscalar]
  rw [hpaths, hdrop]
  cases gone with
  | nil =>
    -- Nothing is removed, and so the node is not emptied either.
    have hdisjoint : ∀ name ∈ left.body.memberNames, name ∉ right.body.memberNames := by
      simpa using List.filter_eq_nil_iff.mp hgone
    have hsame : left.body.without right.body.memberNames = left.body :=
      TypeBody.without_of_disjoint hdisjoint
    have hleft : left.pared? right = some left := by
      simp [TypeDefinition.pared?, hscalar, hcollection, hsame]
    simp [pareNode, hscalar, hcollection, TypeBody.subtract_eq hcollection, hgone, hleft,
      Arena.replace_self hslot]
  | cons first more =>
    have hsome : left.body.memberNames ≠ [] := by
      intro hnone
      rw [hnone] at hgone
      cases hgone
    -- Some member goes, so the node is dropped exactly if none is left.
    by_cases hempty : (left.body.without right.body.memberNames).memberNames = [] <;>
      simp [pareNode, TypeDefinition.pared?, hscalar, hcollection, TypeBody.subtract_eq hcollection,
        hgone, hsome, hempty]

/-- Paring the node in one slot. -/
theorem pareSlot_refines (right : TypeDefinition) {front back : List (Option Definition)}
    {state : PareState S} {left : TypeDefinition} {definition : Definition} (h : state.arena.Indexed)
    (hslots : state.arena.slots = front ++ some definition :: back)
    (hleft : definition.typeDefinition? = some left) :
    let pared := (pareSlot right state front.length).value
    pared.arena.Indexed ∧
      pared.arena.slots = front ++ definition.pared? right :: back ∧
      pared.removed = state.removed ++ left.lostPaths right ∧
      pared.scalars = PareSummary.dropScalar right state.scalars left := by
  have hslot : state.arena.get? front.length = some definition := Arena.get?_of_slots hslots
  have hform : Definition.ofType definition.isExtension left = definition :=
    Definition.ofType_typeDefinition? hleft
  have hvalue : (pareSlot right state front.length).value =
      (pareNode state front.length definition.isExtension left right).value := by
    simp [pareSlot, hslot, hleft]
  rw [hvalue, value_pareNode right (hform.symm ▸ hslot), Definition.pared?, hleft]
  cases hpared : left.pared? right with
  | none =>
    refine ⟨h.remove hslot, ?_, rfl, rfl⟩
    simp [Arena.slots_remove hslot, hslots, hpared]
  | some node =>
    refine ⟨h.replace hslot ?_, ?_, rfl, rfl⟩
    · rw [Definition.key_ofType, TypeDefinition.name_of_pared? hpared,
        Definition.key_of_typeDefinition? hleft]
    · simp [hslots, hpared]

/-- Paring along the slots of a type.  The slots in `front` are behind us; the induction is on the
slots ahead. -/
theorem foldl_pareSlot_refines (right : TypeDefinition) (back front : List (Option Definition))
    {state : PareState S} (h : state.arena.Indexed) (hslots : state.arena.slots = front ++ back) :
    let pared := (Arena.slotsFrom ⟨.type, right.name⟩ front.length back).foldl
      (fun state slot => (pareSlot right state slot).value) state
    let nodes := nodesOf right.name (back.filterMap id)
    pared.arena.Indexed ∧
      pared.arena.slots = front ++ back.map (·.bind (Definition.paredBy? right)) ∧
      pared.removed = state.removed ++ nodes.flatMap (·.lostPaths right) ∧
      pared.scalars = nodes.foldl (PareSummary.dropScalar right) state.scalars := by
  induction back generalizing front state with
  | nil => exact ⟨h, by simpa [Arena.slotsFrom] using hslots, (List.append_nil _).symm, rfl⟩
  | cons content rest ih =>
    by_cases hholds : Arena.holds ⟨.type, right.name⟩ content
    · -- The slot belongs to the type.  What is left of its definition is behind us for the rest.
      obtain ⟨definition, rfl, hkey⟩ :
          ∃ definition, content = some definition ∧ definition.key = ⟨.type, right.name⟩ := by
        simpa [Arena.holds, Option.any_eq_true] using hholds
      obtain ⟨left, hleft, hname⟩ := Definition.exists_typeDefinition? hkey
      obtain ⟨hindexed, hpared, hremoved, hscalars⟩ := pareSlot_refines right h hslots hleft
      obtain ⟨hlast, hall, hlost, hdropped⟩ := ih (front ++ [definition.pared? right]) hindexed
        (by simpa using hpared)
      have hnodes : nodesOf right.name ((some definition :: rest).filterMap id) =
          left :: nodesOf right.name (rest.filterMap id) := by
        show nodesOf right.name (definition :: rest.filterMap id) = _
        exact nodesOf_cons_of_node hleft hname _
      rw [List.length_append, List.length_singleton] at hlast hall hlost hdropped
      simp only [Arena.slotsFrom, hholds, if_true, List.foldl_cons, hnodes]
      refine ⟨hlast, ?_, ?_, ?_⟩
      · simpa [Definition.paredBy?, hkey] using hall
      · rw [hlost, hremoved, List.flatMap_cons, List.append_assoc]
      · rw [hdropped, hscalars]
    · -- The slot belongs to another key, so it is not visited.
      obtain ⟨hlast, hall, hlost, hdropped⟩ := ih (front ++ [content]) h (by simpa using hslots)
      rw [List.length_append, List.length_singleton] at hlast hall hlost hdropped
      have hcontent : content.bind (Definition.paredBy? right) = content := by
        cases content with
        | none => rfl
        | some definition =>
          have hkey : definition.key ≠ ⟨.type, right.name⟩ := by simpa [Arena.holds] using hholds
          simp [Definition.paredBy?, hkey]
      have hnodes : nodesOf right.name ((content :: rest).filterMap id) =
          nodesOf right.name (rest.filterMap id) := by
        cases content with
        | none => rfl
        | some definition =>
          have hkey : definition.key ≠ ⟨.type, right.name⟩ := by simpa [Arena.holds] using hholds
          show nodesOf right.name (definition :: rest.filterMap id) = _
          exact nodesOf_cons_of_ne hkey _
      simp only [Arena.slotsFrom, hholds, hnodes]
      refine ⟨hlast, ?_, hlost, hdropped⟩
      simpa [hcontent] using hall

/-! ## One definition of the source -/

theorem pareTypeDefinition_refines {state : PareState S} (h : state.arena.Indexed)
    (right : TypeDefinition) :
    let pared := (pareTypeDefinition state right).value
    pared.arena.Indexed ∧ pared.summary = state.summary.pareType right := by
  cases hfind : state.arena.findAll ⟨.type, right.name⟩ with
  | nil =>
    have habsent := (h.findAll_eq_nil_iff _).mp hfind
    have hvalue : (pareTypeDefinition state right).value =
        { state with arena := state.arena.push (.type right) } := by
      simp [pareTypeDefinition, hfind]
    rw [hvalue]
    refine ⟨h.push _, ?_⟩
    simp [PareState.summary, PareSummary.pareType, nodesOf_eq_nil_of_absent habsent,
      Arena.definitions_push]
  | cons slot more =>
    have hpresent : nodesOf right.name state.arena.toDocument.definitions ≠ [] := by
      intro hnone
      rw [(h.findAll_eq_nil_iff _).mpr (nodesOf_eq_nil_iff.mp hnone)] at hfind
      cases hfind
    -- The slots are looked up once, before the first of them is emptied.
    have hvalue : (pareTypeDefinition state right).value =
        (Arena.slotsFrom ⟨.type, right.name⟩ 0 state.arena.slots).foldl
          (fun state slot => (pareSlot right state slot).value) state := by
      rw [← h, hfind]
      simp [pareTypeDefinition, hfind]
    obtain ⟨hindexed, hslots, hremoved, hscalars⟩ :=
      foldl_pareSlot_refines right state.arena.slots [] h rfl
    rw [List.length_nil] at hindexed hslots hremoved hscalars
    rw [hvalue]
    refine ⟨hindexed, ?_⟩
    have hdefinitions : (state.arena.slots.map (·.bind (Definition.paredBy? right))).filterMap id =
        state.arena.toDocument.definitions.filterMap (Definition.paredBy? right) := by
      rw [Arena.definitions_toDocument, List.filterMap_filterMap, List.filterMap_map]
      rfl
    have hsummary : state.summary.pareType right =
        { definitions := state.arena.toDocument.definitions.filterMap (Definition.paredBy? right)
          removed := state.removed ++
            (nodesOf right.name state.arena.toDocument.definitions).flatMap (·.lostPaths right)
          scalars := (nodesOf right.name state.arena.toDocument.definitions).foldl
            (PareSummary.dropScalar right) state.scalars } := if_neg hpresent
    rw [hsummary, ← hdefinitions, PareState.summary, hremoved, hscalars, Arena.definitions_toDocument,
      hslots]
    rfl

/-- One step of a pare is a step on its summary. -/
theorem pareDefinition_refines {state : PareState S} (h : state.arena.Indexed)
    (right : Definition) :
    let pared := (pareDefinition state right).value
    pared.arena.Indexed ∧ pared.summary = state.summary.pare right := by
  cases right with
  | type right => exact pareTypeDefinition_refines h right
  | extension node => exact pareTypeDefinition_refines h node.toDefinition
  | directive right =>
    by_cases hold : ⟨.directive, right.name⟩ ∈ keysOf state.arena.toDocument.definitions
    · have hsome : state.arena.findAll ⟨.directive, right.name⟩ ≠ [] := by
        rw [Ne, h.findAll_eq_nil_iff]
        obtain ⟨definition, hmem, hkey⟩ := List.mem_map.mp hold
        exact fun habsent => habsent definition hmem hkey
      obtain ⟨slot, more, hfind⟩ := List.exists_cons_of_ne_nil hsome
      have hvalue : (pareDefinition state (.directive right)).value = state := by
        simp [pareDefinition, Arena.find?, hfind]
      rw [hvalue]
      exact ⟨h, (if_pos hold).symm⟩
    · have hfind : state.arena.findAll ⟨.directive, right.name⟩ = [] := by
        rw [h.findAll_eq_nil_iff]
        exact fun definition hmem hkey => hold (List.mem_map.mpr ⟨definition, hmem, hkey⟩)
      have hvalue : (pareDefinition state (.directive right)).value =
          { state with arena := state.arena.push (.directive right) } := by
        simp [pareDefinition, Arena.find?, hfind]
      rw [hvalue]
      refine ⟨h.push _, ?_⟩
      simp [PareState.summary, PareSummary.pare, hold, Arena.definitions_push]
  | schema right => exact ⟨h, rfl⟩

/-! ## The whole source -/

/-- A definition and its normalized form are pared alike. -/
theorem PareSummary.pare_normalize (state : PareSummary S) (right : Definition) :
    state.pare right.normalize.value = state.pare right := by
  cases right <;> rfl

theorem foldl_pareDefinition_refines (source : List Definition) (state : PareState S)
    (h : state.arena.Indexed) :
    (source.foldl (fun state right => (pareDefinition state right).value) state).summary =
      source.foldl PareSummary.pare state.summary := by
  induction source generalizing state with
  | nil => rfl
  | cons right rest ih =>
    obtain ⟨hindexed, hstep⟩ := pareDefinition_refines h right
    rw [List.foldl_cons, List.foldl_cons, ih _ hindexed, hstep]

/-- What a pare ends with: the source's definitions are pared from the target's one after the
other. -/
def paredSummary (target source : Bundle R S) : PareSummary S :=
  source.document.definitions.foldl PareSummary.pare
    ⟨target.document.definitions, [], target.scalars⟩

/-- The pared bundle. -/
theorem value_pareBundles (target source : Bundle R S) :
    let summary := paredSummary target source
    let document : Document := ⟨summary.definitions⟩
    let resolvers := (target.resolvers.removeFields summary.removed document).value.1
    (pareBundles target source).value =
      ⟨document, (resolvers.retainPresent document).value.1, summary.scalars⟩ := by
  intro summary document resolvers
  let start : PareState S := ⟨.ofDocument target.document, [], target.scalars⟩
  let final := (source.document.normalize.value.definitions).foldl
    (fun state right => (pareDefinition state right).value) start
  have hstart : start.summary = ⟨target.document.definitions, [], target.scalars⟩ := by
    simp [start, PareState.summary]
  have hfinal : final.summary = summary := by
    have hrun := foldl_pareDefinition_refines source.document.normalize.value.definitions start
      (Arena.indexed_ofDocument target.document)
    rw [hrun, hstart, Document.definitions_value_normalize, List.foldl_map]
    simp only [PareSummary.pare_normalize]
    rfl
  have hvalue : (pareBundles target source).value =
      ⟨⟨final.summary.definitions⟩,
        ((target.resolvers.removeFields final.summary.removed ⟨final.summary.definitions⟩).value.1
          |>.retainPresent ⟨final.summary.definitions⟩).value.1,
        final.summary.scalars⟩ := by
    simp [pareBundles, final, start, PareState.summary]
  rw [hvalue, hfinal]

/-- A pare of two schemas whose texts can be read succeeds. -/
theorem value_pare {target source : Source R S} {left right : Document}
    (hleft : (target.toDocument .pare .target).value = .ok left)
    (hright : (source.toDocument .pare .source).value = .ok right) :
    (pare target source).value = .ok (pareBundles ⟨left, target.resolvers, target.scalars⟩
      ⟨right, source.resolvers, source.scalars⟩).value := by
  simp [pare, Source.toBundle, hleft, hright]

end SchemaAlgebra
