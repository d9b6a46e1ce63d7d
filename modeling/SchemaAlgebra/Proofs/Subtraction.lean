import Mathlib.Data.List.Basic
import Mathlib.Data.List.Induction
import SchemaAlgebra.Proofs.ParedDocument

/-!
# Paring is subtraction

If a source carries no type and no directive twice, a pare keeps the target's definitions in their
order, leaves of each what `survivor?` says, and puts behind them what only the source carries.

If a source spreads a type over several nodes, the nodes are pared one after the other, and this is
where a pare puts back what it takes away: as soon as the target has no node of the type left, the
source's next node of it counts as new.

## Main statements

* `pare_subtracts`: the pared document, for a source that carries nothing twice.
* `carrying_foldl_pare`: the nodes of one type, for any source.
* `pare_putsNothingBack_iff`: when the nodes of a type are left of the target's.
-/

namespace SchemaAlgebra

variable {R S : Type}

/-! ## One definition of the source -/

namespace PareSummary

variable {state : PareSummary S} {right : Definition} {node : TypeDefinition}

theorem pare_of_typeDefinition? (h : right.typeDefinition? = some node) :
    state.pare right = state.pareType node := by
  rcases Definition.eq_of_typeDefinition? h with rfl | ⟨extension, rfl, rfl⟩
  · rfl
  · rfl

/-- A type that is not there is added. -/
theorem definitions_pare_of_absent (h : right.typeDefinition? = some node)
    (habsent : nodesOf node.name state.definitions = []) :
    (state.pare right).definitions = state.definitions ++ [.type node] := by
  rw [pare_of_typeDefinition? h, pareType]
  exact congrArg PareSummary.definitions (if_pos habsent)

/-- A type that is there is pared. -/
theorem definitions_pare_of_present (h : right.typeDefinition? = some node)
    (hpresent : nodesOf node.name state.definitions ≠ []) :
    (state.pare right).definitions = state.definitions.filterMap (Definition.paredBy? node) := by
  rw [pare_of_typeDefinition? h, pareType]
  exact congrArg PareSummary.definitions (if_neg hpresent)

end PareSummary

/-- Paring leaves definitions of other keys alone. -/
theorem filterMap_paredBy?_of_absent {node : TypeDefinition} {definitions : List Definition}
    (h : ∀ definition ∈ definitions, definition.key ≠ ⟨.type, node.name⟩) :
    definitions.filterMap (Definition.paredBy? node) = definitions := by
  have hsome : ∀ definition ∈ definitions, Definition.paredBy? node definition = some definition :=
    fun definition hmem => if_neg (h definition hmem)
  rw [List.filterMap_congr hsome, List.filterMap_some]

/-! ## Survivors and additions -/

/-- What a source leaves of a definition of the target.  A type node is pared by the source's node of
its type; everything else stays. -/
def survivor? (source : List Definition) (definition : Definition) : Option Definition :=
  match definition.typeDefinition? with
  | none => some definition
  | some left =>
    match (nodesOf left.name source).head? with
    | none => some definition
    | some right => definition.pared? right

/-- What a definition of the source adds to a target: a type, as a definition, or a directive, that
the target does not carry. -/
def addition? (target : List Definition) (definition : Definition) : Option Definition :=
  if definition.key ∈ keysOf target then none
  else
    match definition with
    | .schema _ => none
    | other => some other.normalize.value

theorem key_of_survivor? {source : List Definition} {definition survivor : Definition}
    (h : survivor? source definition = some survivor) : survivor.key = definition.key := by
  unfold survivor? at h
  split at h
  · cases h
    rfl
  · split at h
    · cases h
      rfl
    · exact Definition.key_of_pared? h

theorem key_of_addition? {target : List Definition} {definition added : Definition}
    (h : addition? target definition = some added) : added.key = definition.key := by
  unfold addition? at h
  split at h
  · cases h
  · cases definition with
    | schema definition => cases h
    | type definition => cases h; rfl
    | extension node => cases h; rfl
    | directive definition => cases h; rfl

/-- A definition survives unchanged if the source has no node of its type. -/
theorem survivor?_of_absent {source : List Definition} {definition : Definition}
    (h : ∀ other ∈ source, other.key ≠ definition.key) :
    survivor? source definition = some definition := by
  unfold survivor?
  split
  · rfl
  · next left hleft =>
    have hnone : nodesOf left.name source = [] := by
      apply nodesOf_eq_nil_of_absent
      rw [← Definition.key_of_typeDefinition? hleft]
      exact h
    rw [hnone]
    rfl

/-- The step for a type that the source carries once: the source's new node is the only one of its
type, and pares what survived so far. -/
theorem survivor?_append_of_new {part : List Definition} {right : Definition} {node : TypeDefinition}
    (hnode : right.typeDefinition? = some node) (hnew : ∀ other ∈ part, other.key ≠ right.key)
    (definition : Definition) :
    survivor? (part ++ [right]) definition =
      (survivor? part definition).bind (Definition.paredBy? node) := by
  have hkey := Definition.key_of_typeDefinition? hnode
  by_cases hsame : definition.key = right.key
  · -- A definition of the new node's type has survived untouched so far.
    have hpart : survivor? part definition = some definition := by
      apply survivor?_of_absent
      rwa [hsame]
    obtain ⟨left, hleft, hname⟩ := Definition.exists_typeDefinition? (hsame.trans hkey)
    have hnone : nodesOf left.name part = [] := by
      apply nodesOf_eq_nil_of_absent
      rwa [hname, ← hkey]
    have hfirst : (nodesOf left.name (part ++ [right])).head? = some node := by
      rw [nodesOf_append, hnone, nodesOf_singleton hnode, if_pos hname.symm]
      rfl
    have hpared : Definition.paredBy? node definition = definition.pared? node :=
      if_pos (hsame.trans hkey)
    rw [hpart, Option.bind_some, hpared]
    simp only [survivor?, hleft, hfirst]
  · have hothers : survivor? (part ++ [right]) definition = survivor? part definition := by
      unfold survivor?
      split
      · rfl
      · next left hleft =>
        have hne : right.key ≠ ⟨.type, left.name⟩ := fun e =>
          hsame ((Definition.key_of_typeDefinition? hleft).trans e.symm)
        rw [nodesOf_append, nodesOf_singleton_of_ne hne, List.append_nil]
    -- What survives keeps its key, so the new node passes it by.
    rw [hothers]
    cases hsurvivor : survivor? part definition with
    | none => rfl
    | some survivor =>
      have hne : ¬ survivor.key = ⟨.type, node.name⟩ := fun e =>
        hsame ((key_of_survivor? hsurvivor).symm.trans (e.trans hkey.symm))
      exact (if_neg hne).symm

/-- A definition that is no type node changes nothing for the target's definitions. -/
theorem survivor?_append_of_none {part : List Definition} {right : Definition}
    (hnode : right.typeDefinition? = none) (definition : Definition) :
    survivor? (part ++ [right]) definition = survivor? part definition := by
  have hright : ∀ name, nodesOf name [right] = [] := by
    intro name
    apply nodesOf_singleton_of_ne
    intro hkey
    obtain ⟨node, hsome, -⟩ := Definition.exists_typeDefinition? hkey
    rw [hnode] at hsome
    cases hsome
  unfold survivor?
  split
  · rfl
  · rw [nodesOf_append, hright, List.append_nil]

/-! ## A source that carries nothing twice -/

/-- As long as a source has not carried a key, what it leaves and adds has the key exactly if the
target has. -/
theorem mem_keysOf_pared (target : List Definition) {part : List Definition} {key : DefinitionKey}
    (hnew : ∀ other ∈ part, other.key ≠ key) :
    key ∈ keysOf (target.filterMap (survivor? part) ++ part.filterMap (addition? target)) ↔
      key ∈ keysOf target := by
  constructor
  · intro hmem
    obtain ⟨definition, hdefinition, rfl⟩ := List.mem_map.mp hmem
    rcases List.mem_append.mp hdefinition with hleft | hright
    · obtain ⟨origin, horigin, hsurvivor⟩ := List.mem_filterMap.mp hleft
      exact List.mem_map.mpr ⟨origin, horigin, (key_of_survivor? hsurvivor).symm⟩
    · obtain ⟨origin, horigin, hadded⟩ := List.mem_filterMap.mp hright
      exact absurd (key_of_addition? hadded).symm (hnew origin horigin)
  · intro hmem
    obtain ⟨definition, hdefinition, rfl⟩ := List.mem_map.mp hmem
    have hsurvives := survivor?_of_absent hnew
    exact List.mem_map_of_mem
      (List.mem_append_left _ (List.mem_filterMap.mpr ⟨definition, hdefinition, hsurvives⟩))

theorem nodesOf_eq_nil_iff_keysOf {name : String} {definitions : List Definition} :
    nodesOf name definitions = [] ↔ ⟨.type, name⟩ ∉ keysOf definitions := by
  rw [nodesOf_eq_nil_iff, keysOf, List.mem_map]
  constructor
  · rintro h ⟨definition, hmem, hkey⟩
    exact h definition hmem hkey
  · intro h definition hmem hkey
    exact h ⟨definition, hmem, hkey⟩

/-- The step for a type. -/
theorem definitions_pare_type {state : PareSummary S} {target part : List Definition}
    (hstate : state.definitions =
      target.filterMap (survivor? part) ++ part.filterMap (addition? target))
    {right : Definition} {node : TypeDefinition} (hnode : right.typeDefinition? = some node)
    (hnew : ∀ other ∈ part, other.key ≠ right.key) :
    (state.pare right).definitions = target.filterMap (survivor? (part ++ [right])) ++
      (part ++ [right]).filterMap (addition? target) := by
  have hkey := Definition.key_of_typeDefinition? hnode
  have hsurvivors : target.filterMap (survivor? (part ++ [right])) =
      (target.filterMap (survivor? part)).filterMap (Definition.paredBy? node) := by
    rw [List.filterMap_filterMap]
    exact List.filterMap_congr fun definition _ => survivor?_append_of_new hnode hnew definition
  have hpresent := mem_keysOf_pared target hnew
  rw [← hstate, hkey] at hpresent
  rw [hsurvivors, List.filterMap_append]
  by_cases htarget : right.key ∈ keysOf target
  · -- The target's nodes of the type are all there, and what was added has other keys.
    have hadditions : (part.filterMap (addition? target)).filterMap (Definition.paredBy? node) =
        part.filterMap (addition? target) := by
      apply filterMap_paredBy?_of_absent
      intro added hadded
      obtain ⟨origin, horigin, hsome⟩ := List.mem_filterMap.mp hadded
      rw [key_of_addition? hsome, ← hkey]
      exact hnew origin horigin
    have hnothing : [right].filterMap (addition? target) = [] := by
      simp [addition?, htarget]
    have hsome : nodesOf node.name state.definitions ≠ [] := by
      rw [Ne, nodesOf_eq_nil_iff_keysOf, not_not, hpresent, ← hkey]
      exact htarget
    rw [PareSummary.definitions_pare_of_present hnode hsome, hstate, List.filterMap_append,
      hadditions, hnothing, List.append_nil]
  · -- Neither the target nor the source so far carries the type, so the node is added.
    have hnone : nodesOf node.name state.definitions = [] := by
      rw [nodesOf_eq_nil_iff_keysOf, hpresent, ← hkey]
      exact htarget
    have hadded : [right].filterMap (addition? target) = [.type node] := by
      rcases Definition.eq_of_typeDefinition? hnode with rfl | ⟨extension, rfl, rfl⟩
      · exact List.filterMap_cons_some (if_neg htarget)
      · exact List.filterMap_cons_some (if_neg htarget)
    have huntouched : (target.filterMap (survivor? part)).filterMap (Definition.paredBy? node) =
        target.filterMap (survivor? part) := by
      apply filterMap_paredBy?_of_absent
      intro definition hmem hdefinition
      have hstateKey : definition ∈ state.definitions := hstate ▸ List.mem_append_left _ hmem
      exact nodesOf_eq_nil_iff.mp hnone definition hstateKey hdefinition
    rw [PareSummary.definitions_pare_of_absent hnode hnone, hstate, huntouched, hadded,
      List.append_assoc]

/-- The step for a directive. -/
theorem definitions_pare_directive {state : PareSummary S} {target part : List Definition}
    (hstate : state.definitions =
      target.filterMap (survivor? part) ++ part.filterMap (addition? target))
    {right : DirectiveDefinition} (hnew : ∀ other ∈ part, other.key ≠ ⟨.directive, right.name⟩) :
    (state.pare (.directive right)).definitions =
      target.filterMap (survivor? (part ++ [.directive right])) ++
        (part ++ [Definition.directive right]).filterMap (addition? target) := by
  have hsame : survivor? (part ++ [.directive right]) = survivor? part :=
    funext (survivor?_append_of_none rfl)
  have hpresent := mem_keysOf_pared target hnew
  rw [← hstate] at hpresent
  rw [hsame, List.filterMap_append, ← List.append_assoc, ← hstate]
  by_cases htarget : ⟨.directive, right.name⟩ ∈ keysOf target
  · -- The target's directive stays as it is.
    have hnothing : [Definition.directive right].filterMap (addition? target) = [] :=
      List.filterMap_cons_none (if_pos htarget)
    rw [hnothing, List.append_nil]
    exact congrArg PareSummary.definitions (if_pos (hpresent.mpr htarget))
  · have hadded : [Definition.directive right].filterMap (addition? target) = [.directive right] :=
      List.filterMap_cons_some (if_neg htarget)
    rw [hadded]
    exact congrArg PareSummary.definitions (if_neg fun hmem => htarget (hpresent.mp hmem))

/-- The run: the definitions after any part of a source that carries no type and no directive
twice. -/
theorem definitions_foldl_pare (start : PareSummary S) {part : List Definition}
    (honce : ((keysOf part).filter (·.space ≠ .schema)).Nodup) :
    (part.foldl PareSummary.pare start).definitions =
      start.definitions.filterMap (survivor? part) ++
        part.filterMap (addition? start.definitions) := by
  induction part using List.reverseRecOn with
  | nil =>
    have hall : ∀ definition ∈ start.definitions, survivor? [] definition = some definition :=
      fun definition _ => survivor?_of_absent fun _ hmem => absurd hmem List.not_mem_nil
    rw [List.filterMap_congr hall, List.filterMap_some]
    exact (List.append_nil _).symm
  | append_singleton part right ih =>
    have hkeys : keysOf (part ++ [right]) = keysOf part ++ [right.key] :=
      keysOf_append part [right]
    rw [hkeys, List.filter_append, List.nodup_append] at honce
    have hstate := ih honce.1
    -- Only schema definitions may come twice, and a pare passes them by.
    have hnew : right.key.space ≠ .schema → ∀ other ∈ part, other.key ≠ right.key := by
      intro hspace other hother hkey
      refine honce.2.2 right.key ?_ right.key ?_ rfl
      · rw [List.mem_filter, ← hkey]
        exact ⟨List.mem_map_of_mem hother, by simpa [hkey] using hspace⟩
      · simpa using hspace
    rw [List.foldl_append, List.foldl_cons, List.foldl_nil]
    cases right with
    | type node => exact definitions_pare_type hstate rfl (hnew (by simp))
    | extension node => exact definitions_pare_type hstate rfl (hnew (by simp))
    | directive right => exact definitions_pare_directive hstate (hnew (by simp))
    | schema right =>
      have hsame : survivor? (part ++ [.schema right]) = survivor? part :=
        funext (survivor?_append_of_none rfl)
      have hnothing : [Definition.schema right].filterMap (addition? start.definitions) = [] := by
        simp [addition?]
      rw [hsame, List.filterMap_append, hnothing, List.append_nil]
      exact hstate

/-- Paring a source that carries no type and no directive twice subtracts it: the target's definitions
lose what the source names, in their order, and what only the source carries comes behind them. -/
theorem pare_subtracts {target source : Source R S} {left right : Document}
    (hleft : (target.toDocument .pare .target).value = .ok left)
    (hright : (source.toDocument .pare .source).value = .ok right)
    (honce : ((keysOf right.definitions).filter (·.space ≠ .schema)).Nodup) :
    ∃ pared : Bundle R S, (pare target source).value = .ok pared ∧
      pared.document.definitions = left.definitions.filterMap (survivor? right.definitions) ++
        right.definitions.filterMap (addition? left.definitions) := by
  refine ⟨_, value_pare hleft hright, ?_⟩
  rw [value_pareBundles]
  exact definitions_foldl_pare _ honce

/-- An interface loses a field to an object type, and a union that only the source has is added. -/
theorem pare_interface_subtracts :
    ∃ pared : Bundle Unit Unit,
      (pare (.sdl "extend interface Node { id: ID name: String }\nscalar Date")
        (.sdl "type Node { id: ID }\nextend union Any = Node")).value = .ok pared ∧
      pared.document.definitions =
        [.extension ⟨"Node", [], .interface [] [⟨none, "name", [], .named "String", []⟩]⟩,
          .type ⟨none, "Date", [], .scalar⟩, .type ⟨none, "Any", [], .union ["Node"]⟩] := by
  have hleft : ((.sdl "extend interface Node { id: ID name: String }\nscalar Date" :
      Source Unit Unit).toDocument .pare .target).value =
        .ok ⟨[.extension ⟨"Node", [], .interface [] [⟨none, "id", [], .named "ID", []⟩,
          ⟨none, "name", [], .named "String", []⟩]⟩, .type ⟨none, "Date", [], .scalar⟩]⟩ := by
    decide +kernel
  have hright : ((.sdl "type Node { id: ID }\nextend union Any = Node" :
      Source Unit Unit).toDocument .pare .source).value =
        .ok ⟨[.type ⟨none, "Node", [], .object [] [⟨none, "id", [], .named "ID", []⟩]⟩,
          .extension ⟨"Any", [], .union ["Node"]⟩]⟩ := by
    decide +kernel
  obtain ⟨pared, hvalue, hdefinitions⟩ := pare_subtracts hleft hright (by decide)
  exact ⟨pared, hvalue, hdefinitions.trans (by decide)⟩

/-! ## A source that spreads a type -/

/-- Pares a source node from the nodes of its type, or adds it if there are none. -/
def pareNodes (definitions : List Definition) (right : TypeDefinition) : List Definition :=
  if definitions = [] then [.type right] else definitions.filterMap (·.pared? right)

/-- What is left of a definition if nodes are pared from it one after the other. -/
def paredByAll? (rights : List TypeDefinition) (definition : Definition) : Option Definition :=
  rights.foldlM Definition.pared? definition

/-- The source's nodes that come when nothing is left of the target's nodes. -/
def unmatched (targets : List Definition) : List TypeDefinition → List TypeDefinition
  | [] => []
  | right :: rest =>
    if targets = [] then right :: rest else unmatched (targets.filterMap (·.pared? right)) rest

/-- Adds a source node of a type that has none, or pares it from the one that was added. -/
def pareAdded (added : Option TypeDefinition) (right : TypeDefinition) : Option TypeDefinition :=
  match added with
  | none => some right
  | some node => node.pared? right

/-- The node that is added if a type has no node at first. -/
def addedNode? (rights : List TypeDefinition) : Option TypeDefinition := rights.foldl pareAdded none

/-- Paring a node from a list of definitions pares it from those of its type. -/
theorem carrying_filterMap_paredBy? (node : TypeDefinition) (definitions : List Definition) :
    carrying ⟨.type, node.name⟩ (definitions.filterMap (Definition.paredBy? node)) =
      (carrying ⟨.type, node.name⟩ definitions).filterMap (·.pared? node) := by
  rw [carrying, carrying, List.filter_filterMap, List.filterMap_filter]
  apply List.filterMap_congr
  intro definition _
  by_cases hkey : definition.key = ⟨.type, node.name⟩
  · cases hleft : definition.pared? node with
    | none => simp [Definition.paredBy?, hkey, hleft]
    | some left =>
      have hsame := (Definition.key_of_pared? hleft).trans hkey
      simp [Definition.paredBy?, hkey, hleft, hsame, Option.filter]
  · simp [Definition.paredBy?, hkey, Option.filter]

/-- Paring a node from a list of definitions leaves those of other keys alone. -/
theorem carrying_filterMap_paredBy?_of_ne {key : DefinitionKey} {node : TypeDefinition}
    (h : ⟨.type, node.name⟩ ≠ key) (definitions : List Definition) :
    carrying key (definitions.filterMap (Definition.paredBy? node)) = carrying key definitions := by
  rw [carrying, carrying, List.filter_filterMap, ← List.filterMap_eq_filter]
  apply List.filterMap_congr
  intro definition _
  by_cases hkey : definition.key = ⟨.type, node.name⟩
  · have hother : ¬ definition.key = key := fun e => h (hkey.symm.trans e)
    cases hleft : definition.pared? node with
    | none => simp [Definition.paredBy?, hkey, hleft, h, Option.guard]
    | some left =>
      have hsame := (Definition.key_of_pared? hleft).trans hkey
      simp [Definition.paredBy?, hkey, hleft, hsame, h, Option.filter, Option.guard]
  · simp [Definition.paredBy?, hkey, Option.filter, Option.guard]

/-- One step of a pare on the definitions of a type. -/
theorem carrying_pare (state : PareSummary S) (name : String) (right : Definition) :
    carrying ⟨.type, name⟩ (state.pare right).definitions =
      (nodesOf name [right]).foldl pareNodes (carrying ⟨.type, name⟩ state.definitions) := by
  have hadded : ∀ added : Definition, added.key ≠ ⟨.type, name⟩ →
      carrying ⟨.type, name⟩ (state.definitions ++ [added]) =
        carrying ⟨.type, name⟩ state.definitions := by
    intro added hne
    rw [carrying_append, carrying_cons, if_neg hne]
    exact List.append_nil _
  by_cases hkey : right.key = ⟨.type, name⟩
  · obtain ⟨node, hnode, rfl⟩ := Definition.exists_typeDefinition? hkey
    rw [nodesOf_singleton hnode, if_pos rfl, List.foldl_cons, List.foldl_nil]
    by_cases hnone : carrying ⟨.type, node.name⟩ state.definitions = []
    · have habsent := nodesOf_eq_nil_of_absent (carrying_eq_nil.mp hnone)
      rw [PareSummary.definitions_pare_of_absent hnode habsent, carrying_append, hnone, pareNodes,
        if_pos rfl, carrying_cons, Definition.key_type, if_pos rfl]
      rfl
    · have hpresent : nodesOf node.name state.definitions ≠ [] := fun h =>
        hnone (carrying_eq_nil.mpr (nodesOf_eq_nil_iff.mp h))
      rw [PareSummary.definitions_pare_of_present hnode hpresent, carrying_filterMap_paredBy?,
        pareNodes, if_neg hnone]
  · -- Whether it is pared or added, a definition of another key does not count here.
    rw [nodesOf_singleton_of_ne hkey, List.foldl_nil]
    cases hnode : right.typeDefinition? with
    | some node =>
      rw [Definition.key_of_typeDefinition? hnode] at hkey
      by_cases hpresent : nodesOf node.name state.definitions = []
      · rw [PareSummary.definitions_pare_of_absent hnode hpresent]
        exact hadded _ hkey
      · rw [PareSummary.definitions_pare_of_present hnode hpresent]
        exact carrying_filterMap_paredBy?_of_ne hkey _
    | none =>
      cases right with
      | type right => cases hnode
      | extension extension => cases hnode
      | schema right => rfl
      | directive right =>
        show carrying _ (PareSummary.definitions (if _ then _ else _)) = _
        split
        · rfl
        · exact hadded _ hkey

/-- The run: the definitions of a type after a source that may spread it over any number of nodes. -/
theorem carrying_foldl_pare (start : PareSummary S) (name : String) (source : List Definition) :
    carrying ⟨.type, name⟩ (source.foldl PareSummary.pare start).definitions =
      (nodesOf name source).foldl pareNodes (carrying ⟨.type, name⟩ start.definitions) := by
  induction source generalizing start with
  | nil => rfl
  | cons right rest ih =>
    rw [List.foldl_cons, ih, carrying_pare, nodesOf_cons right rest, List.foldl_append]

/-- From a type without nodes on, there is at most one definition, which was added. -/
theorem foldl_pareNodes_added (added : Option TypeDefinition) (rights : List TypeDefinition) :
    rights.foldl pareNodes (added.toList.map .type) =
      (rights.foldl pareAdded added).toList.map .type := by
  induction rights generalizing added with
  | nil => rfl
  | cons right rest ih =>
    have hstep : pareNodes (added.toList.map .type) right =
        (pareAdded added right).toList.map .type := by
      cases added with
      | none => rfl
      | some node =>
        show [Definition.type node].filterMap (·.pared? right) = (node.pared? right).toList.map .type
        have hpared : (Definition.type node).pared? right = (node.pared? right).map .type := rfl
        cases hnode : node.pared? right with
        | none => rw [List.filterMap_cons_none (by rw [hpared, hnode]; rfl)]; rfl
        | some left => rw [List.filterMap_cons_some (by rw [hpared, hnode]; rfl)]; rfl
    rw [List.foldl_cons, hstep, ih, List.foldl_cons]

/-- The definitions of a type after a whole source: what the source's nodes leave of the target's,
and what is added when none of them is left. -/
theorem foldl_pareNodes (targets : List Definition) (rights : List TypeDefinition) :
    rights.foldl pareNodes targets = targets.filterMap (paredByAll? rights) ++
      (addedNode? (unmatched targets rights)).toList.map .type := by
  induction rights generalizing targets with
  | nil =>
    have hall : paredByAll? [] = some := rfl
    rw [hall, List.filterMap_some]
    exact (List.append_nil targets).symm
  | cons right rest ih =>
    -- Once nothing is left of the target's nodes, a source node counts as new.
    by_cases hnone : targets = []
    · subst hnone
      exact foldl_pareNodes_added none (right :: rest)
    · have hboth : (targets.filterMap (·.pared? right)).filterMap (paredByAll? rest) =
          targets.filterMap (paredByAll? (right :: rest)) := by
        rw [List.filterMap_filterMap]
        rfl
      rw [List.foldl_cons, pareNodes, if_neg hnone, ih, hboth, unmatched, if_neg hnone]

/-! ## What is left of the target's nodes -/

/-- What source nodes may leave of a definition of their type: the definition in its own form, with
members deleted.  Of a scalar nothing is left, and no member is left that a source node with the
same kind of collection names. -/
def IsRemnant (rights : List TypeDefinition) (origin kept : Definition) : Prop :=
  ∃ left taken, origin.typeDefinition? = some left ∧
    kept = .ofType origin.isExtension { left with body := left.body.without taken } ∧
    (left.kind = .scalar → rights = []) ∧
    ∀ right ∈ rights, right.body.collection = left.body.collection →
      ∀ name ∈ right.body.memberNames, name ∉ (left.body.without taken).memberNames

/-- What is left of a node after any number of source nodes. -/
theorem TypeDefinition.eq_of_foldlM_pared? {left pared : TypeDefinition}
    {rights : List TypeDefinition} (h : rights.foldlM TypeDefinition.pared? left = some pared) :
    (left.kind = .scalar → rights = []) ∧
      pared = { left with body := left.body.without (left.takenFrom rights) } := by
  induction rights generalizing left with
  | nil =>
    refine ⟨fun _ => rfl, ?_⟩
    simpa [takenFrom] using (Option.some.inj h).symm
  | cons right rest ih =>
    rw [List.foldlM_cons] at h
    obtain ⟨node, hnode, hrest⟩ := Option.bind_eq_some_iff.mp h
    obtain ⟨hscalar, rfl⟩ := TypeDefinition.eq_of_pared? hnode
    refine ⟨fun hkind => absurd hkind hscalar, ?_⟩
    have htaken : left.takenFrom (right :: rest) =
        left.takenFrom [right] ++ left.takenFrom rest := by
      simp only [takenFrom, ← List.flatMap_append, ← List.filter_append, List.singleton_append]
    rw [(ih hrest).2, htaken, ← TypeBody.without_without]
    simp [takenFrom]

/-- The normalized form of a definition that is written anew. -/
theorem Definition.typeDefinition?_ofType {definition : Definition} {left node : TypeDefinition}
    (hleft : definition.typeDefinition? = some left) (h : node.description = left.description) :
    (ofType definition.isExtension node).typeDefinition? = some node := by
  rcases eq_of_typeDefinition? hleft with rfl | ⟨extension, rfl, rfl⟩
  · rfl
  · -- An extension has no description, and neither has what is left of it.
    have hnone : node.description = none := h
    show some { node with description := none } = some node
    rw [← hnone]

/-- Paring nodes from a definition is paring them from its normalized form. -/
theorem paredByAll?_eq {definition : Definition} {left : TypeDefinition}
    (h : definition.typeDefinition? = some left) (rights : List TypeDefinition) :
    paredByAll? rights definition =
      (rights.foldlM TypeDefinition.pared? left).map (.ofType definition.isExtension) := by
  induction rights generalizing definition left with
  | nil => exact congrArg some (Definition.ofType_typeDefinition? h).symm
  | cons right rest ih =>
    have hstep : definition.pared? right =
        (left.pared? right).map (.ofType definition.isExtension) := by
      rw [Definition.pared?, h]
    have hfold : paredByAll? (right :: rest) definition =
        (definition.pared? right).bind (paredByAll? rest) := List.foldlM_cons
    rw [hfold, hstep, List.foldlM_cons]
    cases hnode : left.pared? right with
    | none => rfl
    | some node =>
      -- What is left has the form of the definition, so the rest is pared from it alike.
      have hform : (Definition.ofType definition.isExtension node).isExtension =
          definition.isExtension := by
        cases definition.isExtension <;> rfl
      have hdescription : node.description = left.description := by
        rw [(TypeDefinition.eq_of_pared? hnode).2]
      have hrest := ih (Definition.typeDefinition?_ofType h hdescription)
      rw [hform] at hrest
      exact hrest

/-- What is left of a type node is a remnant of it. -/
theorem isRemnant_of_paredByAll? {name : String} {rights : List TypeDefinition}
    {origin kept : Definition} (hkey : origin.key = ⟨.type, name⟩)
    (h : paredByAll? rights origin = some kept) : IsRemnant rights origin kept := by
  obtain ⟨left, hleft, -⟩ := Definition.exists_typeDefinition? hkey
  rw [paredByAll?_eq hleft] at h
  obtain ⟨node, hnode, rfl⟩ := Option.map_eq_some_iff.mp h
  obtain ⟨hscalar, rfl⟩ := TypeDefinition.eq_of_foldlM_pared? hnode
  refine ⟨left, left.takenFrom rights, hleft, rfl, hscalar, ?_⟩
  intro right hright hcollection member hmember hkept
  rw [TypeBody.memberNames_without, List.mem_filter] at hkept
  have htaken : member ∈ left.takenFrom rights :=
    List.mem_flatMap.mpr ⟨right, List.mem_filter.mpr ⟨hright, by simpa using hcollection⟩, hmember⟩
  simp [htaken] at hkept

/-- A pare puts nothing back for a type: of its nodes in the target those are there, in order, that
the source's nodes leave, each as a remnant of itself, and no other node. -/
structure PutsNothingBack (targets : List Definition) (rights : List TypeDefinition)
    (pared : List Definition) : Prop where
  nothingAdded : pared = targets.filterMap (paredByAll? rights)
  remnants : ∀ kept ∈ pared, ∃ origin ∈ targets, IsRemnant rights origin kept

/-- For any source, the nodes of a type after a pare are what the source's nodes leave of the
target's, and the node, if any, that is added from those of the source's nodes that come when nothing
is left.  So nothing is put back exactly if these leave no node. -/
theorem pare_putsNothingBack_iff {target source : Source R S} {left right : Document}
    (hleft : (target.toDocument .pare .target).value = .ok left)
    (hright : (source.toDocument .pare .source).value = .ok right) :
    ∃ pared : Bundle R S, (pare target source).value = .ok pared ∧ ∀ name,
      let targets := carrying ⟨.type, name⟩ left.definitions
      let rights := nodesOf name right.definitions
      let found := carrying ⟨.type, name⟩ pared.document.definitions
      let added := addedNode? (unmatched targets rights)
      found = targets.filterMap (paredByAll? rights) ++ added.toList.map .type ∧
        (PutsNothingBack targets rights found ↔ added = none) := by
  refine ⟨_, value_pare hleft hright, ?_⟩
  intro name targets rights found added
  have hfound : found = targets.filterMap (paredByAll? rights) ++ added.toList.map .type := by
    show carrying _ (Document.definitions (Bundle.document (Traced.value (pareBundles ..)))) = _
    rw [value_pareBundles, paredSummary, carrying_foldl_pare]
    exact foldl_pareNodes targets rights
  refine ⟨hfound, ?_, ?_⟩
  · intro h
    have hnone : added.toList.map Definition.type = [] := by
      rw [h.nothingAdded] at hfound
      exact List.self_eq_append_right.mp hfound
    cases hadded : added with
    | none => rfl
    | some node => rw [hadded] at hnone; cases hnone
  · intro hadded
    have hkept : found = targets.filterMap (paredByAll? rights) := by
      rw [hfound, hadded]
      exact List.append_nil _
    refine ⟨hkept, ?_⟩
    intro kept hmem
    rw [hkept] at hmem
    obtain ⟨origin, horigin, hsome⟩ := List.mem_filterMap.mp hmem
    exact ⟨origin, horigin, isRemnant_of_paredByAll? (mem_carrying.mp horigin).2 hsome⟩

/-- A source that spreads an enum over two nodes leaves of it what neither names. -/
theorem pare_spreadEnum_putsNothingBack :
    ∃ pared : Bundle Unit Unit,
      (pare (.sdl "enum Color { RED GREEN BLUE }")
        (.sdl "enum Color { RED }\nextend enum Color { BLUE }")).value = .ok pared ∧
      PutsNothingBack
        [.type ⟨none, "Color", [], .enum [⟨none, "RED", []⟩, ⟨none, "GREEN", []⟩, ⟨none, "BLUE", []⟩]⟩]
        [⟨none, "Color", [], .enum [⟨none, "RED", []⟩]⟩,
          ⟨none, "Color", [], .enum [⟨none, "BLUE", []⟩]⟩]
        (carrying ⟨.type, "Color"⟩ pared.document.definitions) := by
  have hleft : ((.sdl "enum Color { RED GREEN BLUE }" : Source Unit Unit).toDocument .pare
      .target).value = .ok ⟨[.type ⟨none, "Color", [],
        .enum [⟨none, "RED", []⟩, ⟨none, "GREEN", []⟩, ⟨none, "BLUE", []⟩]⟩]⟩ := by
    decide +kernel
  have hright : ((.sdl "enum Color { RED }\nextend enum Color { BLUE }" :
      Source Unit Unit).toDocument .pare .source).value =
        .ok ⟨[.type ⟨none, "Color", [], .enum [⟨none, "RED", []⟩]⟩,
          .extension ⟨"Color", [], .enum [⟨none, "BLUE", []⟩]⟩]⟩ := by
    decide +kernel
  obtain ⟨pared, hvalue, htypes⟩ := pare_putsNothingBack_iff hleft hright
  exact ⟨pared, hvalue, (htypes "Color").2.mpr (by decide)⟩

/-- A scalar that the source names twice is dropped for the first node and put back for the second. -/
theorem pare_repeatedScalar_putsBack :
    ∃ pared : Bundle Unit Unit,
      (pare (.sdl "scalar Date") (.sdl "scalar Date\nextend scalar Date @utc")).value = .ok pared ∧
      pared.document.definitions = [.type ⟨none, "Date", [⟨"utc", []⟩], .scalar⟩] ∧
      ¬ PutsNothingBack [.type ⟨none, "Date", [], .scalar⟩]
        [⟨none, "Date", [], .scalar⟩, ⟨none, "Date", [⟨"utc", []⟩], .scalar⟩]
        (carrying ⟨.type, "Date"⟩ pared.document.definitions) := by
  have hleft : ((.sdl "scalar Date" : Source Unit Unit).toDocument .pare .target).value =
      .ok ⟨[.type ⟨none, "Date", [], .scalar⟩]⟩ := by
    decide +kernel
  have hright : ((.sdl "scalar Date\nextend scalar Date @utc" : Source Unit Unit).toDocument .pare
      .source).value = .ok ⟨[.type ⟨none, "Date", [], .scalar⟩,
        .extension ⟨"Date", [⟨"utc", []⟩], .scalar⟩]⟩ := by
    decide +kernel
  obtain ⟨pared, hvalue, hdefinitions⟩ : ∃ pared : Bundle Unit Unit,
      (pare (.sdl "scalar Date") (.sdl "scalar Date\nextend scalar Date @utc")).value = .ok pared ∧
      pared.document.definitions = [.type ⟨none, "Date", [⟨"utc", []⟩], .scalar⟩] :=
    ⟨_, value_pare hleft hright, by decide +kernel⟩
  refine ⟨pared, hvalue, hdefinitions, ?_⟩
  intro h
  have hnothing := h.nothingAdded
  rw [hdefinitions] at hnothing
  exact absurd hnothing (by decide)

end SchemaAlgebra
