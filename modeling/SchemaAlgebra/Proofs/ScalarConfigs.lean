import SchemaAlgebra.Proofs.MergedResolvers

/-!
# The scalar configs of a merge

The policy for scalars is shown the configs that the registries of both sides have.  The target's
registry is that of its document, but the source's is that of its *normalized* document.  A source that
spreads some type over a definition and extensions has a registry of its own, but none once its
extensions have become definitions; then the policy is shown no config of the source at all, and the
target's config wins.

## Main statements

* `all_mergeBundles`: the configs that come with each question about a scalar.
* `Registry.Buildable.normalize_iff`: when a document keeps its registry as it is normalized.
* `get?_scalars_mergeBundles`: the merged config of a scalar that both sides define.
* `merge_showsScalarConfigs`: the three together, for whole schemas.
-/

namespace SchemaAlgebra

variable {R S α β : Type}

/-! ## What a computation asks -/

/-- All questions of a computation satisfy a condition. -/
def Asking.All (p : Question S → Prop) (x : Asking S α) : Prop := ∀ question ∈ x.questions, p question

namespace Asking

variable {p : Question S → Prop}

theorem all_pure (a : α) : All p (pure a : Asking S α) := fun _ h => absurd h List.not_mem_nil

theorem all_note (notice : Notice) : All p (note notice : Asking S Unit) :=
  fun _ h => absurd h List.not_mem_nil

theorem all_ofNoted (x : Noted α) : All p (liftM x : Asking S α) := by
  intro question h
  rw [questions_liftM] at h
  exact absurd h List.not_mem_nil

theorem All.bind {x : Asking S α} {f : α → Asking S β} (hx : All p x)
    (hf : All p (f x.value)) : All p (x >>= f) := by
  intro question h
  rw [questions_bind] at h
  rcases List.mem_append.mp h with h | h
  · exact hx question h
  · exact hf question h

theorem All.map {x : Asking S α} (hx : All p x) (f : α → β) : All p (f <$> x) := by
  intro question h
  rw [questions_map] at h
  exact hx question h

theorem all_foldlM {f : β → α → Asking S β} {items : List α}
    (h : ∀ state, ∀ item ∈ items, All p (f state item)) (init : β) :
    All p (items.foldlM f init) := by
  induction items generalizing init with
  | nil => exact all_pure init
  | cons first rest ih =>
    rw [List.foldlM_cons]
    refine (h init first List.mem_cons_self).bind (ih (fun state item hitem => ?_) _)
    exact h state item (List.mem_cons_of_mem _ hitem)

/-- A question satisfies what is asked for. -/
theorem all_emit {question : Question S} (h : p question) :
    All p (Traced.emit (.asked question) : Asking S Unit) := by
  intro other hother
  obtain rfl : other = question := by simpa using hother
  exact h

end Asking

open Asking (All all_pure all_note all_ofNoted all_foldlM all_emit)

/-! ## What the policy is shown -/

/-- The config that the policy sees for a scalar on one side. -/
def ScalarSides.visible? (sides : ScalarSides S) (side : Side) (scalar : String) : Option S :=
  match sides.registry side with
  | .ok registry => registry.config? scalar
  | .error _ => none

/-- A question about a scalar comes with the configs that are visible on the two sides. -/
def ScalarSides.Shows (sides : ScalarSides S) : Question S → Prop
  | .scalar _ leftConfig right rightConfig =>
    leftConfig = sides.visible? .target right.name ∧ rightConfig = sides.visible? .source right.name
  | _ => True

variable {sides : ScalarSides S}

theorem ScalarSides.value_shown (sides : ScalarSides S) (side : Side) (scalar : String) :
    (sides.shown side scalar).value = sides.visible? side scalar := by
  unfold shown config? visible?
  cases sides.registry side <;> rfl

theorem all_shown (side : Side) (scalar : String) : All sides.Shows (sides.shown side scalar) := by
  unfold ScalarSides.shown
  split
  · exact all_pure _
  · exact (all_note _).bind (all_pure _)

theorem all_settle (policy : Policy S) (left right : TypeDefinition) :
    All sides.Shows (sides.settle policy left right) := by
  refine (all_shown .target right.name).bind ((all_shown .source right.name).bind ?_)
  refine Asking.All.bind ?_ (all_pure _)
  refine (all_emit ?_).bind (all_pure _)
  exact ⟨sides.value_shown _ _, sides.value_shown _ _⟩

section Folding

variable {p : Question S → Prop}

section Nodes

variable [Named α]

theorem all_mergeSiblings (owner : String) (left right : List α) {resolve : α → α → Asking S α}
    (h : ∀ l r, All p (resolve l r)) :
    All p (mergeSiblings owner left right resolve) := by
  refine (all_foldlM (fun state node _ => ?_) _).bind (all_pure _)
  unfold mergeSibling
  dsimp only
  split
  · split
    · exact (all_note _).bind ((h _ _).bind (all_pure _))
    · exact all_pure _
  · exact (all_note _).bind (all_pure _)

theorem all_mergeFirstWins (owner : String) (left right : List α) :
    All p (mergeFirstWins owner left right) :=
  all_mergeSiblings owner left right fun _ _ => all_pure _

theorem all_mergeLastWins (owner : String) (left right : List α) :
    All p (mergeLastWins owner left right) :=
  all_mergeSiblings owner left right fun _ _ => all_pure _

end Nodes

theorem all_foldBody (owner : String) (into piece : TypeBody) :
    All p (foldBody owner into piece) := by
  cases into with
  | scalar => exact all_pure _
  | object interfaces fields => exact (all_mergeFirstWins _ _ _).bind (all_pure _)
  | interface interfaces fields => exact (all_mergeFirstWins _ _ _).bind (all_pure _)
  | union members => exact (all_mergeFirstWins _ _ _).map _
  | enum values => exact (all_mergeFirstWins _ _ _).map _
  | inputObject fields => exact (all_mergeFirstWins _ _ _).map _

theorem all_foldNode (into piece : TypeDefinition) : All p (foldNode into piece) :=
  (all_mergeFirstWins _ _ _).bind ((all_foldBody _ _ _).bind (all_pure _))

theorem all_foldSlot (state : Arena × TypeDefinition) (slot : Nat) :
    All p (foldSlot state slot) := by
  refine (all_ofNoted _).bind ?_
  split
  · exact all_pure _
  · split
    · exact (all_note _).bind ((all_foldNode _ _).bind (all_pure _))
    · exact (all_note _).bind (all_pure _)

theorem all_foldNodes (arena : Arena) (type : String) :
    All p (foldNodes arena type) := by
  unfold foldNodes
  split
  · exact all_pure _
  · refine (all_ofNoted _).bind ?_
    split
    · exact all_pure _
    · exact (all_foldlM (fun state slot _ => all_foldSlot state slot) _).bind (all_pure _)

end Folding

theorem all_askDirective (policy : Policy S) (leftType : TypeDefinition) (left : Directive)
    (rightType : TypeDefinition) (right : Directive) :
    All sides.Shows (policy.askDirective leftType left rightType right) :=
  (all_emit trivial).bind (all_pure _)

theorem all_askField (policy : Policy S) (leftType : TypeDefinition) (left : FieldNode)
    (rightType : TypeDefinition) (right : FieldNode) :
    All sides.Shows (policy.askField leftType left rightType right) :=
  (all_emit trivial).bind (all_pure _)

theorem all_askEnumValue (policy : Policy S) (leftType : TypeDefinition) (left : EnumValue)
    (rightType : TypeDefinition) (right : EnumValue) :
    All sides.Shows (policy.askEnumValue leftType left rightType right) :=
  (all_emit trivial).bind (all_pure _)

theorem all_askUnionMember (policy : Policy S) (leftType : TypeDefinition) (left : String)
    (rightType : TypeDefinition) (right : String) :
    All sides.Shows (policy.askUnionMember leftType left rightType right) :=
  (all_emit trivial).bind (all_pure _)

theorem all_mergeOutputFields (policy : Policy S) (left right : TypeDefinition)
    (fields : List Field) : All sides.Shows (mergeOutputFields policy left right fields) := by
  refine all_mergeSiblings _ _ _ fun l r => (all_askField _ _ _ _ _).bind ?_
  split
  · exact all_pure _
  · exact (all_note _).bind (all_pure _)

theorem all_mergeInputFields (policy : Policy S) (left right : TypeDefinition)
    (fields : List InputValue) : All sides.Shows (mergeInputFields policy left right fields) := by
  refine all_mergeSiblings _ _ _ fun l r => (all_askField _ _ _ _ _).bind ?_
  split
  · exact all_pure _
  · exact (all_note _).bind (all_pure _)

theorem all_mergeBody (policy : Policy S) (left right : TypeDefinition) :
    All sides.Shows (mergeBody policy left right) := by
  unfold mergeBody
  cases left.body with
  | scalar => exact all_pure _
  | object interfaces fields => exact (all_mergeOutputFields _ _ _ _).map _
  | interface interfaces fields => exact (all_mergeOutputFields _ _ _ _).map _
  | union members =>
    exact (all_mergeSiblings _ _ _ fun l r => all_askUnionMember policy left l right r).map _
  | enum values =>
    exact (all_mergeSiblings _ _ _ fun l r => all_askEnumValue policy left l right r).map _
  | inputObject fields => exact (all_mergeInputFields _ _ _ _).map _

theorem all_mergeType (policy : Policy S) (left right : TypeDefinition) :
    All sides.Shows (mergeType policy sides left right) := by
  have hfinish : ∀ node : TypeDefinition, ∀ body : TypeBody,
      All sides.Shows (if node.kind = .scalar ∧ right.kind = .scalar then do
        let answer ← sides.settle policy node right
        return ({ node with body }, some answer)
      else return ({ node with body }, none)) := by
    intro node body
    split
    · exact (all_settle _ _ _).bind (all_pure _)
    · exact all_pure _
  refine Asking.All.bind
    (all_mergeSiblings _ _ _ fun l r => all_askDirective policy left l right r) ?_
  dsimp only
  split
  · exact (all_note _).bind ((all_mergeBody _ _ _).bind (hfinish _ _))
  · exact (all_mergeBody _ _ _).bind (hfinish _ _)

theorem all_mergeTypeDefinition (policy : Policy S) (state : MergeState S) (right : TypeDefinition) :
    All sides.Shows (mergeTypeDefinition policy sides state right) := by
  refine (all_foldNodes _ _).bind ?_
  split
  · exact (all_note _).bind (all_pure _)
  · exact (all_note _).bind ((all_mergeType _ _ _).bind (all_pure _))

theorem all_mergeDefinition (policy : Policy S) (state : MergeState S) (right : Definition) :
    All sides.Shows (mergeDefinition policy sides state right) := by
  cases right with
  | type right => exact all_mergeTypeDefinition policy state right
  | extension node => exact (all_ofNoted _).bind (all_mergeTypeDefinition policy state _)
  | directive right =>
    refine Asking.All.bind ?_ (all_pure _)
    unfold mergeDirectiveDefinition
    split
    · exact (all_note _).bind (all_pure _)
    · exact (all_note _).bind (all_pure _)
  | schema right =>
    refine Asking.All.bind ?_ (all_pure _)
    unfold mergeSchemaDefinition
    split
    · exact Asking.All.bind ((all_mergeLastWins _ _ _).bind (all_pure _)) (all_pure _)
    · exact all_pure _

/-- The registries that the policy is shown configs from: the target's as it is, and the source's with
its document normalized. -/
def scalarSides (target source : Bundle R S) : ScalarSides S :=
  ⟨target.registry, Registry.build source.document.normalize.value source.scalars⟩

/-- Merging a part of a source, whose extensions have become definitions, into a target. -/
def mergeRun (policy : Policy S) (target source : Bundle R S) (part : List Definition) :
    Asking S (MergeState S) :=
  part.foldlM (mergeDefinition policy (scalarSides target source)) ⟨.ofDocument target.document, ∅⟩

/-- Every question about a scalar shows what is visible in these registries. -/
theorem all_mergeBundles (policy : Policy S) (target source : Bundle R S) :
    All (scalarSides target source).Shows (mergeBundles policy target source) := by
  refine (all_ofNoted _).bind ((all_note _).bind (Asking.All.bind ?_ ?_))
  · exact all_foldlM (fun state right _ => all_mergeDefinition policy state right) _
  · exact (all_ofNoted _).bind ((all_ofNoted _).bind (all_pure _))

/-! ## The registry of a normalized document -/

/-- A document that spreads no type over several definitions and extensions. -/
def Document.WritesTypesOnce (document : Document) : Prop :=
  ((typeNodes document.definitions).map TypeDefinition.name).Nodup

instance (document : Document) : Decidable document.WritesTypesOnce :=
  inferInstanceAs (Decidable (List.Nodup _))

/-- A document and configs are consistent enough for a registry. -/
structure Registry.Buildable (document : Document) (configs : OrderedMap String S) : Prop where
  typesOnce : document.definedTypes.Nodup
  references : ∀ reference ∈ document.references,
    reference.type ∈ document.definedTypes ++ builtinScalars
  configs : ∀ scalar ∈ configs.keys, scalar ∈ document.definedScalars

namespace Registry

variable {document : Document} {configs : OrderedMap String S}

theorem Buildable.build (h : Buildable document configs) : build document configs =
    .ok ⟨.ofDocument document, configs, document.definedTypes ++ builtinScalars⟩ := by
  have htypes : firstRepeated? [] document.definedTypes = none :=
    (firstRepeated?_eq_none_iff _ _).mpr ⟨h.typesOnce, fun _ _ => List.not_mem_nil⟩
  have hreferences : (document.references.find? fun reference =>
      !(document.definedTypes ++ builtinScalars).contains reference.type) = none := by
    rw [List.find?_eq_none]
    intro reference hmem
    simpa [List.contains_eq_mem] using or_iff_not_imp_left.mp
      (List.mem_append.mp (h.references reference hmem))
  have hconfigs : (configs.keys.find? fun scalar =>
      !document.definedScalars.contains scalar) = none := by
    rw [List.find?_eq_none]
    intro scalar hmem
    simpa using h.configs scalar hmem
  simp only [Registry.build, htypes, hreferences, hconfigs]

theorem buildable_of_build {registry : Registry S} (h : build document configs = .ok registry) :
    Buildable document configs := by
  unfold build at h
  dsimp only at h
  split at h
  · cases h
  · next htypes =>
    split at h
    · cases h
    · next hreferences =>
      split at h
      · cases h
      · next hconfigs =>
        rw [List.find?_eq_none] at hreferences hconfigs
        refine ⟨((firstRepeated?_eq_none_iff _ _).mp htypes).1, ?_, ?_⟩
        · intro reference hmem
          rw [List.mem_append, or_iff_not_imp_left]
          simpa using hreferences reference hmem
        · intro scalar hmem
          simpa using hconfigs scalar hmem

end Registry

theorem Document.typeDefinitions_normalize (document : Document) :
    document.normalize.value.typeDefinitions = typeNodes document.definitions := by
  unfold typeDefinitions typeNodes
  rw [definitions_value_normalize, List.filterMap_map]
  congr 1
  funext definition
  cases definition <;> rfl

theorem Document.references_normalize (document : Document) :
    document.normalize.value.references = document.references := by
  unfold references
  rw [definitions_value_normalize, List.flatMap_map]
  congr 1
  funext definition
  cases definition <;> rfl

theorem Document.typeDefinitions_subset (document : Document) :
    document.typeDefinitions ⊆ typeNodes document.definitions := by
  intro node hnode
  obtain ⟨definition, hmem, hsome⟩ := List.mem_filterMap.mp hnode
  refine List.mem_filterMap.mpr ⟨definition, hmem, ?_⟩
  cases definition with
  | type definition => exact hsome
  | extension extension => cases hsome
  | schema definition => cases hsome
  | directive definition => cases hsome

/-- What normalizing a document may cost it is that its types are defined once. -/
theorem Registry.Buildable.normalize_iff {document : Document} {configs : OrderedMap String S}
    (h : Buildable document configs) :
    Buildable document.normalize.value configs ↔ document.WritesTypesOnce := by
  have htypes : document.normalize.value.definedTypes =
      (typeNodes document.definitions).map TypeDefinition.name := by
    rw [Document.definedTypes, Document.typeDefinitions_normalize]
  constructor
  · intro hnormalized
    have honce := hnormalized.typesOnce
    rwa [htypes] at honce
  · intro honce
    refine ⟨by rwa [htypes], ?_, ?_⟩
    · intro reference hmem
      rw [Document.references_normalize] at hmem
      rw [htypes]
      rcases List.mem_append.mp (h.references reference hmem) with hdefined | hbuiltin
      · exact List.mem_append_left _ (List.map_subset _ document.typeDefinitions_subset hdefined)
      · exact List.mem_append_right _ hbuiltin
    · intro scalar hmem
      rw [Document.definedScalars, Document.typeDefinitions_normalize]
      obtain ⟨node, hnode, rfl⟩ := List.mem_map.mp (h.configs scalar hmem)
      obtain ⟨hmem, hkind⟩ := List.mem_filter.mp hnode
      exact List.mem_map_of_mem (List.mem_filter.mpr ⟨document.typeDefinitions_subset hmem, hkind⟩)

/-- The policy is shown the target's configs. -/
theorem visible?_target {target : Bundle R S} (source : Bundle R S)
    (h : Registry.Buildable target.document target.scalars) (scalar : String) :
    (scalarSides target source).visible? .target scalar = target.scalars.get? scalar := by
  have hbuild : target.registry = .ok _ := h.build
  simp [ScalarSides.visible?, ScalarSides.registry, scalarSides, hbuild, Registry.config?]

/-- The policy is shown the source's configs exactly if the source spreads no type. -/
theorem visible?_source (target : Bundle R S) {source : Bundle R S}
    (h : Registry.Buildable source.document source.scalars) (scalar : String) :
    (scalarSides target source).visible? .source scalar =
      if source.document.WritesTypesOnce then source.scalars.get? scalar else none := by
  unfold ScalarSides.visible? ScalarSides.registry scalarSides
  dsimp only
  split
  · next registry hbuild =>
    have hbuildable := Registry.buildable_of_build hbuild
    rw [if_pos (h.normalize_iff.mp hbuildable)]
    rw [hbuildable.build] at hbuild
    rw [← Except.ok.inj hbuild]
    rfl
  · next reason hbuild =>
    rw [if_neg fun honce => ?_]
    rw [(h.normalize_iff.mpr honce).build] at hbuild
    cases hbuild

theorem degraded_scalarSides {target source : Bundle R S}
    (htarget : Registry.Buildable target.document target.scalars)
    (hsource : Registry.Buildable source.document source.scalars) :
    (scalarSides target source).degraded = !decide source.document.WritesTypesOnce := by
  have hbuild : target.registry = .ok _ := htarget.build
  unfold ScalarSides.degraded scalarSides
  rw [hbuild]
  by_cases honce : source.document.WritesTypesOnce
  · rw [(hsource.normalize_iff.mpr honce).build]
    simp [honce, Except.toBool]
  · cases hnormalized : Registry.build source.document.normalize.value source.scalars with
    | ok registry =>
      exact absurd (hsource.normalize_iff.mp (Registry.buildable_of_build hnormalized)) honce
    | error reason => simp [honce, Except.toBool]

/-! ## What the policy answers -/

/-- What the policy that the source wins answers about a scalar. -/
def ScalarSides.answer (sides : ScalarSides S) (scalar : String) : ScalarAnswer S :=
  ⟨(sides.visible? .source scalar).or (sides.visible? .target scalar), sides.degraded⟩

theorem ScalarSides.value_settle (sides : ScalarSides S) (left right : TypeDefinition) :
    (sides.settle Policy.rightWins left right).value = sides.answer right.name := by
  rw [answer, ← value_shown, ← value_shown]
  rfl

theorem answer_mergeType (sides : ScalarSides S) (left right : TypeDefinition) :
    (mergeType Policy.rightWins sides left right).value.2 =
      if left.kind = .scalar ∧ right.kind = .scalar then some (sides.answer right.name) else none := by
  have hfinish : ∀ node : TypeDefinition, ∀ body : TypeBody,
      (if node.kind = .scalar ∧ right.kind = .scalar then do
        let answer ← sides.settle Policy.rightWins node right
        return ({ node with body }, some answer)
      else return ({ node with body }, none) : Asking S _).value.2 =
        if node.kind = .scalar ∧ right.kind = .scalar then some (sides.answer right.name)
        else none := by
    intro node body
    split
    · exact congrArg some (sides.value_settle _ _)
    · rfl
  unfold mergeType
  simp only [Traced.value_bind]
  -- The merged directives do not change the kind.
  split
  · exact hfinish _ _
  · exact hfinish _ _

/-- The step: a node of the source is asked about if it and the first node of its type are scalars. -/
theorem answers_mergeTypeDefinition (sides : ScalarSides S) {state : MergeState S}
    (h : state.arena.Indexed) (right : TypeDefinition) :
    (mergeTypeDefinition Policy.rightWins sides state right).value.answers =
      match (nodesOf right.name state.arena.toDocument.definitions).head? with
      | some first =>
        if first.kind = .scalar ∧ right.kind = .scalar then
          state.answers.insert right.name (sides.answer right.name)
        else state.answers
      | none => state.answers := by
  rcases foldNodes_cases (S := S) h right.name with
    ⟨habsent, hnodes⟩ | ⟨front, first, later, left, folded, slot, hsplit, hfront, hleft, hname, hnodes⟩
  · rw [nodesOf_eq_nil_of_absent habsent]
    simp [mergeTypeDefinition, hnodes]
  · have hhead : (nodesOf right.name state.arena.toDocument.definitions).head? = some left := by
      rw [hsplit, nodesOf_of_split later hfront hleft hname, List.head?_cons]
    have hanswer := answer_mergeType sides (left.gather later) right
    rw [left.kind_gather] at hanswer
    generalize left.gather later = gathered at hnodes hanswer
    simp only [mergeTypeDefinition, Traced.value_bind, hnodes, hhead]
    by_cases hscalars : left.kind = .scalar ∧ right.kind = .scalar
    · rw [if_pos hscalars] at hanswer ⊢
      simp [hanswer]
    · rw [if_neg hscalars] at hanswer ⊢
      simp [hanswer]

/-- Merging keeps the kind of the first node of a type. -/
theorem head?_nodesOf_mergeInto {name : String} {definitions : List Definition}
    {first : TypeDefinition} (h : (nodesOf name definitions).head? = some first) (right : Definition) :
    ∃ next, (nodesOf name (mergeInto TypeDefinition.override definitions right)).head? = some next ∧
      next.kind = first.kind := by
  by_cases hkey : right.key = ⟨.type, name⟩
  · obtain ⟨node, hnode, rfl⟩ := Definition.exists_typeDefinition? hkey
    rw [mergeInto_of_typeDefinition? hnode]
    rcases nodesOf_mergeTypeInto definitions node with ⟨hnone, -⟩ | ⟨left, later, hnodes, hmerged⟩
    · rw [hnone] at h
      cases h
    · rw [hnodes] at h
      obtain rfl : left = first := Option.some.inj h
      rw [hmerged]
      exact ⟨_, rfl, by simp⟩
  · have huntouched := carrying_mergeInto_of_ne TypeDefinition.name_override hkey definitions
    rw [nodesOf, huntouched]
    exact ⟨first, h, rfl⟩

/-- A definition of the source as it changes the answers: they change under its own name, and only if
it is a scalar and merged into one. -/
theorem get?_answers_mergeDefinition (sides : ScalarSides S) {state : MergeState S}
    (h : state.arena.Indexed) {name : String} {first : TypeDefinition}
    (hfirst : (nodesOf name state.arena.toDocument.definitions).head? = some first)
    (right : Definition) :
    (mergeDefinition Policy.rightWins sides state right).value.answers.get? name =
      if first.kind = .scalar ∧ ∃ node ∈ nodesOf name [right], node.kind = .scalar then
        some (sides.answer name)
      else state.answers.get? name := by
  have hnode : ∀ node, right.typeDefinition? = some node →
      (mergeTypeDefinition Policy.rightWins sides state node).value.answers.get? name =
        if first.kind = .scalar ∧ ∃ node ∈ nodesOf name [right], node.kind = .scalar then
          some (sides.answer name)
        else state.answers.get? name := by
    -- The policy answers under the name of the node, so other names see no difference.
    intro node hsome
    rw [answers_mergeTypeDefinition sides h, nodesOf_singleton hsome]
    by_cases hname : node.name = name
    · subst hname
      rw [hfirst]
      by_cases hscalars : first.kind = .scalar ∧ node.kind = .scalar
      · simp [hscalars, OrderedMap.get?_insert]
      · simp [hscalars]
    · have hother : name ≠ node.name := fun e => hname e.symm
      rw [if_neg hname]
      split
      · split <;> simp [OrderedMap.get?_insert, hother]
      · simp
  cases right with
  | type node => exact hnode node rfl
  | extension node => exact hnode node.toDefinition rfl
  | directive definition =>
    have hnone : nodesOf name [.directive definition] = [] := nodesOf_singleton_of_ne (by simp)
    simp [mergeDefinition, hnone]
  | schema definition =>
    have hnone : nodesOf name [.schema definition] = [] := nodesOf_singleton_of_ne (by simp)
    simp [mergeDefinition, hnone]

/-- The run: the policy has answered about a type that the target carries if the first node of the
target and some node of the source are scalars. -/
theorem get?_answers_foldl (sides : ScalarSides S) {name : String} {first : TypeDefinition}
    (source : List Definition) (state : MergeState S) (h : state.arena.Indexed)
    (hfirst : (nodesOf name state.arena.toDocument.definitions).head? = some first) :
    (source.foldl (fun state right =>
        (mergeDefinition Policy.rightWins sides state right).value) state).answers.get? name =
      if first.kind = .scalar ∧ ∃ node ∈ nodesOf name source, node.kind = .scalar then
        some (sides.answer name)
      else state.answers.get? name := by
  induction source generalizing state first with
  | nil => simp
  | cons right rest ih =>
    obtain ⟨hindexed, hmerged⟩ := mergeDefinition_refines Policy.rightWins sides h right
    have hjoin : (fun left right => (mergeType Policy.rightWins sides left right).value.1) =
        TypeDefinition.override := funext fun left => funext (value_mergeType sides left)
    rw [hjoin] at hmerged
    obtain ⟨next, hnext, hkind⟩ := head?_nodesOf_mergeInto hfirst right
    have hsplit : (∃ node ∈ nodesOf name (right :: rest), node.kind = .scalar) ↔
        (∃ node ∈ nodesOf name [right], node.kind = .scalar) ∨
          ∃ node ∈ nodesOf name rest, node.kind = .scalar := by
      rw [nodesOf_cons right rest]
      simp only [List.mem_append, or_and_right, exists_or]
    rw [List.foldl_cons, ih _ hindexed (hmerged ▸ hnext), hkind,
      get?_answers_mergeDefinition sides h hfirst]
    by_cases hrest : first.kind = .scalar ∧ ∃ node ∈ nodesOf name rest, node.kind = .scalar
    · rw [if_pos hrest, if_pos ⟨hrest.1, hsplit.mpr (.inr hrest.2)⟩]
    · rw [if_neg hrest]
      refine if_congr ?_ rfl rfl
      rw [hsplit, and_or_left, or_iff_left hrest]

/-! ## What becomes of the configs -/

/-- The config that is left where one was carried over.  A degraded answer of no config leaves it as it
is. -/
def ScalarAnswer.settled? (answer? : Option (ScalarAnswer S)) (carried? : Option S) : Option S :=
  match answer? with
  | some answer => answer.config.or (if answer.degraded then carried? else none)
  | none => carried?

/-- An answer settles the config of its own scalar. -/
theorem ScalarAnswer.get?_apply (configs : OrderedMap String S) (scalar other : String)
    (answer : ScalarAnswer S) :
    (answer.apply configs scalar).value.get? other =
      settled? (if other = scalar then some answer else none) (configs.get? other) := by
  obtain ⟨config, degraded⟩ := answer
  unfold apply
  by_cases hother : other = scalar
  · subst hother
    cases config with
    | some config => simp [OrderedMap.get?_insert, settled?]
    | none => cases degraded <;> simp [OrderedMap.get?_erase, settled?]
  · cases config with
    | some config => simp [OrderedMap.get?_insert, settled?, hother]
    | none => cases degraded <;> simp [OrderedMap.get?_erase, settled?, hother]

private theorem get?_foldl_apply {entries : List (String × ScalarAnswer S)}
    (hnodup : (entries.map Prod.fst).Nodup) (configs : OrderedMap String S) (scalar : String) :
    (entries.foldl (fun configs entry => (entry.2.apply configs entry.1).value) configs).get? scalar =
      ScalarAnswer.settled? ((entries.find? fun entry => entry.1 = scalar).map Prod.snd)
        (configs.get? scalar) := by
  induction entries generalizing configs with
  | nil => rfl
  | cons entry rest ih =>
    obtain ⟨hfresh, hrest⟩ := List.nodup_cons.mp hnodup
    rw [List.foldl_cons, ih hrest, ScalarAnswer.get?_apply, List.find?_cons]
    by_cases hname : scalar = entry.1
    · -- The scalar has no further answer in the rest.
      subst hname
      simp [OrderedMap.find?_eq_none_of_fresh hfresh, ScalarAnswer.settled?]
    · have hother : ¬ entry.1 = scalar := fun e => hname e.symm
      simp [hname, hother, ScalarAnswer.settled?]

/-- The merged config of a scalar: none if the merged document does not define it, and otherwise the
policy's answer, or else the right one before the left one. -/
theorem get?_mergeScalars (left right : OrderedMap String S)
    (answers : OrderedMap String (ScalarAnswer S)) (document : Document) (scalar : String) :
    (mergeScalars left right answers document).value.get? scalar =
      if scalar ∈ document.definedScalars then
        ScalarAnswer.settled? (answers.get? scalar) ((right.get? scalar).or (left.get? scalar))
      else none := by
  have hvalue : (mergeScalars left right answers document).value =
      (answers.entries.foldl (fun configs entry => (entry.2.apply configs entry.1).value)
        (left.insertAll right.entries)).filter fun scalar _ =>
          document.definedScalars.contains scalar := by
    simp [mergeScalars, retainScalars]
  have hkept : ∀ config : Option S, config.filter (fun _ => document.definedScalars.contains scalar) =
      if scalar ∈ document.definedScalars then config else none := by
    intro config
    by_cases hdefined : scalar ∈ document.definedScalars <;>
      cases config <;> simp [Option.filter, hdefined]
  rw [hvalue, OrderedMap.get?_filter, hkept, get?_foldl_apply answers.nodup,
    OrderedMap.get?_insertAll_entries]
  rfl

/-- The step: a scalar stays defined. -/
theorem definesScalar_mergeInto {scalar : String} {definitions : List Definition}
    (h : scalar ∈ Document.definedScalars ⟨definitions⟩) (right : Definition) :
    scalar ∈ Document.definedScalars ⟨mergeInto TypeDefinition.override definitions right⟩ := by
  rw [mem_definedScalars] at h ⊢
  obtain ⟨node, hmem, hkind, rfl⟩ := h
  by_cases hkey : right.key = ⟨.type, node.name⟩
  · obtain ⟨piece, hpiece, hname⟩ := Definition.exists_typeDefinition? hkey
    rw [mergeInto_of_typeDefinition? hpiece]
    rcases exists_first ⟨.type, piece.name⟩ definitions with
      habsent | ⟨front, first, later, rfl, hfirst, hfront⟩
    · exact absurd (congrArg (DefinitionKey.mk .type) hname.symm) (habsent _ hmem)
    · obtain ⟨left, hleft, hleftName⟩ := Definition.exists_typeDefinition? hfirst
      rw [mergeTypeInto, atFirst_of_split later hfront hfirst, hleft]
      have hgathered : ∀ scalarNode : TypeDefinition, scalarNode.kind = left.kind →
          scalarNode.kind = .scalar →
          ((left.gather later).override piece).kind = .scalar ∧
            ((left.gather later).override piece).name = node.name := by
        intro scalarNode hsame hscalar
        exact ⟨by rw [TypeDefinition.kind_override, left.kind_gather, ← hsame, hscalar],
          by rw [TypeDefinition.name_override, left.name_gather, hleftName, hname]⟩
      rcases List.mem_append.mp hmem with hbefore | hrest
      · exact ⟨node, List.mem_append_left _ hbefore, hkind, rfl⟩
      · rcases List.mem_cons.mp hrest with rfl | hlater
        · obtain rfl : node = left := Option.some.inj hleft
          obtain ⟨hscalar, hsame⟩ := hgathered node rfl hkind
          exact ⟨_, List.mem_append_right _ List.mem_cons_self, hscalar, hsame⟩
        · -- A later definition is gathered with the first node if that one is a scalar, too.
          by_cases hscalars : node.kind = left.kind
          · obtain ⟨hscalar, hsame⟩ := hgathered node hscalars hkind
            exact ⟨_, List.mem_append_right _ List.mem_cons_self, hscalar, hsame⟩
          · have hstays : (left.piece? (.type node)).isNone := by
              simp [TypeDefinition.piece?, Definition.typeDefinition?, Option.filter, hscalars]
            exact ⟨node, List.mem_append_right _ (List.mem_cons_of_mem _
              (List.mem_filter.mpr ⟨hlater, hstays⟩)), hkind, rfl⟩
  · have huntouched := carrying_mergeInto_of_ne TypeDefinition.name_override hkey definitions
    have hcarried : .type node ∈ carrying ⟨.type, node.name⟩ definitions :=
      mem_carrying.mpr ⟨hmem, rfl⟩
    rw [← huntouched] at hcarried
    exact ⟨node, (mem_carrying.mp hcarried).1, hkind, rfl⟩

/-- The run: the scalars of the target are scalars of the merged document. -/
theorem definesScalar_foldl_mergeInto {scalar : String} {definitions : List Definition}
    (h : scalar ∈ Document.definedScalars ⟨definitions⟩) (source : List Definition) :
    scalar ∈ Document.definedScalars
      ⟨source.foldl (mergeInto TypeDefinition.override) definitions⟩ := by
  induction source generalizing definitions with
  | nil => exact h
  | cons right rest ih => exact ih (definesScalar_mergeInto h right)

/-- A question about a scalar shows the configs that stand under its name in two maps. -/
def Question.Shows (left right : OrderedMap String S) : Question S → Prop
  | .scalar _ leftConfig node rightConfig =>
    leftConfig = left.get? node.name ∧ rightConfig = right.get? node.name
  | _ => True

instance [DecidableEq S] (left right : OrderedMap String S) (question : Question S) :
    Decidable (question.Shows left right) :=
  match question with
  | .scalar _ _ _ _ => inferInstanceAs (Decidable (_ ∧ _))
  | .directive _ _ _ _ | .field _ _ _ _ | .enumValue _ _ _ _ | .unionMember _ _ _ _ =>
    isTrue trivial

/-- The configs of a bundle that the policy is shown if the bundle is the source of a merge: all of
them, or none if its document spreads some type. -/
def Bundle.shownScalars (bundle : Bundle R S) : OrderedMap String S :=
  if bundle.document.WritesTypesOnce then bundle.scalars else ∅

/-- The first node of a type is a scalar. -/
def Document.StartsScalar (document : Document) (name : String) : Prop :=
  (nodesOf name document.definitions).head?.map TypeDefinition.kind = some .scalar

instance (document : Document) (name : String) : Decidable (document.StartsScalar name) :=
  inferInstanceAs (Decidable (_ = _))

/-- What a merge does about scalar configs. -/
structure SettlesScalars (target source : Bundle R S) (merged : Bundle R S) : Prop where
  /-- The source's config wins if it was shown, or if the policy was not asked. -/
  rightFirst : ∀ scalar ∈ target.document.definedScalars, scalar ∈ source.document.definedScalars →
    source.document.WritesTypesOnce ∨ ¬ target.document.StartsScalar scalar →
    merged.scalars.get? scalar = (source.scalars.get? scalar).or (target.scalars.get? scalar)
  /-- Otherwise the target's does. -/
  leftFirst : ∀ scalar ∈ target.document.definedScalars, scalar ∈ source.document.definedScalars →
    ¬ source.document.WritesTypesOnce → target.document.StartsScalar scalar →
    merged.scalars.get? scalar = (target.scalars.get? scalar).or (source.scalars.get? scalar)

theorem shows_mergeBundles (policy : Policy S) {target source : Bundle R S}
    (htarget : Registry.Buildable target.document target.scalars)
    (hsource : Registry.Buildable source.document source.scalars) :
    All (Question.Shows target.scalars source.shownScalars) (mergeBundles policy target source) := by
  intro question hquestion
  have hshown := all_mergeBundles policy target source question hquestion
  cases question with
  | scalar left leftConfig right rightConfig =>
    obtain ⟨hleftConfig, hrightConfig⟩ := hshown
    refine ⟨hleftConfig.trans (visible?_target source htarget _), ?_⟩
    rw [hrightConfig, visible?_source target hsource, Bundle.shownScalars]
    split <;> rfl
  | directive => trivial
  | field => trivial
  | enumValue => trivial
  | unionMember => trivial

/-- The merged configs come from those of both sides, the answers of the whole run and the merged
document. -/
theorem scalars_mergeBundles (policy : Policy S) (target source : Bundle R S) :
    let merged := (mergeBundles policy target source).value
    merged.scalars = (mergeScalars target.scalars source.scalars
      (mergeRun policy target source source.document.normalize.value.definitions).value.answers
      merged.document).value := by
  simp only [mergeBundles, Traced.value_bind, Traced.value_pure, Asking.value_liftM]
  rfl

/-- The config that a merge gives to a scalar of both sides. -/
theorem get?_scalars_mergeBundles {target source : Bundle R S} {scalar : String}
    (htarget : scalar ∈ target.document.definedScalars)
    (hsource : scalar ∈ source.document.definedScalars) :
    (mergeBundles Policy.rightWins target source).value.scalars.get? scalar =
      ScalarAnswer.settled?
        (if target.document.StartsScalar scalar then some ((scalarSides target source).answer scalar)
          else none)
        ((source.scalars.get? scalar).or (target.scalars.get? scalar)) := by
  let sides := scalarSides target source
  let final := source.document.definitions.foldl
    (fun state right => (mergeDefinition Policy.rightWins sides state right).value)
    ⟨.ofDocument target.document, ∅⟩
  let merged := (mergeBundles Policy.rightWins target source).value
  have hfinal : (mergeRun Policy.rightWins target source
      source.document.normalize.value.definitions).value = final := by
    rw [mergeRun, Traced.value_foldlM, Document.definitions_value_normalize, List.foldl_map]
    -- A definition and its normalized form are merged alike.
    congr 1
    funext state right
    cases right <;> rfl
  have hdefined : scalar ∈ merged.document.definedScalars := by
    have hrun := definesScalar_foldl_mergeInto htarget source.document.definitions
    rwa [← definitions_mergeBundles_rightWins] at hrun
  obtain ⟨node, hnode, hkind, hname⟩ := mem_definedScalars.mp htarget
  obtain ⟨piece, hpiece, hpieceKind, hpieceName⟩ := mem_definedScalars.mp hsource
  have hcarried : nodesOf scalar target.document.definitions ≠ [] :=
    List.ne_nil_of_mem (mem_nodesOf.mpr ⟨_, hnode, rfl, hname⟩)
  obtain ⟨first, later, hfirst⟩ := List.exists_cons_of_ne_nil hcarried
  have hasked : ∃ node ∈ nodesOf scalar source.document.definitions, node.kind = .scalar :=
    ⟨piece, mem_nodesOf.mpr ⟨_, hpiece, rfl, hpieceName⟩, hpieceKind⟩
  have hhead : (nodesOf scalar target.document.definitions).head? = some first := by
    rw [hfirst, List.head?_cons]
  have hanswers : final.answers.get? scalar =
      if target.document.StartsScalar scalar then some (sides.answer scalar) else none := by
    rw [get?_answers_foldl sides _ _ (Arena.indexed_ofDocument target.document)
      (by rw [Arena.toDocument_ofDocument]; exact hhead)]
    refine if_congr ?_ rfl rfl
    rw [Document.StartsScalar, hhead, Option.map_some, Option.some_inj]
    exact and_iff_left hasked
  rw [scalars_mergeBundles, hfinal, get?_mergeScalars, if_pos hdefined, hanswers]

theorem settlesScalars_mergeBundles {target source : Bundle R S}
    (htarget : Registry.Buildable target.document target.scalars)
    (hsource : Registry.Buildable source.document source.scalars) :
    SettlesScalars target source (mergeBundles Policy.rightWins target source).value := by
  have hanswer : ∀ scalar, (scalarSides target source).answer scalar =
      ⟨(source.shownScalars.get? scalar).or (target.scalars.get? scalar),
        !decide source.document.WritesTypesOnce⟩ := by
    intro scalar
    rw [ScalarSides.answer, visible?_target source htarget, visible?_source target hsource,
      degraded_scalarSides htarget hsource, Bundle.shownScalars]
    split <;> rfl
  refine ⟨?_, ?_⟩
  · intro scalar hleft hright hcase
    rw [get?_scalars_mergeBundles hleft hright]
    by_cases hstarts : target.document.StartsScalar scalar
    · have honce := hcase.resolve_right (not_not_intro hstarts)
      rw [if_pos hstarts, hanswer, Bundle.shownScalars, if_pos honce]
      simp [ScalarAnswer.settled?, honce]
    · rw [if_neg hstarts]
      rfl
  · intro scalar hleft hright hspread hstarts
    -- The policy sees the target's config only, and what it leaves open is carried over.
    have hempty : (∅ : OrderedMap String S).get? scalar = none := rfl
    rw [get?_scalars_mergeBundles hleft hright, if_pos hstarts, hanswer, Bundle.shownScalars,
      if_neg hspread, hempty]
    cases target.scalars.get? scalar <;> simp [ScalarAnswer.settled?, hspread]

/-- A policy is shown the configs of a target and a source that have registries: the target's always,
and the source's unless it spreads a type.  The policy that the source wins then gives a scalar of
both sides the source's config, unless it was asked about the scalar without being shown it. -/
theorem merge_showsScalarConfigs {target source : Source R S} {left right : Document}
    {leftRegistry rightRegistry : Registry S}
    (hleft : (target.toDocument .merge .target).value = .ok left)
    (hright : (source.toDocument .merge .source).value = .ok right)
    (hleftRegistry : Registry.build left target.scalars = .ok leftRegistry)
    (hrightRegistry : Registry.build right source.scalars = .ok rightRegistry) :
    (∀ policy : Policy S, (∃ merged : Bundle R S,
        (merge policy target source).value = .ok merged) ∧
      ∀ question ∈ (merge policy target source).questions,
        question.Shows target.scalars
          (Bundle.shownScalars ⟨right, source.resolvers, source.scalars⟩)) ∧
    ∃ merged : Bundle R S, (merge Policy.rightWins target source).value = .ok merged ∧
      SettlesScalars ⟨left, target.resolvers, target.scalars⟩
        ⟨right, source.resolvers, source.scalars⟩ merged := by
  have htargetRegistry := Registry.buildable_of_build hleftRegistry
  have hsourceRegistry := Registry.buildable_of_build hrightRegistry
  have htargetBundle : (target.toBundle .merge .target).value =
      .ok ⟨left, target.resolvers, target.scalars⟩ := by
    simp [Source.toBundle, hleft]
  have hsourceBundle : (source.toBundle .merge .source).value =
      .ok ⟨right, source.resolvers, source.scalars⟩ := by
    simp [Source.toBundle, hright]
  refine ⟨fun policy => ⟨⟨_, value_merge policy hleft hright⟩, ?_⟩,
    _, value_merge Policy.rightWins hleft hright,
    settlesScalars_mergeBundles htargetRegistry hsourceRegistry⟩
  show All _ (merge policy target source)
  refine (all_ofNoted _).bind ?_
  rw [Asking.value_liftM, htargetBundle]
  refine (all_ofNoted _).bind ?_
  rw [Asking.value_liftM, hsourceBundle]
  exact (shows_mergeBundles policy htargetRegistry hsourceRegistry).bind (all_pure _)

/-- A scalar with a config on both sides. -/
theorem merge_scalarOfBoth_showsConfigs :
    (∀ policy : Policy Nat, (∃ merged : Bundle Unit Nat, (merge policy
        (.bundle ⟨⟨[.type ⟨none, "Date", [], .scalar⟩]⟩, ∅, .ofList [("Date", 1)]⟩)
        (.bundle ⟨⟨[.type ⟨none, "Date", [], .scalar⟩]⟩, ∅, .ofList [("Date", 2)]⟩)).value =
          .ok merged) ∧
      ∀ question ∈ (merge policy
          (.bundle (⟨⟨[.type ⟨none, "Date", [], .scalar⟩]⟩, ∅, .ofList [("Date", 1)]⟩ :
            Bundle Unit Nat))
          (.bundle ⟨⟨[.type ⟨none, "Date", [], .scalar⟩]⟩, ∅, .ofList [("Date", 2)]⟩)).questions,
        question.Shows (.ofList [("Date", 1)]) (Bundle.shownScalars
          (⟨⟨[.type ⟨none, "Date", [], .scalar⟩]⟩, ∅, .ofList [("Date", 2)]⟩ : Bundle Unit Nat))) ∧
    ∃ merged : Bundle Unit Nat, (merge Policy.rightWins
        (.bundle ⟨⟨[.type ⟨none, "Date", [], .scalar⟩]⟩, ∅, .ofList [("Date", 1)]⟩)
        (.bundle ⟨⟨[.type ⟨none, "Date", [], .scalar⟩]⟩, ∅, .ofList [("Date", 2)]⟩)).value =
          .ok merged ∧
      SettlesScalars ⟨⟨[.type ⟨none, "Date", [], .scalar⟩]⟩, ∅, .ofList [("Date", 1)]⟩
        ⟨⟨[.type ⟨none, "Date", [], .scalar⟩]⟩, ∅, .ofList [("Date", 2)]⟩ merged :=
  merge_showsScalarConfigs (by decide +kernel) (by decide +kernel)
    (Registry.Buildable.build ⟨by decide +kernel, by decide +kernel, by decide +kernel⟩)
    (Registry.Buildable.build ⟨by decide +kernel, by decide +kernel, by decide +kernel⟩)

/-- A source that spreads another type over a definition and an extension has a registry and a config
for a scalar of both sides; still, the policy is not shown that config, and the target's is kept. -/
theorem merge_spreadSource_losesConfig :
    let target : Bundle Unit Nat :=
      ⟨⟨[.type ⟨none, "Date", [], .scalar⟩]⟩, ∅, .ofList [("Date", 1)]⟩
    let source : Bundle Unit Nat :=
      ⟨⟨[.type ⟨none, "Date", [], .scalar⟩,
        .type ⟨none, "A", [], .object [] [⟨none, "x", [], .named "Int", []⟩]⟩,
        .extension ⟨"A", [], .object [] [⟨none, "y", [], .named "Int", []⟩]⟩]⟩, ∅,
        .ofList [("Date", 2)]⟩
    target.registry.toBool ∧ source.registry.toBool ∧
      (∃ question ∈ (merge Policy.rightWins (.bundle target) (.bundle source)).questions,
        ¬ question.Shows target.scalars source.scalars) ∧
      ∃ merged : Bundle Unit Nat,
        (merge Policy.rightWins (.bundle target) (.bundle source)).value = .ok merged ∧
          merged.scalars.get? "Date" = some 1 := by
  intro target source
  have htarget : target.Readable := by decide +kernel
  have hsource : source.Readable := by decide +kernel
  refine ⟨by decide +kernel, by decide +kernel, by decide +kernel,
    _, value_merge Policy.rightWins (htarget.toDocument _ _) (hsource.toDocument _ _), ?_⟩
  decide +kernel

end SchemaAlgebra
