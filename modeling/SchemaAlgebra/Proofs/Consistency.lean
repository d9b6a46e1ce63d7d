import SchemaAlgebra.Proofs.MergedDocument
import SchemaAlgebra.Proofs.ParedDocument

/-!
# Bundles stay consistent

A bundle is `Consistent` if its four parts are in step: no definition repeats a name within one of
its collections, every resolver belongs to something that the document declares, and every config to
a scalar that it defines.

Merging and paring keep bundles consistent.  Resolvers are in step because both operations end by
cutting the map down to the final document, whatever it was before.  So are the configs after a
merge; a pare takes configs away one by one, and there `PareSummary.Consistent` is the invariant.

## Main statements

* `merge_consistent`, `pare_consistent`: one operation.
* `run_consistent`: any number of operations, one after the other.
-/

namespace SchemaAlgebra

variable {R S : Type}

/-! ## Distinct names -/

/-- A definition repeats no name within its directives, nor within its members. -/
def Definition.NamesDistinct : Definition → Prop
  | .schema definition => (namesOf definition.directives).Nodup
  | .type definition => definition.NamesDistinct
  | .extension node => node.toDefinition.NamesDistinct
  | .directive _ => True

instance (definition : Definition) : Decidable definition.NamesDistinct :=
  match definition with
  | .schema definition => inferInstanceAs (Decidable (namesOf definition.directives).Nodup)
  | .type definition => inferInstanceAs (Decidable definition.NamesDistinct)
  | .extension node => inferInstanceAs (Decidable node.toDefinition.NamesDistinct)
  | .directive _ => isTrue trivial

theorem Definition.namesDistinct_iff {definition : Definition} {node : TypeDefinition}
    (h : definition.typeDefinition? = some node) :
    definition.NamesDistinct ↔ node.NamesDistinct := by
  rcases eq_of_typeDefinition? h with rfl | ⟨extension, rfl, rfl⟩
  · rfl
  · rfl

/-- No definition of a list repeats a name. -/
def AllDistinct (definitions : List Definition) : Prop :=
  ∀ definition ∈ definitions, definition.NamesDistinct

instance (definitions : List Definition) : Decidable (AllDistinct definitions) :=
  inferInstanceAs (Decidable (∀ definition ∈ definitions, definition.NamesDistinct))

theorem allDistinct_append {front back : List Definition} :
    AllDistinct (front ++ back) ↔ AllDistinct front ∧ AllDistinct back :=
  List.forall_mem_append

theorem allDistinct_cons {definition : Definition} {rest : List Definition} :
    AllDistinct (definition :: rest) ↔ definition.NamesDistinct ∧ AllDistinct rest :=
  List.forall_mem_cons

theorem allDistinct_singleton {definition : Definition} :
    AllDistinct [definition] ↔ definition.NamesDistinct :=
  List.forall_mem_singleton

/-- Nodes that are put together repeat no name if the nodes repeat none. -/
theorem carriesOver_namesDistinct :
    CarriesOver Definition.NamesDistinct TypeDefinition.override where
  node hnode hdistinct := (Definition.namesDistinct_iff hnode).mp hdistinct
  absorb hinto _ := TypeDefinition.NamesDistinct.absorb hinto _
  join hleft _ := TypeDefinition.NamesDistinct.override hleft _
  schema hleft _ := nodup_settleAll keepsName_last _ hleft

/-! ## Pared definitions and configs -/

/-- What is left of a node repeats no name if the node repeats none. -/
theorem TypeDefinition.NamesDistinct.pared {left right pared : TypeDefinition}
    (h : left.NamesDistinct) (hpared : left.pared? right = some pared) : pared.NamesDistinct := by
  obtain ⟨-, rfl⟩ := TypeDefinition.eq_of_pared? hpared
  refine ⟨h.1, ?_⟩
  show (left.body.without _).memberNames.Nodup
  rw [TypeBody.memberNames_without]
  exact h.2.filter _

theorem TypeDefinition.NamesDistinct.ofType {node : TypeDefinition} (h : node.NamesDistinct)
    (asExtension : Bool) : (Definition.ofType asExtension node).NamesDistinct := by
  cases asExtension with
  | false => exact h
  | true => exact h

theorem Definition.NamesDistinct.paredBy {definition pared : Definition} {right : TypeDefinition}
    (h : definition.NamesDistinct) (hpared : Definition.paredBy? right definition = some pared) :
    pared.NamesDistinct := by
  unfold Definition.paredBy? at hpared
  split at hpared
  · unfold Definition.pared? at hpared
    split at hpared
    · next left hleft =>
      obtain ⟨node, hnode, rfl⟩ := Option.map_eq_some_iff.mp hpared
      exact (((namesDistinct_iff hleft).mp h).pared hnode).ofType _
    · exact Option.some.inj hpared ▸ h
  · exact Option.some.inj hpared ▸ h

/-- The scalars of a list of definitions are those that some definition in it defines. -/
theorem mem_definedScalars {definitions : List Definition} {scalar : String} :
    scalar ∈ Document.definedScalars ⟨definitions⟩ ↔
      ∃ node : TypeDefinition, .type node ∈ definitions ∧ node.kind = .scalar ∧
        node.name = scalar := by
  simp only [Document.definedScalars, Document.typeDefinitions, List.mem_map, List.mem_filter,
    List.mem_filterMap, decide_eq_true_eq]
  constructor
  · rintro ⟨node, ⟨⟨definition, hmem, hsome⟩, hkind⟩, hname⟩
    cases definition with
    | type definition =>
      obtain rfl : definition = node := Option.some.inj hsome
      exact ⟨definition, hmem, hkind, hname⟩
    | extension extension => cases hsome
    | schema definition => cases hsome
    | directive definition => cases hsome
  · rintro ⟨node, hmem, hkind, hname⟩
    exact ⟨node, ⟨⟨.type node, hmem, rfl⟩, hkind⟩, hname⟩

/-- What a pare keeps in step on the way: names, and configs with scalars. -/
structure PareSummary.Consistent (state : PareSummary S) : Prop where
  namesDistinct : AllDistinct state.definitions
  scalars : ∀ scalar ∈ state.scalars.keys,
    scalar ∈ Document.definedScalars ⟨state.definitions⟩

/-- A config that is still there after its scalar's nodes were dropped belongs to another scalar. -/
theorem PareSummary.mem_keys_foldl_dropScalar {right : TypeDefinition} {scalar : String}
    {nodes : List TypeDefinition} {scalars : OrderedMap String S}
    (h : scalar ∈ (nodes.foldl (dropScalar right) scalars).keys) :
    scalar ∈ scalars.keys ∧ (scalar = right.name → ∀ node ∈ nodes, node.kind ≠ .scalar) := by
  induction nodes generalizing scalars with
  | nil => exact ⟨h, fun _ _ hmem => absurd hmem List.not_mem_nil⟩
  | cons first rest ih =>
    obtain ⟨hmem, hrest⟩ := ih h
    by_cases hfirst : first.kind = .scalar
    · rw [dropScalar, if_pos hfirst, OrderedMap.keys_erase, List.mem_filter] at hmem
      have hother : scalar ≠ right.name := by simpa using hmem.2
      exact ⟨hmem.1, fun e => absurd e hother⟩
    · rw [dropScalar, if_neg hfirst] at hmem
      exact ⟨hmem, fun e => List.forall_mem_cons.mpr ⟨hfirst, hrest e⟩⟩

namespace PareSummary.Consistent

variable {state : PareSummary S}

/-- Adding a definition keeps a summary consistent. -/
theorem add (h : state.Consistent) {added : Definition} (hadded : added.NamesDistinct) :
    PareSummary.Consistent { state with definitions := state.definitions ++ [added] } := by
  refine ⟨allDistinct_append.mpr ⟨h.namesDistinct, ?_⟩, ?_⟩
  · exact allDistinct_singleton.mpr hadded
  · intro scalar hscalar
    obtain ⟨node, hmem, hnode⟩ := mem_definedScalars.mp (h.scalars scalar hscalar)
    exact mem_definedScalars.mpr ⟨node, List.mem_append_left _ hmem, hnode⟩

theorem pareType (h : state.Consistent) {right : TypeDefinition} (hright : right.NamesDistinct) :
    (state.pareType right).Consistent := by
  unfold PareSummary.pareType
  dsimp only
  split
  · exact h.add hright
  · refine ⟨?_, ?_⟩
    · intro definition hmem
      obtain ⟨origin, horigin, hpared⟩ := List.mem_filterMap.mp hmem
      exact (h.namesDistinct origin horigin).paredBy hpared
    · intro scalar hscalar
      obtain ⟨hbefore, hother⟩ := mem_keys_foldl_dropScalar hscalar
      obtain ⟨node, hmem, hkind, hname⟩ := mem_definedScalars.mp (h.scalars scalar hbefore)
      refine mem_definedScalars.mpr ⟨node, ?_, hkind, hname⟩
      -- The scalar's own definition is not pared: it would be dropped together with the config.
      have hne : (Definition.type node).key ≠ ⟨.type, right.name⟩ := by
        intro hkey
        have hsame : node.name = right.name := congrArg DefinitionKey.name hkey
        have hnode : node ∈ nodesOf right.name state.definitions :=
          mem_nodesOf.mpr ⟨.type node, hmem, rfl, hsame⟩
        exact hother (hname.symm.trans hsame) node hnode hkind
      exact List.mem_filterMap.mpr ⟨.type node, hmem, if_neg hne⟩

/-- The step: paring a definition without repeated names. -/
theorem pare (h : state.Consistent) {right : Definition} (hright : right.NamesDistinct) :
    (state.pare right).Consistent := by
  cases right with
  | type right => exact h.pareType hright
  | extension node => exact h.pareType hright
  | directive right =>
    unfold PareSummary.pare
    dsimp only
    split
    · exact h
    · exact h.add trivial
  | schema right => exact h

/-- The run: paring a source without repeated names. -/
theorem foldl_pare (h : state.Consistent) {source : List Definition} (hsource : AllDistinct source) :
    (source.foldl PareSummary.pare state).Consistent := by
  induction source generalizing state with
  | nil => exact h
  | cons right rest ih =>
    obtain ⟨hright, hrest⟩ := allDistinct_cons.mp hsource
    exact ih (h.pare hright) hrest

end PareSummary.Consistent

/-! ## Resolvers and configs in step with a document -/

/-- The resolvers of an entry belong to something that a document declares.  A type entry has fields,
and they are declared on the type or are about it as a whole; a root field is declared on a root
type. -/
def ResolverEntry.InStep (document : Document) (key : String) : ResolverEntry R → Prop
  | .type fields => fields.keys ≠ [] ∧ nodesOf key document.definitions ≠ [] ∧
      ∀ field ∈ fields.keys, document.declares key field ∨ ResolverMap.isMeta field
  | .rootField _ => document.declaresOnRoot key

instance (document : Document) (key : String) (entry : ResolverEntry R) :
    Decidable (entry.InStep document key) :=
  match entry with
  | .type fields => inferInstanceAs (Decidable (fields.keys ≠ [] ∧ _ ∧ ∀ _ ∈ fields.keys, _))
  | .rootField _ => inferInstanceAs (Decidable (document.declaresOnRoot key = true))

/-- All entries of a map are in step with a document. -/
def ResolverMap.InStep (map : ResolverMap R) (document : Document) : Prop :=
  ∀ item ∈ map.entries.entries, item.2.InStep document item.1

instance (map : ResolverMap R) (document : Document) : Decidable (map.InStep document) :=
  inferInstanceAs (Decidable (∀ item ∈ map.entries.entries, item.2.InStep document item.1))

/-- A type that has members, or an empty list of them, is carried by the document. -/
theorem Document.nodesOf_ne_nil_of_membersOf? {document : Document} {type : String}
    {members : List String} (h : document.membersOf? type = some members) :
    nodesOf type document.definitions ≠ [] := by
  unfold membersOf? at h
  dsimp only at h
  split at h
  · cases h
  · next hsome =>
    intro hnone
    apply hsome
    rw [List.isEmpty_iff, List.filter_eq_nil_iff]
    intro definition hmem hname
    refine nodesOf_eq_nil_iff.mp hnone definition hmem ?_
    cases definition with
    | type definition => simp [Definition.typeName?] at hname; simp [hname]
    | extension node => simp [Definition.typeName?] at hname; simp [hname]
    | schema definition => simp [Definition.typeName?] at hname
    | directive definition => simp [Definition.typeName?] at hname

/-- Whatever an entry holds, what is retained of it is in step with the document. -/
theorem ResolverMap.inStep_of_retainEntry {document : Document} {key : String}
    {entry kept : ResolverEntry R} (h : retainEntry document key entry = some kept) :
    kept.InStep document key := by
  cases entry with
  | rootField resolver =>
    rw [retainEntry] at h
    split at h
    · next hdeclared => exact Option.some.inj h ▸ hdeclared
    · cases h
  | type fields =>
    obtain ⟨members, hmembers, hkept⟩ := Option.bind_eq_some_iff.mp h
    dsimp only at hkept
    split at hkept
    · cases hkept
    · next hsome =>
      obtain rfl := Option.some.inj hkept
      -- An entry that would lose all of its fields is not kept.
      refine ⟨?_, Document.nodesOf_ne_nil_of_membersOf? hmembers, ?_⟩
      · intro hnone
        apply hsome
        rw [OrderedMap.isEmpty, List.isEmpty_iff]
        exact List.map_eq_nil_iff.mp hnone
      · intro field hfield
        obtain ⟨⟨name, resolver⟩, hmem, rfl⟩ := List.mem_map.mp hfield
        have hkeeps : keepsField members name = true := (List.mem_filter.mp hmem).2
        rcases (Bool.or_eq_true _ _).mp hkeeps with hmeta | hdeclared
        · exact .inr hmeta
        · refine .inl ?_
          rw [Document.declares, hmembers]
          exact hdeclared

/-- Whatever a map holds, what is retained of it is in step with the document. -/
theorem ResolverMap.retainPresent_inStep (map : ResolverMap R) (document : Document) :
    (map.retainPresent document).value.1.InStep document := by
  have hentries : (map.retainPresent document).value.1.entries =
      map.entries.filterMap (retainEntry document) := by
    simp [retainPresent]
  intro item hitem
  rw [hentries] at hitem
  obtain ⟨⟨key, entry⟩, -, hsome⟩ := List.mem_filterMap.mp hitem
  obtain ⟨kept, hkept, rfl⟩ := Option.map_eq_some_iff.mp hsome
  exact inStep_of_retainEntry hkept

theorem mem_keys_retainScalars {document : Document} {configs : OrderedMap String S}
    {scalar : String} (h : scalar ∈ (retainScalars document configs).value.keys) :
    scalar ∈ document.definedScalars := by
  have hvalue : (retainScalars document configs).value =
      configs.filter fun scalar _ => document.definedScalars.contains scalar := by
    simp [retainScalars]
  rw [hvalue] at h
  obtain ⟨⟨name, config⟩, hmem, rfl⟩ := List.mem_map.mp h
  simpa using (List.mem_filter.mp hmem).2

/-! ## Operations -/

/-- The parts of a bundle are in step, and no definition repeats a name. -/
structure Bundle.Consistent (bundle : Bundle R S) : Prop where
  namesDistinct : AllDistinct bundle.document.definitions
  resolvers : bundle.resolvers.InStep bundle.document
  scalars : ∀ scalar ∈ bundle.scalars.keys, scalar ∈ bundle.document.definedScalars

instance (bundle : Bundle R S) : Decidable bundle.Consistent :=
  decidable_of_iff (AllDistinct bundle.document.definitions ∧
      bundle.resolvers.InStep bundle.document ∧
      ∀ scalar ∈ bundle.scalars.keys, scalar ∈ bundle.document.definedScalars)
    ⟨fun ⟨namesDistinct, resolvers, scalars⟩ => ⟨namesDistinct, resolvers, scalars⟩,
      fun ⟨namesDistinct, resolvers, scalars⟩ => ⟨namesDistinct, resolvers, scalars⟩⟩

/-- A merge ends by cutting resolvers and configs down to the merged document. -/
theorem mergeBundles_retains (policy : Policy S) (target source : Bundle R S) :
    let merged := (mergeBundles policy target source).value
    merged.resolvers = ((target.resolvers.merge source.resolvers).retainPresent
        merged.document).value.1 ∧
      ∃ settled, merged.scalars = (retainScalars merged.document settled).value := by
  simp only [mergeBundles, mergeScalars, Traced.value_bind, Traced.value_pure]
  exact ⟨rfl, _, rfl⟩

theorem mergeBundles_consistent {target source : Bundle R S} (htarget : target.Consistent)
    (hsource : source.Consistent) :
    (mergeBundles Policy.rightWins target source).value.Consistent := by
  obtain ⟨hresolvers, settled, hscalars⟩ := mergeBundles_retains Policy.rightWins target source
  refine ⟨?_, ?_, ?_⟩
  · rw [definitions_mergeBundles_rightWins]
    exact carriesOver_namesDistinct.foldl_mergeInto htarget.namesDistinct hsource.namesDistinct
  · rw [hresolvers]
    exact ResolverMap.retainPresent_inStep _ _
  · intro scalar hscalar
    rw [hscalars] at hscalar
    exact mem_keys_retainScalars hscalar

theorem pareBundles_consistent {target source : Bundle R S} (htarget : target.Consistent)
    (hsource : source.Consistent) : (pareBundles target source).value.Consistent := by
  have hstart : PareSummary.Consistent
      (⟨target.document.definitions, [], target.scalars⟩ : PareSummary S) :=
    ⟨htarget.namesDistinct, htarget.scalars⟩
  have hsummary : (paredSummary target source).Consistent := hstart.foldl_pare hsource.namesDistinct
  rw [value_pareBundles]
  exact ⟨hsummary.namesDistinct, ResolverMap.retainPresent_inStep _ _, hsummary.scalars⟩

/-! ## Runs -/

namespace Bundle

/-- The document of a bundle is what is read from its text. -/
def Readable (bundle : Bundle R S) : Prop := Document.parse bundle.print = .ok bundle.document

instance (bundle : Bundle R S) : Decidable bundle.Readable :=
  inferInstanceAs (Decidable (_ = _))

theorem Readable.toDocument {bundle : Bundle R S} (h : bundle.Readable) (operation : Operation)
    (side : Side) : ((Source.bundle bundle).toDocument operation side).value = .ok bundle.document := by
  have hread : Document.parse bundle.print = .ok bundle.document := h
  simp [Source.toDocument, Source.toText, hread]

/-- An operation on the current bundle, which stands on one side of it, and another bundle. -/
structure Step (R S : Type) where
  operation : Operation
  side : Side
  other : Bundle R S

/-- The target of a step. -/
def Step.target (step : Step R S) (current : Bundle R S) : Bundle R S :=
  match step.side with
  | .target => current
  | .source => step.other

/-- The source of a step. -/
def Step.source (step : Step R S) (current : Bundle R S) : Bundle R S :=
  match step.side with
  | .target => step.other
  | .source => current

/-- Performs a step.  A merge is one under the policy that the source wins. -/
def Step.apply (step : Step R S) (current : Bundle R S) : Except SourceError (Bundle R S) :=
  match step.operation with
  | .merge => (merge Policy.rightWins (.bundle (step.target current))
      (.bundle (step.source current))).value
  | .pare => (pare (.bundle (step.target current)) (.bundle (step.source current))).value

/-- The bundles that steps produce, one after the other. -/
def run (current : Bundle R S) : List (Step R S) → Except SourceError (List (Bundle R S))
  | [] => .ok []
  | step :: rest =>
    match step.apply current with
    | .error cause => .error cause
    | .ok next => (run next rest).map (next :: ·)

/-- The bundles that are handed to the steps of a run. -/
def handedOver (current : Bundle R S) : List (Step R S) → List (Bundle R S)
  | [] => []
  | step :: rest =>
    current :: step.other ::
      match step.apply current with
      | .error _ => []
      | .ok next => handedOver next rest

/-- A step on readable and consistent bundles succeeds and gives a consistent one. -/
theorem Step.apply_consistent {step : Step R S} {current : Bundle R S}
    (hcurrent : current.Consistent) (hother : step.other.Consistent)
    (hcurrentText : current.Readable) (hotherText : step.other.Readable) :
    ∃ next, step.apply current = .ok next ∧ next.Consistent := by
  obtain ⟨operation, side, other⟩ := step
  -- The current bundle may stand on either side, so both operations are settled for any two bundles.
  have hboth : ∀ target source : Bundle R S, target.Consistent → source.Consistent →
      target.Readable → source.Readable →
      (∃ merged, (merge Policy.rightWins (.bundle target) (.bundle source)).value = .ok merged ∧
        merged.Consistent) ∧
      ∃ pared, (pare (.bundle target) (.bundle source)).value = .ok pared ∧ pared.Consistent := by
    intro target source htarget hsource htargetText hsourceText
    exact ⟨⟨_, value_merge _ (htargetText.toDocument _ _) (hsourceText.toDocument _ _),
        mergeBundles_consistent htarget hsource⟩,
      ⟨_, value_pare (htargetText.toDocument _ _) (hsourceText.toDocument _ _),
        pareBundles_consistent htarget hsource⟩⟩
  cases side with
  | target =>
    obtain ⟨hmerge, hpare⟩ := hboth current other hcurrent hother hcurrentText hotherText
    cases operation with
    | merge => exact hmerge
    | pare => exact hpare
  | source =>
    obtain ⟨hmerge, hpare⟩ := hboth other current hother hcurrent hotherText hcurrentText
    cases operation with
    | merge => exact hmerge
    | pare => exact hpare

/-- Every bundle that a run produces is consistent, if it starts from a consistent one and brings in
consistent ones only. -/
theorem run_consistent {start : Bundle R S} {steps : List (Step R S)} (hstart : start.Consistent)
    (hothers : ∀ step ∈ steps, step.other.Consistent)
    (hreadable : ∀ bundle ∈ handedOver start steps, bundle.Readable) :
    ∃ produced, run start steps = .ok produced ∧ produced.length = steps.length ∧
      ∀ bundle ∈ produced, bundle.Consistent := by
  induction steps generalizing start with
  | nil => exact ⟨[], rfl, rfl, fun _ hmem => absurd hmem List.not_mem_nil⟩
  | cons step rest ih =>
    obtain ⟨hother, hlater⟩ := List.forall_mem_cons.mp hothers
    obtain ⟨hstartText, hothersText⟩ := List.forall_mem_cons.mp hreadable
    obtain ⟨hotherText, hrestText⟩ := List.forall_mem_cons.mp hothersText
    -- The bundle that the first step gives is one that the rest of the run may start from.
    obtain ⟨next, hnext, hconsistent⟩ := Step.apply_consistent hstart hother hstartText hotherText
    rw [hnext] at hrestText
    obtain ⟨produced, hrun, hlength, hall⟩ := ih hconsistent hlater hrestText
    refine ⟨next :: produced, ?_, ?_, List.forall_mem_cons.mpr ⟨hconsistent, hall⟩⟩
    · rw [run, hnext]
      dsimp only
      rw [hrun]
      rfl
    · rw [List.length_cons, List.length_cons, hlength]

/-- A query type with a resolver and a scalar with a config are merged with an extension that has a
flattened resolver, and then the scalar is pared away. -/
theorem run_mergeThenPare_consistent :
    ∃ produced, run
        (⟨⟨[.type ⟨none, "Query", [], .object [] [⟨none, "now", [], .named "Date", []⟩]⟩,
          .type ⟨none, "Date", [], .scalar⟩]⟩, ⟨.ofList [("Query", .type (.ofList [("now", ())]))]⟩,
          .ofList [("Date", ())]⟩ : Bundle Unit Unit)
        [⟨.merge, .target, ⟨⟨[.extension ⟨"Query", [], .object []
            [⟨none, "next", [], .named "Date", []⟩]⟩]⟩, ⟨.ofList [("next", .rootField ())]⟩, ∅⟩⟩,
          ⟨.pare, .target, ⟨⟨[.type ⟨none, "Date", [], .scalar⟩]⟩, ∅, ∅⟩⟩] = .ok produced ∧
      produced.length = 2 ∧ ∀ bundle ∈ produced, bundle.Consistent :=
  run_consistent (by decide +kernel) (by decide +kernel) (by decide +kernel)

end Bundle

end SchemaAlgebra
