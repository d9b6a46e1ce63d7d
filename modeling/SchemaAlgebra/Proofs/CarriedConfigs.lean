import SchemaAlgebra.Proofs.ScalarConfigs

/-!
# Scalar configs are carried over

A merge under the policy that the source wins loses no config of a scalar that the merged document
defines.  This needs no registry on either side: where a side has none, the policy does not see its
configs, and then an answer of no config leaves those that were carried over.  Nor does it matter how
often a scalar is defined or extended, and so how often the policy is asked: it always gives the same
answer.

## Main statements

* `answersAlike_mergeRun`: every answer of a run is the one that the two registries give.
* `settled?_answer`: what such an answer leaves of the configs that were carried over.
* `merge_carriesScalarConfigs`: the configs of the merged schema.
-/

namespace SchemaAlgebra

variable {R S : Type}

/-! ## The answers of a run -/

/-- Whatever has been answered about a scalar is what the two registries give. -/
def MergeState.AnswersAlike (sides : ScalarSides S) (state : MergeState S) : Prop :=
  ∀ scalar answer, state.answers.get? scalar = some answer → answer = sides.answer scalar

section Answers

variable {sides : ScalarSides S} {state : MergeState S}

theorem answersAlike_mergeTypeDefinition (h : state.AnswersAlike sides) (right : TypeDefinition) :
    (mergeTypeDefinition Policy.rightWins sides state right).value.AnswersAlike sides := by
  unfold mergeTypeDefinition
  rw [Traced.value_bind]
  split
  · exact h
  · next arena slot left _ =>
    have hanswer := answer_mergeType sides left right
    simp only [Traced.value_bind, Traced.value_pure, hanswer]
    intro scalar answer hget
    by_cases hscalars : left.kind = .scalar ∧ right.kind = .scalar
    · -- A new answer takes the place of an older one about the scalar; both are the same.
      simp only [if_pos hscalars, OrderedMap.get?_insert] at hget
      split at hget
      · next hname => rw [hname, ← Option.some.inj hget]
      · exact h scalar answer hget
    · simp only [if_neg hscalars] at hget
      exact h scalar answer hget

/-- The step: only type nodes are asked about. -/
theorem answersAlike_mergeDefinition (h : state.AnswersAlike sides) (right : Definition) :
    (mergeDefinition Policy.rightWins sides state right).value.AnswersAlike sides := by
  cases right with
  | type right => exact answersAlike_mergeTypeDefinition h right
  | extension node => exact answersAlike_mergeTypeDefinition h node.toDefinition
  | directive right => exact h
  | schema right => exact h

end Answers

/-- The run: at its start nothing has been answered. -/
theorem answersAlike_mergeRun (target source : Bundle R S) (part : List Definition) :
    (mergeRun Policy.rightWins target source part).value.AnswersAlike (scalarSides target source) := by
  have hstart : MergeState.AnswersAlike (scalarSides target source)
      ⟨.ofDocument target.document, ∅⟩ := by
    intro scalar answer hget
    cases hget
  rw [mergeRun, Traced.value_foldlM]
  exact List.foldlRecOn (motive := MergeState.AnswersAlike _) part _ hstart
    fun _ hstate right _ => answersAlike_mergeDefinition hstate right

/-! ## What an answer leaves -/

/-- The policy sees the config that a side has, or it sees none and its answer is degraded. -/
theorem visible?_eq (target source : Bundle R S) (side : Side) (scalar : String) :
    let sides := scalarSides target source
    let configs := match side with
      | .target => target.scalars
      | .source => source.scalars
    sides.visible? side scalar = configs.get? scalar ∨
      sides.visible? side scalar = none ∧ sides.degraded = true := by
  have hbuilt : ∀ {document : Document} {configs : OrderedMap String S} {registry : Registry S},
      Registry.build document configs = .ok registry → registry.config? scalar = configs.get? scalar := by
    intro document configs registry hbuild
    obtain rfl := Except.ok.inj ((Registry.buildable_of_build hbuild).build.symm.trans hbuild)
    rfl
  intro sides configs
  unfold ScalarSides.visible?
  cases hregistry : sides.registry side with
  | ok registry =>
    left
    cases side with
    | target => exact hbuilt hregistry
    | source => exact hbuilt hregistry
  | error reason =>
    refine .inr ⟨rfl, ?_⟩
    cases side with
    | target =>
      have htarget : sides.target = .error reason := hregistry
      simp [ScalarSides.degraded, htarget, Except.toBool]
    | source =>
      have hsource : sides.source = .error reason := hregistry
      simp [ScalarSides.degraded, hsource, Except.toBool]

/-- The configs of the two sides are put together, one side before the other. -/
theorem settled?_answer (target source : Bundle R S) (scalar : String) :
    let left := target.scalars.get? scalar
    let right := source.scalars.get? scalar
    let settled := ScalarAnswer.settled? (some ((scalarSides target source).answer scalar))
      (right.or left)
    settled = right.or left ∨ settled = left.or right := by
  intro left right settled
  have hsettled : settled = ((scalarSides target source).visible? .source scalar |>.or
      ((scalarSides target source).visible? .target scalar)).or
        (if (scalarSides target source).degraded then right.or left else none) := rfl
  rcases visible?_eq target source .target scalar with htarget | ⟨htarget, hdegraded⟩
  · rcases visible?_eq target source .source scalar with hsource | ⟨hsource, hdegraded⟩
    · -- Both sides are seen, and the answer says all there is.
      left
      rw [hsettled, htarget, hsource]
      show (right.or left).or _ = right.or left
      cases right.or left with
      | some config => rfl
      | none => exact ite_self none
    · -- Only the target is seen; the source's config counts if the target has none.
      right
      rw [hsettled, htarget, hsource, hdegraded]
      show (none.or left).or (right.or left) = left.or right
      cases left <;> simp
  · left
    rw [hsettled, htarget, hdegraded, Option.or_none]
    show Option.or _ (right.or left) = right.or left
    rcases visible?_eq target source .source scalar with hsource | ⟨hsource, -⟩
    · rw [hsource]
      show right.or (right.or left) = right.or left
      rw [← Option.or_assoc, Option.or_self]
    · rw [hsource, Option.none_or]

/-! ## Schemas -/

/-- The configs of a merged schema are those of both sides, as far as the merged document defines the
scalars. -/
structure CarriesConfigs (left right : OrderedMap String S) (merged : Bundle R S) : Prop where
  isSome_iff : ∀ scalar, (merged.scalars.get? scalar).isSome ↔
    ((left.get? scalar).isSome ∨ (right.get? scalar).isSome) ∧
      scalar ∈ merged.document.definedScalars
  fromEither : ∀ scalar config, merged.scalars.get? scalar = some config →
    left.get? scalar = some config ∨ right.get? scalar = some config
  onlyLeft : ∀ scalar ∈ merged.document.definedScalars, right.get? scalar = none →
    merged.scalars.get? scalar = left.get? scalar
  onlyRight : ∀ scalar ∈ merged.document.definedScalars, left.get? scalar = none →
    merged.scalars.get? scalar = right.get? scalar

/-- The config of a scalar that the merged document defines is that of one of the two sides, which side
comes first depending on what the policy has seen. -/
theorem get?_scalars_mergeBundles_of_defined {target source : Bundle R S} {scalar : String}
    (hdefined : scalar ∈
      (mergeBundles Policy.rightWins target source).value.document.definedScalars) :
    let settled := (mergeBundles Policy.rightWins target source).value.scalars.get? scalar
    settled = (source.scalars.get? scalar).or (target.scalars.get? scalar) ∨
      settled = (target.scalars.get? scalar).or (source.scalars.get? scalar) := by
  have halike := answersAlike_mergeRun target source source.document.normalize.value.definitions
  rw [scalars_mergeBundles, get?_mergeScalars, if_pos hdefined]
  generalize hanswer : OrderedMap.get? _ scalar = answer?
  cases answer? with
  -- Nothing has been asked about the scalar, so its config is carried over.
  | none => exact .inl rfl
  | some answer =>
    rw [halike scalar answer hanswer]
    exact settled?_answer target source scalar

theorem carriesConfigs_mergeBundles (target source : Bundle R S) :
    CarriesConfigs target.scalars source.scalars
      (mergeBundles Policy.rightWins target source).value := by
  let merged := (mergeBundles Policy.rightWins target source).value
  -- Without its scalar a config goes; with it, one side is taken and the other one fills in.
  have hdropped : ∀ scalar, scalar ∉ merged.document.definedScalars →
      merged.scalars.get? scalar = none := by
    intro scalar hundefined
    rw [scalars_mergeBundles, get?_mergeScalars, if_neg hundefined]
  refine ⟨?_, ?_, ?_, ?_⟩
  · intro scalar
    by_cases hdefined : scalar ∈ merged.document.definedScalars
    · rw [and_iff_left hdefined]
      rcases get?_scalars_mergeBundles_of_defined hdefined with hright | hleft
      · rw [hright, Option.isSome_or, Bool.or_eq_true, or_comm]
      · rw [hleft, Option.isSome_or, Bool.or_eq_true]
    · rw [hdropped scalar hdefined]
      exact iff_of_false Bool.false_ne_true fun h => hdefined h.2
  · intro scalar config hconfig
    have hdefined : scalar ∈ merged.document.definedScalars := by
      by_contra hundefined
      rw [hdropped scalar hundefined] at hconfig
      cases hconfig
    rcases get?_scalars_mergeBundles_of_defined hdefined with hright | hleft
    · rw [hright, Option.or_eq_some_iff] at hconfig
      exact hconfig.symm.imp And.right id
    · rw [hleft, Option.or_eq_some_iff] at hconfig
      exact hconfig.imp id And.right
  · intro scalar hdefined hnone
    rcases get?_scalars_mergeBundles_of_defined hdefined with hright | hleft
    · rw [hright, hnone, Option.none_or]
    · rw [hleft, hnone, Option.or_none]
  · intro scalar hdefined hnone
    rcases get?_scalars_mergeBundles_of_defined hdefined with hright | hleft
    · rw [hright, hnone, Option.or_none]
    · rw [hleft, hnone, Option.none_or]

/-- A merge loses no config of a scalar that the merged document defines, whether or not the two sides
have registries. -/
theorem merge_carriesScalarConfigs {target source : Source R S} {left right : Document}
    (hleft : (target.toDocument .merge .target).value = .ok left)
    (hright : (source.toDocument .merge .source).value = .ok right) :
    ∃ merged : Bundle R S, (merge Policy.rightWins target source).value = .ok merged ∧
      CarriesConfigs target.scalars source.scalars merged :=
  ⟨_, value_merge Policy.rightWins hleft hright,
    carriesConfigs_mergeBundles ⟨left, target.resolvers, target.scalars⟩
      ⟨right, source.resolvers, source.scalars⟩⟩

/-- Neither side has a registry: the target defines a scalar twice, and the source has a config for a
scalar that only the target defines.  The policy is asked about the first scalar twice. -/
theorem merge_withoutRegistries_carriesScalarConfigs :
    let target : Bundle Unit Nat :=
      ⟨⟨[.type ⟨none, "Date", [], .scalar⟩, .type ⟨none, "Date", [], .scalar⟩,
        .type ⟨none, "Url", [], .scalar⟩]⟩, ∅, .ofList [("Date", 1), ("Gone", 2)]⟩
    let source : Bundle Unit Nat :=
      ⟨⟨[.type ⟨none, "Date", [], .scalar⟩, .extension ⟨"Date", [⟨"old", []⟩], .scalar⟩]⟩, ∅,
        .ofList [("Date", 3), ("Url", 4)]⟩
    ∃ merged : Bundle Unit Nat,
      (merge Policy.rightWins (.bundle target) (.bundle source)).value = .ok merged ∧
        CarriesConfigs target.scalars source.scalars merged := by
  intro target source
  have htarget : target.Readable := by decide +kernel
  have hsource : source.Readable := by decide +kernel
  exact merge_carriesScalarConfigs (htarget.toDocument _ _) (hsource.toDocument _ _)

end SchemaAlgebra
