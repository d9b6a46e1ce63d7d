import Mathlib.Data.List.Forall2
import SchemaAlgebra.Proofs.RightBiasedUnion

/-!
# What a merge keeps of its target

Whatever two documents are merged, and whatever a policy answers as long as answers keep their names,
nothing of the target is lost.  A definition that the source does not name stays as it is.  One that the
source names stays in its place with all of its names, or it is gathered with an earlier node of its type
and kind, which has its names from then on.  What is new comes after all that.

`MergeStep` says what one step may do to a list of definitions.  Everything else is shown for such steps.

## Main statements

* `covers_mergeType`: a merged node has all the names of the target's node.
* `mergeInto_step`: merging a definition is a `MergeStep`.
* `KeepsTarget.step`: such a step keeps the target.
* `merge_keepsTarget`: a whole merge does.
-/

namespace SchemaAlgebra

variable {R S : Type}

/-! ## Collections -/

theorem subset_namesOf_mergeSiblings {α : Type} [Named α] (owner : String) (left right : List α)
    {resolve : α → α → Asking S α} (hkeeps : KeepsName fun left right => (resolve left right).value) :
    namesOf left ⊆ namesOf (mergeSiblings owner left right resolve).value := by
  rw [value_mergeSiblings owner left right resolve hkeeps]
  exact fun name hname => (mem_namesOf_settleAll hkeeps).mpr (.inl hname)

/-! ## Covering -/

/-- A body has all the names of another one of its kind. -/
structure TypeBody.Covers (kept body : TypeBody) : Prop where
  kind : kept.kind = body.kind
  interfaces : body.interfaces ⊆ kept.interfaces
  members : body.memberNames ⊆ kept.memberNames

/-- A type node has all the names of another node of its type and kind. -/
structure TypeDefinition.Covers (kept node : TypeDefinition) : Prop where
  name : kept.name = node.name
  directives : namesOf node.directives ⊆ namesOf kept.directives
  body : kept.body.Covers node.body

/-- A definition has the key of another one and, if it is a type node, all of its names. -/
structure Definition.Covers (kept definition : Definition) : Prop where
  key : kept.key = definition.key
  node : ∀ node, definition.typeDefinition? = some node →
    ∃ covering, kept.typeDefinition? = some covering ∧ covering.Covers node

namespace TypeBody

theorem Covers.refl (body : TypeBody) : body.Covers body :=
  ⟨rfl, List.Subset.refl _, List.Subset.refl _⟩

theorem Covers.trans {last middle body : TypeBody} (h : last.Covers middle)
    (hmiddle : middle.Covers body) : last.Covers body :=
  ⟨h.kind.trans hmiddle.kind, List.Subset.trans hmiddle.interfaces h.interfaces,
    List.Subset.trans hmiddle.members h.members⟩

/-- What later nodes bring takes nothing away from the first one. -/
theorem covers_absorb (left right : TypeBody) :
    (left.joinWith unionNames firstWins right).Covers left where
  kind := kind_joinWith _ _ left right
  interfaces := by
    cases left with
    | object names fields => exact fun name hname => mem_unionNames.mpr (.inl hname)
    | interface names fields => exact fun name hname => mem_unionNames.mpr (.inl hname)
    | _ => exact List.nil_subset _
  members := fun name hname => (mem_memberNames_joinWith unionNames
    fun _ _ _ => mem_namesOf_settleAll keepsName_first).mpr (.inl hname)

/-- What is gathered is there with all of its names. -/
theorem covers_absorb_right {left right : TypeBody} (h : left.kind = right.kind) :
    (left.joinWith unionNames firstWins right).Covers right where
  kind := (kind_joinWith _ _ left right).trans h
  interfaces := by
    cases left <;> cases right <;> cases h
    case object | interface => exact fun name hname => mem_unionNames.mpr (.inr hname)
    all_goals exact List.nil_subset _
  members := fun name hname => (mem_memberNames_joinWith unionNames
    fun _ _ _ => mem_namesOf_settleAll keepsName_first).mpr
      (.inr ⟨congrArg TypeKind.collection h, hname⟩)

end TypeBody

namespace TypeDefinition

theorem Covers.refl (node : TypeDefinition) : node.Covers node :=
  ⟨rfl, List.Subset.refl _, .refl _⟩

theorem Covers.trans {last middle node : TypeDefinition} (h : last.Covers middle)
    (hmiddle : middle.Covers node) : last.Covers node :=
  ⟨h.name.trans hmiddle.name, List.Subset.trans hmiddle.directives h.directives,
    h.body.trans hmiddle.body⟩

theorem covers_absorb (into piece : TypeDefinition) : (into.absorb piece).Covers into :=
  ⟨rfl, fun _ hname => (mem_namesOf_settleAll keepsName_first).mpr (.inl hname),
    TypeBody.covers_absorb _ _⟩

theorem covers_absorb_right {into piece : TypeDefinition} (hname : piece.name = into.name)
    (hkind : piece.kind = into.kind) : (into.absorb piece).Covers piece :=
  ⟨hname.symm, fun _ hmem => (mem_namesOf_settleAll keepsName_first).mpr (.inr hmem),
    TypeBody.covers_absorb_right hkind.symm⟩

theorem covers_foldl_absorb (into : TypeDefinition) (pieces : List TypeDefinition) :
    (pieces.foldl absorb into).Covers into :=
  List.foldlRecOn (motive := fun node => node.Covers into) pieces _ (.refl into)
    fun node hnode piece _ => (covers_absorb node piece).trans hnode

theorem covers_gather (into : TypeDefinition) (later : List Definition) :
    (into.gather later).Covers into :=
  covers_foldl_absorb into _

/-- A piece that stands anywhere behind a node is covered by what is gathered. -/
theorem covers_gather_piece {into piece : TypeDefinition} {later : List Definition}
    {definition : Definition} (hmem : definition ∈ later)
    (hpiece : into.piece? definition = some piece) : (into.gather later).Covers piece := by
  obtain ⟨front, back, rfl⟩ := List.append_of_mem hmem
  have hsplit : into.gather (front ++ definition :: back) =
      (back.filterMap into.piece?).foldl absorb ((into.gather front).absorb piece) := by
    simp [gather, hpiece]
  have hsame : piece.name = into.name ∧ piece.kind = into.kind := by
    simpa using (Option.filter_eq_some_iff.mp hpiece).2
  rw [hsplit]
  refine (covers_foldl_absorb _ _).trans (covers_absorb_right ?_ ?_)
  · rw [name_gather]
    exact hsame.1
  · rw [kind_gather]
    exact hsame.2

end TypeDefinition

namespace Definition

theorem Covers.refl (definition : Definition) : definition.Covers definition :=
  ⟨rfl, fun node hnode => ⟨node, hnode, .refl node⟩⟩

theorem Covers.trans {last middle definition : Definition} (h : last.Covers middle)
    (hmiddle : middle.Covers definition) : last.Covers definition := by
  refine ⟨h.key.trans hmiddle.key, fun node hnode => ?_⟩
  obtain ⟨between, hbetween, hcovers⟩ := hmiddle.node node hnode
  obtain ⟨covering, hcovering, hlast⟩ := h.node between hbetween
  exact ⟨covering, hcovering, hlast.trans hcovers⟩

/-- A type node covers a definition if its normalized form covers that of the definition. -/
theorem covers_type {covering node : TypeDefinition} {definition : Definition}
    (hnode : definition.typeDefinition? = some node) (h : covering.Covers node) :
    (type covering).Covers definition := by
  refine ⟨?_, fun other hother => ?_⟩
  · rw [key_type, key_of_typeDefinition? hnode, h.name]
  · rw [hnode] at hother
    obtain rfl := Option.some.inj hother
    exact ⟨covering, rfl, h⟩

/-- Definitions that are no type nodes cover each other if they have the same key. -/
theorem covers_of_key {kept definition : Definition} (hkey : kept.key = definition.key)
    (h : definition.typeDefinition? = none) : kept.Covers definition := by
  refine ⟨hkey, fun node hnode => ?_⟩
  rw [h] at hnode
  cases hnode

end Definition

/-! ## Merging a source node -/

/-- The answers of a policy have the name of the nodes that it is asked about.  A field of the wrong sort
may be among them. -/
structure Policy.KeepsNames (policy : Policy S) : Prop where
  directive : ∀ leftType left rightType right, left.name = right.name →
    (policy.directive leftType left rightType right).name = right.name
  field : ∀ leftType left rightType right, left.name = right.name →
    (policy.field leftType left rightType right).name = right.name
  enumValue : ∀ leftType left rightType right, left.name = right.name →
    (policy.enumValue leftType left rightType right).name = right.name
  unionMember : ∀ leftType rightType name, policy.unionMember leftType name rightType name = name

section Policy

variable {policy : Policy S} (hpolicy : policy.KeepsNames) (left right : TypeDefinition)
include hpolicy

theorem subset_namesOf_mergeOutputFields (fields : List Field) :
    namesOf fields ⊆ namesOf (mergeOutputFields policy left right fields).value := by
  apply subset_namesOf_mergeSiblings
  intro l r hname
  have hanswer := hpolicy.field left (.output l) right (.output r) hname
  cases hfield : policy.field left (.output l) right (.output r) with
  | output node => simpa [Policy.askField, hfield, Named.name, FieldNode.name] using hanswer
  | input node => simp [Policy.askField, hfield]

theorem subset_namesOf_mergeInputFields (fields : List InputValue) :
    namesOf fields ⊆ namesOf (mergeInputFields policy left right fields).value := by
  apply subset_namesOf_mergeSiblings
  intro l r hname
  have hanswer := hpolicy.field left (.input l) right (.input r) hname
  cases hfield : policy.field left (.input l) right (.input r) with
  | input node => simpa [Policy.askField, hfield, Named.name, FieldNode.name] using hanswer
  | output node => simp [Policy.askField, hfield]

/-- Whatever kind the right node is of, the members of the left one are there. -/
theorem covers_mergeBody : (mergeBody policy left right).value.Covers left.body := by
  unfold mergeBody
  cases left.body with
  | scalar => exact .refl _
  | object names fields =>
    exact ⟨rfl, List.Subset.refl _, subset_namesOf_mergeOutputFields hpolicy left right fields⟩
  | interface names fields =>
    exact ⟨rfl, List.Subset.refl _, subset_namesOf_mergeOutputFields hpolicy left right fields⟩
  | union names =>
    have hkeeps : KeepsName fun l r => (policy.askUnionMember left l right r).value := by
      intro l r hname
      obtain rfl : l = r := hname
      exact hpolicy.unionMember left right l
    have hunion := subset_namesOf_mergeSiblings right.name names right.body.unionMembers hkeeps
    rw [namesOf_self, namesOf_self] at hunion
    exact ⟨rfl, List.Subset.refl _, hunion⟩
  | enum values =>
    refine ⟨rfl, List.Subset.refl _, subset_namesOf_mergeSiblings _ _ _ ?_⟩
    exact fun l r => hpolicy.enumValue left l right r
  | inputObject fields =>
    exact ⟨rfl, List.Subset.refl _, subset_namesOf_mergeInputFields hpolicy left right fields⟩

/-- A merged node has all the names of the target's node. -/
theorem covers_mergeType (sides : ScalarSides S) :
    (mergeType policy sides left right).value.1.Covers left := by
  have hdirectives : namesOf left.directives ⊆ namesOf (mergeDirectives policy left right).value :=
    subset_namesOf_mergeSiblings _ _ _ fun l r => hpolicy.directive left l right r
  -- The members are merged into the node that has the merged directives already.
  have hbody := covers_mergeBody hpolicy
    { left with directives := (mergeDirectives policy left right).value } right
  unfold mergeType
  simp only [Traced.value_bind]
  split <;> split <;> exact ⟨rfl, hdirectives, hbody⟩

end Policy

/-! ## One step -/

/-- What merging a definition of the source may do to a list of definitions.  Either it is put at the end,
because its key is not there, or one definition of its key is changed, and some of those behind it, which
the changed one covers, are gone. -/
inductive MergeStep (right : Definition) : List Definition → List Definition → Prop
  | added {definitions : List Definition} (hnew : right.key ∉ keysOf definitions) :
    MergeStep right definitions (definitions ++ [right.normalize.value])
  | merged {front later : List Definition} {first changed : Definition} {stays : Definition → Bool}
    (hkey : first.key = right.key) (hchanged : changed.Covers first)
    (hgone : ∀ definition ∈ later, stays definition = false → changed.Covers definition) :
    MergeStep right (front ++ first :: later) (front ++ changed :: later.filter stays)

theorem mergeTypeInto_step {join : TypeDefinition → TypeDefinition → TypeDefinition}
    (hjoin : ∀ left right, (join left right).Covers left) (definitions : List Definition)
    {right : Definition} {node : TypeDefinition} (hright : right.typeDefinition? = some node) :
    MergeStep right definitions (mergeTypeInto join definitions node) := by
  have hkey := Definition.key_of_typeDefinition? hright
  rcases exists_first ⟨.type, node.name⟩ definitions with
    habsent | ⟨front, first, later, rfl, hfirst, hfront⟩
  · have hadded : right.normalize.value = .type node := by
      rcases Definition.eq_of_typeDefinition? hright with rfl | ⟨extension, rfl, rfl⟩ <;> rfl
    have hnew : right.key ∉ keysOf definitions := by
      rw [hkey]
      simpa [keysOf] using habsent
    rw [mergeTypeInto, atFirst_of_absent habsent, ← hadded]
    exact .added hnew
  · obtain ⟨left, hleft, -⟩ := Definition.exists_typeDefinition? hfirst
    rw [mergeTypeInto, atFirst_of_split later hfront hfirst, hleft]
    have hmerged := hjoin (left.gather later) node
    refine .merged (hfirst.trans hkey.symm)
      (Definition.covers_type hleft (hmerged.trans (left.covers_gather later))) ?_
    -- What is gone was gathered with the first node.
    intro definition hmem hgone
    cases hpiece : left.piece? definition with
    | none => simp [hpiece] at hgone
    | some piece =>
      have hnode : definition.typeDefinition? = some piece := (Option.filter_eq_some_iff.mp hpiece).1
      exact Definition.covers_type hnode (hmerged.trans (TypeDefinition.covers_gather_piece hmem hpiece))

/-- Changing the first definition of a key and nothing else is a step. -/
theorem atFirst_step {right : Definition} {found : Definition → List Definition → List Definition}
    (hfound : ∀ first later, first.key = right.key →
      ∃ changed : Definition, found first later = changed :: later ∧ changed.Covers first)
    (definitions : List Definition) :
    MergeStep right definitions (atFirst right.key found [right.normalize.value] definitions) := by
  rcases exists_first right.key definitions with habsent | ⟨front, first, later, rfl, hfirst, hfront⟩
  · have hnew : right.key ∉ keysOf definitions := by simpa [keysOf] using habsent
    rw [atFirst_of_absent habsent]
    exact .added hnew
  · obtain ⟨changed, hchanged, hcovers⟩ := hfound first later hfirst
    have hstep : MergeStep right (front ++ first :: later)
        (front ++ changed :: later.filter fun _ => true) :=
      .merged hfirst hcovers fun _ _ hgone => Bool.noConfusion hgone
    rw [atFirst_of_split later hfront hfirst, hchanged]
    rwa [List.filter_true] at hstep

/-- Merging a definition is such a step, whatever definitions there are. -/
theorem mergeInto_step {join : TypeDefinition → TypeDefinition → TypeDefinition}
    (hjoin : ∀ left right, (join left right).Covers left) (definitions : List Definition)
    (right : Definition) : MergeStep right definitions (mergeInto join definitions right) := by
  cases right with
  | type right => exact mergeTypeInto_step hjoin definitions rfl
  | extension node => exact mergeTypeInto_step hjoin definitions rfl
  | directive right =>
    refine atFirst_step (fun first later hfirst => ⟨.directive right, rfl, ?_⟩) definitions
    refine Definition.covers_of_key hfirst.symm ?_
    cases first with
    | type node => cases congrArg DefinitionKey.space hfirst
    | extension node => cases congrArg DefinitionKey.space hfirst
    | _ => rfl
  | schema right =>
    refine atFirst_step (fun first later hfirst => ?_) definitions
    obtain ⟨left, rfl⟩ := Definition.exists_schema hfirst
    exact ⟨.schema (left.override right), rfl, Definition.covers_of_key rfl rfl⟩

/-! ## What is kept -/

/-- What becomes of a definition that stays in its place: it keeps its names, and it is not changed at all
unless its key is one of the given ones. -/
def Definition.Continues (named : List DefinitionKey) (after before : Definition) : Prop :=
  after.Covers before ∧ (before.key ∉ named → after = before)

/-- A merge keeps its target.  Definitions that the source does not name are unchanged.  Those of the
target that stay do so in their order, and behind them come the source's further definitions, in the order
of their first occurrence.  Every definition of the target is covered by one that is there, and without a
source nothing changes. -/
structure KeepsTarget (target source merged : List Definition) : Prop where
  untouched : ∀ key, key ∉ keysOf source → carrying key merged = carrying key target
  order : ∃ kept added, merged = kept ++ added ∧
    List.SublistForall₂ (Definition.Continues (keysOf source)) kept target ∧
    keysOf added = ((keysOf source).filter (· ∉ keysOf target)).eraseDups
  nothingLost : ∀ definition ∈ target, ∃ kept ∈ merged, kept.Covers definition
  unchanged : source = [] → merged = target

/-- A step loses nothing. -/
theorem MergeStep.exists_covers {right : Definition} {before after : List Definition}
    (h : MergeStep right before after) {definition : Definition} (hmem : definition ∈ before) :
    ∃ kept ∈ after, kept.Covers definition := by
  cases h with
  | added hnew => exact ⟨definition, List.mem_append_left _ hmem, .refl definition⟩
  | @merged front later first changed stays hkey hchanged hgone =>
    rcases List.mem_append.mp hmem with hfront | hrest
    · exact ⟨definition, List.mem_append_left _ hfront, .refl definition⟩
    rcases List.mem_cons.mp hrest with rfl | hlater
    · exact ⟨changed, by simp, hchanged⟩
    cases hstays : stays definition with
    | true => exact ⟨definition, by simp [hlater, hstays], .refl definition⟩
    | false => exact ⟨changed, by simp, hgone definition hlater hstays⟩

namespace Definition

variable {named : List DefinitionKey}

theorem Continues.refl (definition : Definition) : definition.Continues named definition :=
  ⟨.refl definition, fun _ => rfl⟩

theorem Continues.trans {last middle first : Definition} (h : last.Continues named middle)
    (hmiddle : middle.Continues named first) : last.Continues named first := by
  refine ⟨h.1.trans hmiddle.1, fun hnamed => ?_⟩
  have hsame := hmiddle.2 hnamed
  exact (h.2 (hsame ▸ hnamed)).trans hsame

instance : Std.Refl (Continues named) := ⟨Continues.refl⟩

instance : IsTrans Definition (Continues named) := ⟨fun _ _ _ => Continues.trans⟩

theorem Continues.mono {more : List DefinitionKey} {after before : Definition}
    (h : after.Continues named before) (hsub : named ⊆ more) : after.Continues more before :=
  ⟨h.1, fun hnamed => h.2 fun hmem => hnamed (hsub hmem)⟩

end Definition

/-- What stays has the key of something that it continues. -/
theorem key_mem_of_continues {named : List DefinitionKey} {kept target : List Definition}
    (h : List.SublistForall₂ (Definition.Continues named) kept target) :
    keysOf kept ⊆ keysOf target := by
  induction h with
  | nil => exact List.nil_subset _
  | cons hfirst _ ih =>
    refine List.cons_subset.mpr ⟨?_, List.Subset.trans ih (List.subset_cons_self _ _)⟩
    exact hfirst.1.key ▸ List.mem_cons_self
  | cons_right _ ih => exact List.Subset.trans ih (List.subset_cons_self _ _)

theorem continues_mono {named more : List DefinitionKey} {kept target : List Definition}
    (h : List.SublistForall₂ (Definition.Continues named) kept target) (hsub : named ⊆ more) :
    List.SublistForall₂ (Definition.Continues more) kept target := by
  obtain ⟨origins, hkept, horigins⟩ := List.sublistForall₂_iff.mp h
  exact List.sublistForall₂_iff.mpr ⟨origins, hkept.imp fun _ _ hone => hone.mono hsub, horigins⟩

/-- Only definitions of the changed one's key may be gone. -/
theorem filter_stays {rest : List Definition} {first changed : Definition} {stays : Definition → Bool}
    (hchanged : changed.Covers first)
    (hgone : ∀ definition ∈ rest, stays definition = false → changed.Covers definition)
    (hother : ∀ definition ∈ rest, definition.key ≠ first.key) : rest.filter stays = rest := by
  rw [List.filter_eq_self]
  intro definition hmem
  by_contra hstays
  have hcovers := hgone definition hmem (by simpa using hstays)
  exact hother definition hmem (hcovers.key.symm.trans hchanged.key)

namespace MergeStep

variable {kept added after : List Definition} {right : Definition}

/-- A step at a key of the front leaves the back alone, unless the key is there as well. -/
theorem front_of_mem (h : MergeStep right (kept ++ added) after) (hkept : right.key ∈ keysOf kept)
    (hadded : right.key ∉ keysOf added) :
    ∃ changed, after = changed ++ added ∧
      List.SublistForall₂ (Definition.Continues [right.key]) changed kept := by
  generalize hbefore : kept ++ added = before at h
  cases h with
  | added hnew =>
    rw [← hbefore, keysOf_append] at hnew
    exact absurd (List.mem_append_left _ hkept) hnew
  | @merged front later first changed stays hkey hchanged hgone =>
    have hfirst : changed.Continues [right.key] first :=
      ⟨hchanged, fun hnamed => absurd (List.mem_singleton.mpr hkey) hnamed⟩
    rcases List.append_eq_append_iff.mp hbefore with ⟨more, hfront, hlater⟩ | ⟨more, hfront, hlater⟩
    · -- The changed definition would stand in the back.
      refine absurd ?_ hadded
      rw [hlater, keysOf_append, ← hkey]
      exact List.mem_append_right _ List.mem_cons_self
    · cases more with
      | nil =>
        refine absurd ?_ hadded
        rw [List.nil_append] at hlater
        rw [← hlater, ← hkey]
        exact List.mem_cons_self
      | cons other more =>
        obtain ⟨rfl, rfl⟩ := List.cons.inj hlater
        have hback : added.filter stays = added := by
          refine filter_stays hchanged
            (fun definition hmem => hgone definition (List.mem_append_right _ hmem)) ?_
          exact fun definition hmem hsame => hadded (hkey ▸ hsame ▸ List.mem_map_of_mem hmem)
        refine ⟨front ++ changed :: more.filter stays, ?_, ?_⟩
        · show front ++ changed :: (more ++ added).filter stays = _
          rw [List.filter_append, hback, List.append_assoc, List.cons_append]
        · rw [hfront, List.sublistForall₂_iff]
          exact ⟨front ++ first :: more.filter stays,
            List.rel_append (List.forall₂_refl front) (.cons hfirst (List.forall₂_refl _)),
            (List.filter_sublist.cons_cons first).append_left front⟩

/-- A step at another key leaves the front alone.  Where the back has no key twice, it only gets the key
if it does not have it. -/
theorem back_of_notMem (h : MergeStep right (kept ++ added) after) (hkept : right.key ∉ keysOf kept)
    (hadded : (keysOf added).Nodup) :
    ∃ changed, after = kept ++ changed ∧
      keysOf changed = keysOf added ++ if right.key ∈ keysOf added then [] else [right.key] := by
  generalize hbefore : kept ++ added = before at h
  cases h with
  | added hnew =>
    rw [← hbefore, keysOf_append, List.mem_append, not_or] at hnew
    refine ⟨added ++ [right.normalize.value], by rw [← hbefore, List.append_assoc], ?_⟩
    rw [if_neg hnew.2, keysOf_append]
    simp [keysOf]
  | @merged front later first changed stays hkey hchanged hgone =>
    have hback : ∃ more, front = kept ++ more ∧ added = more ++ first :: later := by
      rcases List.append_eq_append_iff.mp hbefore with hsplit | ⟨more, hfront, hlater⟩
      · exact hsplit
      · cases more with
        | nil => exact ⟨[], by simpa using hfront.symm, by simpa using hlater.symm⟩
        | cons other more =>
          refine absurd ?_ hkept
          obtain ⟨rfl, -⟩ := List.cons.inj hlater
          rw [hfront, ← hkey]
          simp [keysOf]
    obtain ⟨more, rfl, rfl⟩ := hback
    -- Nothing behind the changed definition is gone, because its key is not there twice.
    have hlater := filter_stays hchanged hgone (ne_key_of_once hadded).2
    refine ⟨more ++ changed :: later, by rw [hlater, List.append_assoc], ?_⟩
    rw [if_pos (by simp [keysOf, hkey]), List.append_nil]
    simp [keysOf, hchanged.key]

end MergeStep

namespace KeepsTarget

variable {join : TypeDefinition → TypeDefinition → TypeDefinition}
  (hjoin : ∀ left right, (join left right).Covers left) {target part merged : List Definition}
include hjoin

theorem order_mergeInto (h : KeepsTarget target part merged) (right : Definition) :
    ∃ kept added, SchemaAlgebra.mergeInto join merged right = kept ++ added ∧
      List.SublistForall₂ (Definition.Continues (keysOf (part ++ [right]))) kept target ∧
      keysOf added = furtherKeys (keysOf target) (keysOf (part ++ [right])) := by
  obtain ⟨kept, added, rfl, hkept, hkeys⟩ := h.order
  have hadded : keysOf added = furtherKeys (keysOf target) (keysOf part) := hkeys
  have hstep := mergeInto_step hjoin (kept ++ added) right
  have hparts : keysOf (part ++ [right]) = keysOf part ++ [right.key] := keysOf_append part [right]
  have hbefore := continues_mono hkept (List.subset_append_left (keysOf part) [right.key])
  rw [hparts, furtherKeys_snoc, ← hadded]
  by_cases htarget : right.key ∈ keysOf target
  · -- The target's definition of the key is among those that stay.
    have hnew : right.key ∉ keysOf added := fun hmem =>
      (mem_furtherKeys.mp (hadded ▸ hmem)).2 htarget
    have hold : right.key ∈ keysOf kept := by
      obtain ⟨definition, hmem, hkey⟩ := List.mem_map.mp htarget
      obtain ⟨covering, hcovering, hcovers⟩ := h.nothingLost definition hmem
      rw [← hkey, ← hcovers.key] at hnew ⊢
      rcases List.mem_append.mp hcovering with hstays | hadded
      · exact List.mem_map_of_mem hstays
      · exact absurd (List.mem_map_of_mem hadded) hnew
    obtain ⟨changed, hafter, hchanged⟩ := hstep.front_of_mem hold hnew
    refine ⟨changed, added, hafter, ?_, ?_⟩
    · exact IsTrans.trans _ _ _ (continues_mono hchanged (List.subset_append_right _ _)) hbefore
    · rw [if_pos (.inl htarget), List.append_nil]
  · have hold : right.key ∉ keysOf kept := fun hmem => htarget (key_mem_of_continues hkept hmem)
    have hnodup : (keysOf added).Nodup := hadded ▸ nodup_furtherKeys _ _
    obtain ⟨changed, hafter, hchanged⟩ := hstep.back_of_notMem hold hnodup
    have hknown : right.key ∈ keysOf added ↔ right.key ∈ keysOf target ∨ right.key ∈ keysOf part := by
      rw [hadded, mem_furtherKeys]
      simp [htarget]
    refine ⟨kept, changed, hafter, hbefore, ?_⟩
    rw [hchanged]
    simp only [hknown]

/-- The step: merging one more definition of the source. -/
theorem mergeInto (h : KeepsTarget target part merged) (right : Definition) :
    KeepsTarget target (part ++ [right]) (mergeInto join merged right) where
  untouched := by
    intro key hkey
    rw [keysOf_append, List.mem_append, not_or] at hkey
    have hother : right.key ≠ key := fun e => hkey.2 (e ▸ List.mem_cons_self)
    rw [carrying_mergeInto_of_ne (fun left right => (hjoin left right).name) hother]
    exact h.untouched key hkey.1
  order := h.order_mergeInto hjoin right
  nothingLost := by
    intro definition hmem
    obtain ⟨middle, hmiddle, hcovers⟩ := h.nothingLost definition hmem
    obtain ⟨kept, hkept, hlast⟩ := (mergeInto_step hjoin merged right).exists_covers hmiddle
    exact ⟨kept, hkept, hlast.trans hcovers⟩
  unchanged hnothing := absurd hnothing (List.append_ne_nil_of_right_ne_nil part (List.cons_ne_nil _ _))

/-- The run: merging a whole source. -/
theorem foldl_mergeInto (target source : List Definition) :
    KeepsTarget target source (source.foldl (SchemaAlgebra.mergeInto join) target) := by
  induction source using List.reverseRecOn with
  | nil =>
    refine ⟨fun _ _ => rfl, ⟨target, [], ?_, ?_, rfl⟩, ?_, fun _ => rfl⟩
    · exact (List.append_nil target).symm
    · exact (List.Sublist.refl target).sublistForall₂
    · exact fun definition hmem => ⟨definition, hmem, .refl definition⟩
  | append_singleton part right ih =>
    rw [List.foldl_append]
    exact ih.mergeInto hjoin right

end KeepsTarget

/-- Whatever is merged under whatever policy, as long as answers keep their names, the target is kept. -/
theorem merge_keepsTarget {policy : Policy S} (hpolicy : policy.KeepsNames) {target source : Source R S}
    {left right : Document} (hleft : (target.toDocument .merge .target).value = .ok left)
    (hright : (source.toDocument .merge .source).value = .ok right) :
    ∃ merged : Bundle R S, (merge policy target source).value = .ok merged ∧
      KeepsTarget left.definitions right.definitions merged.document.definitions := by
  refine ⟨_, value_merge policy hleft hright, ?_⟩
  obtain ⟨sides, hmerged⟩ := definitions_mergeBundles policy
    ⟨left, target.resolvers, target.scalars⟩ ⟨right, source.resolvers, source.scalars⟩
  rw [hmerged]
  exact KeepsTarget.foldl_mergeInto (fun left right => covers_mergeType hpolicy left right sides) _ _

/-- A type of two kinds and a policy that answers about output fields with input fields. -/
theorem merge_twoKinds_keepsTarget :
    ∃ merged : Bundle Unit Unit,
      (merge
        { Policy.rightWins with
          directive := fun _ left _ _ => left
          field := fun _ _ _ right => .input ⟨none, right.name, .named "Odd", none, []⟩ }
        (.sdl "type A { a: Int } enum A { X } type B { b: A } extend type A implements I { c: Int }")
        (.sdl "interface A @k { a: ID } union C = B extend enum A { Y } union C = A")).value =
          .ok merged ∧
      KeepsTarget
        [.type ⟨none, "A", [], .object [] [⟨none, "a", [], .named "Int", []⟩]⟩,
          .type ⟨none, "A", [], .enum [⟨none, "X", []⟩]⟩,
          .type ⟨none, "B", [], .object [] [⟨none, "b", [], .named "A", []⟩]⟩,
          .extension ⟨"A", [], .object ["I"] [⟨none, "c", [], .named "Int", []⟩]⟩]
        [.type ⟨none, "A", [⟨"k", []⟩], .interface [] [⟨none, "a", [], .named "ID", []⟩]⟩,
          .type ⟨none, "C", [], .union ["B"]⟩, .extension ⟨"A", [], .enum [⟨none, "Y", []⟩]⟩,
          .type ⟨none, "C", [], .union ["A"]⟩]
        merged.document.definitions := by
  have hpolicy : Policy.KeepsNames
      { (Policy.rightWins : Policy Unit) with
        directive := fun _ left _ _ => left
        field := fun _ _ _ right => .input ⟨none, right.name, .named "Odd", none, []⟩ } :=
    ⟨fun _ _ _ _ h => h, fun _ _ _ _ _ => rfl, fun _ _ _ _ _ => rfl, fun _ _ _ => rfl⟩
  let left : Document := ⟨[.type ⟨none, "A", [], .object [] [⟨none, "a", [], .named "Int", []⟩]⟩,
    .type ⟨none, "A", [], .enum [⟨none, "X", []⟩]⟩,
    .type ⟨none, "B", [], .object [] [⟨none, "b", [], .named "A", []⟩]⟩,
    .extension ⟨"A", [], .object ["I"] [⟨none, "c", [], .named "Int", []⟩]⟩]⟩
  let right : Document :=
    ⟨[.type ⟨none, "A", [⟨"k", []⟩], .interface [] [⟨none, "a", [], .named "ID", []⟩]⟩,
      .type ⟨none, "C", [], .union ["B"]⟩, .extension ⟨"A", [], .enum [⟨none, "Y", []⟩]⟩,
      .type ⟨none, "C", [], .union ["A"]⟩]⟩
  have hleft : ((.sdl
      "type A { a: Int } enum A { X } type B { b: A } extend type A implements I { c: Int }" :
      Source Unit Unit).toDocument .merge .target).value = .ok left := by decide +kernel
  have hright : ((.sdl
      "interface A @k { a: ID } union C = B extend enum A { Y } union C = A" :
      Source Unit Unit).toDocument .merge .source).value = .ok right := by decide +kernel
  exact merge_keepsTarget hpolicy hleft hright

end SchemaAlgebra
