import Mathlib.Data.List.Forall2
import SchemaAlgebra.Proofs.AskedQuestions
import SchemaAlgebra.Proofs.KeyedSteps

/-!
# What survives in its slot

The arena of an operation starts with the target's definitions, one to a slot, and new definitions get
slots behind them.  So the definitions that survive from the target are those in the slots that it started
with, and the others were added.

A step deals with the slots of its own key and leaves all others alone.  If the target's definitions of the
key are still there, only they change; otherwise only what was added does.  `Operation.step` says this
about the two parts of the document.

## Main statements

* `frames_mergeDefinition`, `frames_pareDefinition`: what a step leaves alone.
* `Arena.Splits.step`, `Arena.Splits.foldl`: the two parts after a step and after a run.
* `Operation.perform_parts`: the two parts of the document that an operation gives.
-/

namespace SchemaAlgebra

variable {R S : Type}

/-! ## Slots of other keys -/

namespace Arena

/-- What a step for one key leaves alone.  If the key is there, all slots of other keys; otherwise all
slots. -/
structure Frames (key : DefinitionKey) (before after : Arena) : Prop where
  absent : before.findAll key = [] → ∃ more, after.slots = before.slots ++ more
  present : before.findAll key ≠ [] →
    List.Forall₂ (fun old new => holds key old = false → new = old) before.slots after.slots

namespace Frames

variable {key : DefinitionKey} {before after : Arena}

theorem refl (arena : Arena) : Frames key arena arena :=
  ⟨fun _ => ⟨[], (List.append_nil _).symm⟩, fun _ => List.forall₂_same.mpr fun _ _ _ => rfl⟩

theorem push {arena : Arena} (h : arena.findAll key = []) (definition : Definition) :
    Frames key arena (arena.push definition) :=
  ⟨fun _ => ⟨[some definition], slots_push ..⟩, fun hsome => absurd h hsome⟩

/-- The slots are changed one by one, those of other keys not at all. -/
theorem of_map (hsome : before.findAll key ≠ []) (change : Option Definition → Option Definition)
    (hchange : ∀ content, holds key content = false → change content = content)
    (hafter : after.slots = before.slots.map change) : Frames key before after := by
  refine ⟨fun hnone => absurd hnone hsome, fun _ => ?_⟩
  rw [hafter, List.forall₂_map_right_iff, List.forall₂_same]
  exact fun content _ => hchange content

/-- The first slot of the key is written anew, and the slots behind it are changed one by one. -/
theorem of_split {front back : List (Option Definition)} {first : Definition}
    (hsome : before.findAll key ≠ []) (hbefore : before.slots = front ++ some first :: back)
    (hkey : first.key = key) (new : Option Definition)
    (change : Option Definition → Option Definition)
    (hchange : ∀ content, holds key content = false → change content = content)
    (hafter : after.slots = front ++ new :: back.map change) : Frames key before after := by
  refine ⟨fun hnone => absurd hnone hsome, fun _ => ?_⟩
  rw [hbefore, hafter]
  apply List.rel_append
  · exact List.forall₂_same.mpr fun _ _ _ => rfl
  · refine .cons (fun hfirst => ?_) ?_
    · -- The first slot is one of the key.
      simp [holds, hkey] at hfirst
    · rw [List.forall₂_map_right_iff, List.forall₂_same]
      exact fun content _ => hchange content

/-- Only the first slot of the key is written anew. -/
theorem of_replace {front back : List (Option Definition)} {first : Definition}
    (hsome : before.findAll key ≠ []) (hbefore : before.slots = front ++ some first :: back)
    (hkey : first.key = key) (new : Definition) :
    Frames key before (before.replace front.length new) := by
  refine of_split hsome hbefore hkey (some new) id (fun _ _ => rfl) ?_
  simp [hbefore]

end Frames

end Arena

open Arena (Frames)

/-! ## Steps -/

theorem frames_mergeTypeDefinition (policy : Policy S) (sides : ScalarSides S) {state : MergeState S}
    (h : state.arena.Indexed) (right : TypeDefinition) :
    Frames ⟨.type, right.name⟩ state.arena
      (mergeTypeDefinition policy sides state right).value.arena := by
  obtain ⟨arena, answers⟩ := state
  cases hfind : arena.findAll ⟨.type, right.name⟩ with
  | nil =>
    have hvalue : (mergeTypeDefinition policy sides ⟨arena, answers⟩ right).value.arena =
        arena.push (.type right) := by
      simp [mergeTypeDefinition, foldNodes, hfind]
    rw [hvalue]
    exact .push hfind _
  | cons slot more =>
    have hsome : arena.findAll ⟨.type, right.name⟩ ≠ [] := by
      rw [hfind]
      exact List.cons_ne_nil _ _
    obtain ⟨front, first, back, hslots, hkey, rfl, -, rfl⟩ := h.exists_split hfind
    obtain ⟨left, hleft, hname⟩ := Definition.exists_typeDefinition? hkey
    obtain ⟨folded, -, hfolded, hnodes⟩ := foldNodes_refines (S := S) h hslots hfind hleft hname
    let merged := (mergeType policy sides (left.gather (back.filterMap id)) right).value.1
    refine .of_split hsome hslots hkey (some (.type merged)) left.leave ?_ ?_
    · -- What is gathered comes out of slots of the type.
      intro content hother
      cases content with
      | none => rfl
      | some definition =>
        have hne : definition.key ≠ ⟨.type, left.name⟩ := by
          rw [hname]
          simpa [Arena.holds] using hother
        simp [TypeDefinition.leave, Option.filter, TypeDefinition.piece?_eq_none hne]
    · simp [mergeTypeDefinition, hnodes, hfolded, merged]

theorem frames_mergeDirectiveDefinition {arena : Arena} (h : arena.Indexed)
    (right : DirectiveDefinition) :
    Frames ⟨.directive, right.name⟩ arena (mergeDirectiveDefinition (S := S) arena right).value := by
  cases hfind : arena.findAll ⟨.directive, right.name⟩ with
  | nil =>
    have hvalue : (mergeDirectiveDefinition (S := S) arena right).value =
        arena.push (.directive right) := by
      simp [mergeDirectiveDefinition, Arena.find?, hfind]
    rw [hvalue]
    exact .push hfind _
  | cons slot more =>
    obtain ⟨front, first, back, hslots, hkey, rfl, -, -⟩ := h.exists_split hfind
    have hvalue : (mergeDirectiveDefinition (S := S) arena right).value =
        arena.replace front.length (.directive right) := by
      simp [mergeDirectiveDefinition, Arena.find?, hfind]
    rw [hvalue]
    exact .of_replace (by rw [hfind]; exact List.cons_ne_nil _ _) hslots hkey _

theorem frames_mergeSchemaDefinition {arena : Arena} (h : arena.Indexed) (right : SchemaDefinition) :
    Frames ⟨.schema, ""⟩ arena (mergeSchemaDefinition (S := S) arena right).value := by
  cases hfind : arena.findAll ⟨.schema, ""⟩ with
  | nil =>
    have hvalue : (mergeSchemaDefinition (S := S) arena right).value = arena.push (.schema right) := by
      simp [mergeSchemaDefinition, Arena.schema?, Arena.find?, hfind]
    rw [hvalue]
    exact .push hfind _
  | cons slot more =>
    obtain ⟨front, first, back, hslots, hkey, rfl, -, -⟩ := h.exists_split hfind
    have hslot : arena.get? front.length = some first := Arena.get?_of_slots hslots
    obtain ⟨left, rfl⟩ := Definition.exists_schema hkey
    have hvalue : (mergeSchemaDefinition (S := S) arena right).value =
        arena.replace front.length (.schema (left.override right)) := by
      simp [mergeSchemaDefinition, Arena.schema?, Arena.find?, hfind, hslot,
        value_mergeSchemaDefinitions]
    rw [hvalue]
    exact .of_replace (by rw [hfind]; exact List.cons_ne_nil _ _) hslots hkey _

/-- What a step of a merge leaves alone. -/
theorem frames_mergeDefinition (policy : Policy S) (sides : ScalarSides S) {state : MergeState S}
    (h : state.arena.Indexed) (right : Definition) :
    Frames right.key state.arena (mergeDefinition policy sides state right).value.arena := by
  cases right with
  | type right => exact frames_mergeTypeDefinition policy sides h right
  | extension node => exact frames_mergeTypeDefinition policy sides h node.toDefinition
  | directive right => exact frames_mergeDirectiveDefinition h right
  | schema right => exact frames_mergeSchemaDefinition h right

theorem frames_pareTypeDefinition {state : PareState S} (h : state.arena.Indexed)
    (right : TypeDefinition) :
    Frames ⟨.type, right.name⟩ state.arena (pareTypeDefinition state right).value.arena := by
  cases hfind : state.arena.findAll ⟨.type, right.name⟩ with
  | nil =>
    have hvalue : (pareTypeDefinition state right).value =
        { state with arena := state.arena.push (.type right) } := by
      simp [pareTypeDefinition, hfind]
    rw [hvalue]
    exact .push hfind _
  | cons slot more =>
    have hvalue : (pareTypeDefinition state right).value =
        (Arena.slotsFrom ⟨.type, right.name⟩ 0 state.arena.slots).foldl
          (fun state slot => (pareSlot right state slot).value) state := by
      rw [← h, hfind]
      simp [pareTypeDefinition, hfind]
    obtain ⟨-, hslots, -⟩ := foldl_pareSlot_refines right state.arena.slots [] h rfl
    rw [List.length_nil] at hslots
    rw [hvalue]
    refine .of_map (by rw [hfind]; exact List.cons_ne_nil _ _)
      (·.bind (Definition.paredBy? right)) ?_ hslots
    intro content hother
    cases content with
    | none => rfl
    | some definition =>
      have hne : definition.key ≠ ⟨.type, right.name⟩ := by simpa [Arena.holds] using hother
      exact if_neg hne

/-- What a step of a pare leaves alone. -/
theorem frames_pareDefinition {state : PareState S} (h : state.arena.Indexed) (right : Definition) :
    Frames right.key state.arena (pareDefinition state right).value.arena := by
  cases right with
  | type right => exact frames_pareTypeDefinition h right
  | extension node => exact frames_pareTypeDefinition h node.toDefinition
  | directive right =>
    cases hfind : state.arena.findAll ⟨.directive, right.name⟩ with
    | nil =>
      have hvalue : (pareDefinition state (.directive right)).value =
          { state with arena := state.arena.push (.directive right) } := by
        simp [pareDefinition, Arena.find?, hfind]
      rw [hvalue]
      exact .push hfind _
    | cons slot more =>
      have hvalue : (pareDefinition state (.directive right)).value = state := by
        simp [pareDefinition, Arena.find?, hfind]
      rw [hvalue]
      exact .refl _
  | schema right => exact .refl _

/-! ## The two parts of a document -/

/-- The definitions of a document in two parts: those that survive from a target, and those that were
added. -/
structure Parts where
  kept : List Definition
  added : List Definition

/-- The definitions of both parts. -/
def Parts.all (parts : Parts) : List Definition := parts.kept ++ parts.added

/-- Nothing was added under a key that a survivor has. -/
def Parts.Apart (parts : Parts) : Prop := ∀ definition ∈ parts.kept, definition.key ∉ keysOf parts.added

/-- One definition of a source changes the survivors if one of them has its key, and otherwise what was
added. -/
def Operation.step (op : Operation) (parts : Parts) (right : Definition) : Parts :=
  if right.key ∈ keysOf parts.kept then { parts with kept := op.into parts.kept right }
  else { parts with added := op.into parts.added right }

section Parts

variable {op : Operation} {parts : Parts} {right : Definition}

theorem Operation.step_of_kept (h : right.key ∈ keysOf parts.kept) :
    op.step parts right = { parts with kept := op.into parts.kept right } := if_pos h

theorem Operation.step_of_not_kept (h : right.key ∉ keysOf parts.kept) :
    op.step parts right = { parts with added := op.into parts.added right } := if_neg h

theorem carrying_ne_nil_iff {key : DefinitionKey} {definitions : List Definition} :
    carrying key definitions ≠ [] ↔ key ∈ keysOf definitions := by
  rw [Ne, carrying_eq_nil, keysOf, List.mem_map]
  simp

theorem not_mem_keysOf_iff {key : DefinitionKey} {definitions : List Definition} :
    key ∉ keysOf definitions ↔ ∀ definition ∈ definitions, definition.key ≠ key := by
  rw [keysOf, List.mem_map]
  simp

theorem Parts.Apart.step (h : parts.Apart) : (op.step parts right).Apart := by
  by_cases hkept : right.key ∈ keysOf parts.kept
  · rw [Operation.step_of_kept hkept]
    intro definition hmem
    have hsublist := op.keysOf_into_sublist (carrying_ne_nil_iff.mpr hkept)
    obtain ⟨origin, horigin, hkey⟩ := List.mem_map.mp (hsublist.subset (List.mem_map_of_mem hmem))
    rw [← hkey]
    exact h origin horigin
  · rw [Operation.step_of_not_kept hkept]
    intro definition hmem hadded
    obtain ⟨other, hother, hkey⟩ := List.mem_map.mp hadded
    rcases op.key_of_mem_into hother with hold | hnew
    · exact h definition hmem (hkey ▸ hold)
    · exact hkept (hnew ▸ hkey ▸ List.mem_map_of_mem hmem)

/-- A step on the two parts is a step on the document. -/
theorem Operation.all_step (h : parts.Apart) :
    (op.step parts right).all = op.into parts.all right := by
  by_cases hkept : right.key ∈ keysOf parts.kept
  · have hback : ∀ definition ∈ parts.added, definition.key ≠ right.key := by
      rw [← not_mem_keysOf_iff]
      obtain ⟨origin, horigin, hkey⟩ := List.mem_map.mp hkept
      exact hkey ▸ h origin horigin
    rw [step_of_kept hkept]
    exact (op.into_append_of_front (carrying_ne_nil_iff.mpr hkept) hback).symm
  · rw [step_of_not_kept hkept]
    exact (op.into_append_of_back (not_mem_keysOf_iff.mp hkept) parts.added).symm

end Parts

namespace Arena

/-- The two parts of an arena's definitions: those in the slots that it started with, and those behind. -/
def parts (arena : Arena) (size : Nat) : Parts where
  kept := (arena.slots.take size).filterMap id
  added := (arena.slots.drop size).filterMap id

theorem all_parts (arena : Arena) (size : Nat) :
    (arena.parts size).all = arena.toDocument.definitions := by
  rw [Parts.all, parts, ← List.filterMap_append, List.take_append_drop, definitions_toDocument]

/-- Slots that are no slots of a key are left alone. -/
theorem eq_of_frames {key : DefinitionKey} {old new : List (Option Definition)}
    (h : List.Forall₂ (fun old new => holds key old = false → new = old) old new)
    (habsent : key ∉ keysOf (old.filterMap id)) : new = old := by
  induction h with
  | nil => rfl
  | @cons content changed rest others hsame _ ih =>
    have hcontent : holds key content = false := by
      cases content with
      | none => rfl
      | some definition =>
        have hne : definition.key ≠ key :=
          not_mem_keysOf_iff.mp habsent definition (List.mem_filterMap.mpr ⟨_, List.mem_cons_self, rfl⟩)
        simpa [holds] using hne
    have hrest : key ∉ keysOf (rest.filterMap id) := by
      rw [not_mem_keysOf_iff] at habsent ⊢
      intro definition hmem
      obtain ⟨slot, hslot, hid⟩ := List.mem_filterMap.mp hmem
      exact habsent definition (List.mem_filterMap.mpr ⟨slot, List.mem_cons_of_mem _ hslot, hid⟩)
    rw [hsame hcontent, ih hrest]

/-- An arena under way that started with a number of slots, and its two parts. -/
structure Splits (arena : Arena) (size : Nat) (parts : Parts) : Prop where
  indexed : arena.Indexed
  enough : size ≤ arena.slots.length
  parts_eq : arena.parts size = parts
  apart : parts.Apart

/-- The step: an arena's parts change as `Operation.step` says. -/
theorem Splits.step {op : Operation} {right : Definition} {before after : Arena} {size : Nat}
    {parts : Parts} (h : before.Splits size parts) (hindexed : after.Indexed)
    (hinto : after.toDocument.definitions = op.into before.toDocument.definitions right)
    (hframes : Frames right.key before after) : after.Splits size (op.step parts right) := by
  obtain ⟨hbefore, henough, rfl, hapart⟩ := h
  have hall : (after.parts size).all = (op.step (before.parts size) right).all := by
    rw [Operation.all_step hapart, all_parts, all_parts, hinto]
  have hpresent : ∀ {part : List Definition}, part ⊆ before.toDocument.definitions →
      right.key ∈ keysOf part → before.findAll right.key ≠ [] := by
    intro part hpart hmem
    rw [Ne, hbefore.findAll_eq_nil_iff, ← not_mem_keysOf_iff, not_not]
    exact List.map_subset _ hpart hmem
  have hsubset : (before.parts size).kept ⊆ before.toDocument.definitions ∧
      (before.parts size).added ⊆ before.toDocument.definitions := by
    rw [← all_parts before size]
    exact ⟨List.subset_append_left _ _, List.subset_append_right _ _⟩
  by_cases hkept : right.key ∈ keysOf (before.parts size).kept
  · -- The key is there, so no slot is new, and behind the first slots none is of the key.
    have hrel := hframes.present (hpresent hsubset.1 hkept)
    have hlength := hrel.length_eq
    have hbehind : right.key ∉ keysOf (before.parts size).added := by
      obtain ⟨origin, horigin, hkey⟩ := List.mem_map.mp hkept
      exact hkey ▸ hapart origin horigin
    have hadded : (after.parts size).added = (before.parts size).added :=
      congrArg (List.filterMap id) (eq_of_frames (List.forall₂_drop size hrel) hbehind)
    refine ⟨hindexed, hlength ▸ henough, ?_, hapart.step⟩
    rw [Operation.step_of_kept hkept] at hall ⊢
    rw [Parts.all, hadded] at hall
    have hfront := List.append_cancel_right hall
    exact congr (congrArg Parts.mk hfront) hadded
  · -- No slot that the arena started with is of the key, so all of them are left alone.
    have hsame : after.slots.take size = before.slots.take size ∧ size ≤ after.slots.length := by
      by_cases hsome : before.findAll right.key = []
      · obtain ⟨more, hslots⟩ := hframes.absent hsome
        rw [hslots, List.take_append_of_le_length henough, List.length_append]
        exact ⟨rfl, Nat.le_trans henough (Nat.le_add_right _ _)⟩
      · have hrel := hframes.present hsome
        exact ⟨eq_of_frames (List.forall₂_take size hrel) hkept, hrel.length_eq ▸ henough⟩
    have hfront : (after.parts size).kept = (before.parts size).kept :=
      congrArg (List.filterMap id) hsame.1
    refine ⟨hindexed, hsame.2, ?_, hapart.step⟩
    rw [Operation.step_of_not_kept hkept] at hall ⊢
    rw [Parts.all, hfront] at hall
    have hadded := List.append_cancel_left hall
    exact congr (congrArg Parts.mk hfront) hadded

/-- The run, for any states with an arena whose steps are steps of an operation. -/
theorem Splits.foldl {σ : Type} {op : Operation} (arena : σ → Arena) {next : σ → Definition → σ}
    (hnext : ∀ state right, (arena state).Indexed → (arena (next state right)).Indexed ∧
      (arena (next state right)).toDocument.definitions =
        op.into (arena state).toDocument.definitions right ∧
      Frames right.key (arena state) (arena (next state right)))
    {size : Nat} (source : List Definition) {state : σ} {parts : Parts}
    (h : (arena state).Splits size parts) :
    (arena (source.foldl next state)).Splits size (source.foldl op.step parts) := by
  induction source generalizing state parts with
  | nil => exact h
  | cons right rest ih =>
    obtain ⟨hindexed, hinto, hframes⟩ := hnext state right h.indexed
    exact ih (h.step hindexed hinto hframes)

/-- The arena of a document starts with its definitions, however they are parted. -/
theorem splits_ofDocument {document : Document} {parts : Parts} (hall : parts.all = document.definitions)
    (hapart : parts.Apart) : (ofDocument document).Splits parts.kept.length parts := by
  have hslots : (ofDocument document).slots = parts.kept.map some ++ parts.added.map some := by
    rw [slots_ofDocument, ← hall, Parts.all, List.map_append]
  have hlength : (parts.kept.map some).length = parts.kept.length := List.length_map _
  have hsome : ∀ definitions : List Definition, (definitions.map some).filterMap id = definitions :=
    fun definitions => by simp
  refine ⟨indexed_ofDocument document, ?_, ?_, hapart⟩
  · rw [hslots, List.length_append, hlength]
    exact Nat.le_add_right _ _
  · rw [Arena.parts, hslots, List.take_left' hlength, List.drop_left' hlength, hsome, hsome]

end Arena

/-! ## Operations -/

namespace Operation

/-- Performs an operation on two schemas.  In a merge the source wins. -/
def perform (op : Operation) (target source : Source R S) : Except SourceError (Bundle R S) :=
  match op with
  | .merge => (SchemaAlgebra.merge Policy.rightWins target source).value
  | .pare => (SchemaAlgebra.pare target source).value

/-- The arena that an operation on two bundles ends with. -/
def arena (op : Operation) (target source : Bundle R S) : Arena :=
  let definitions := source.document.normalize.value.definitions
  match op with
  | .merge => (mergeRun Policy.rightWins target source definitions).value.arena
  | .pare =>
    (definitions.foldlM pareDefinition ⟨.ofDocument target.document, [], target.scalars⟩).value.arena

/-- How many of a target's first definitions survive an operation, in the slots that it put them into. -/
def keeps (op : Operation) (target source : Bundle R S) (first : Nat) : Nat :=
  ((op.arena target source).parts first).kept.length

/-- An operation gives what its arena ends with. -/
theorem perform_eq_arena (op : Operation) {target source : Source R S} {left right : Document}
    (hleft : (target.toDocument op .target).value = .ok left)
    (hright : (source.toDocument op .source).value = .ok right) :
    ∃ result : Bundle R S, op.perform target source = .ok result ∧
      result.document = (op.arena ⟨left, target.resolvers, target.scalars⟩
        ⟨right, source.resolvers, source.scalars⟩).toDocument := by
  cases op with
  | merge =>
    exact ⟨_, value_merge Policy.rightWins hleft hright, document_mergeBundles _ _ _⟩
  | pare =>
    refine ⟨_, value_pare hleft hright, ?_⟩
    simp [pareBundles, arena]

theorem step_normalize (op : Operation) (parts : Parts) (right : Definition) :
    op.step parts right.normalize.value = op.step parts right := by
  unfold step
  simp only [Definition.key_normalize, into_normalize]

theorem into_merge_eq (sides : ScalarSides S) :
    mergeInto (fun left right => (mergeType Policy.rightWins sides left right).value.1) =
      into .merge := by
  have hjoin : (fun left right => (mergeType Policy.rightWins sides left right).value.1) =
      TypeDefinition.override := funext fun left => funext (value_mergeType sides left)
  rw [hjoin]
  rfl

/-- The run: the parts of the arena that an operation ends with. -/
theorem splits_arena (op : Operation) (target source : Bundle R S) {parts : Parts}
    (hall : parts.all = target.document.definitions) (hapart : parts.Apart) :
    (op.arena target source).Splits parts.kept.length
      (source.document.definitions.foldl op.step parts) := by
  have hstart := Arena.splits_ofDocument hall hapart
  have hsource : source.document.definitions.foldl op.step parts =
      source.document.normalize.value.definitions.foldl op.step parts := by
    rw [Document.definitions_value_normalize, List.foldl_map]
    simp only [step_normalize]
  rw [hsource]
  cases op with
  | merge =>
    simp only [arena, mergeRun, Traced.value_foldlM]
    refine Arena.Splits.foldl MergeState.arena (fun state right hindexed => ?_) _ hstart
    obtain ⟨hnext, hdefinitions⟩ :=
      mergeDefinition_refines Policy.rightWins (scalarSides target source) hindexed right
    rw [into_merge_eq] at hdefinitions
    exact ⟨hnext, hdefinitions, frames_mergeDefinition _ _ hindexed right⟩
  | pare =>
    simp only [arena, Traced.value_foldlM]
    refine Arena.Splits.foldl PareState.arena (fun state right hindexed => ?_) _ hstart
    obtain ⟨hnext, hsummary⟩ := pareDefinition_refines hindexed right
    have hdefinitions := congrArg PareSummary.definitions hsummary
    rw [PareSummary.definitions_pare] at hdefinitions
    exact ⟨hnext, hdefinitions, frames_pareDefinition hindexed right⟩

/-- An operation on a target whose definitions are in two parts, the first of which are survivors. -/
theorem perform_parts (op : Operation) {target source : Source R S} {left right : Document}
    (hleft : (target.toDocument op .target).value = .ok left)
    (hright : (source.toDocument op .source).value = .ok right) {parts : Parts}
    (hall : parts.all = left.definitions) (hapart : parts.Apart) :
    let result := right.definitions.foldl op.step parts
    ∃ bundle : Bundle R S, op.perform target source = .ok bundle ∧
      bundle.document.definitions = result.all ∧ result.Apart ∧
      op.keeps ⟨left, target.resolvers, target.scalars⟩ ⟨right, source.resolvers, source.scalars⟩
        parts.kept.length = result.kept.length := by
  intro result
  obtain ⟨bundle, hbundle, hdocument⟩ := op.perform_eq_arena hleft hright
  have hsplits := op.splits_arena ⟨left, target.resolvers, target.scalars⟩
    ⟨right, source.resolvers, source.scalars⟩ hall hapart
  refine ⟨bundle, hbundle, ?_, hsplits.apart, ?_⟩
  · rw [hdocument, ← Arena.all_parts _ parts.kept.length, hsplits.parts_eq]
  · rw [keeps, hsplits.parts_eq]

end Operation

end SchemaAlgebra
