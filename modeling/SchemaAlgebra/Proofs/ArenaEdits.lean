import SchemaAlgebra.Proofs.ParedDocument
import SchemaAlgebra.Proofs.AskedQuestions

/-!
# Edited arenas

An arena's slots and its index are changed apart from each other by three operations, and `replace` does not
look at the index at all.  Here an `Edit` is one such operation, and a sequence of edits is `Sound` if each
definition that overwrites another one has its key.  After any sound edits of a document's arena the index
says exactly what the slots hold.

Merging and paring edit the arena that they start with.  To speak about every single edit, the functions that
do so are written once more in `Reported`, where each edit of an arena is an event.  They have the values of
the functions that they stand for, and the edits that they report are sound, whatever the policy answers.

## Main statements

* `Arena.Faithful.edit`, `Arena.Faithful.run`: what one sound edit preserves, and a sequence of them.
* `Reported.mergeDefinition_accounts`, `Reported.pareDefinition_accounts`: the edits of one step.
* `arena_staysFaithful`: both together, for all runs.
-/

namespace SchemaAlgebra

variable {R S : Type}

namespace Arena

/-! ## Edits -/

/-- One change of an arena. -/
inductive Edit where
  | push (definition : Definition)
  | remove (slot : Nat)
  | replace (slot : Nat) (definition : Definition)
  deriving DecidableEq

/-- The arena after a change. -/
def edit (arena : Arena) : Edit → Arena
  | .push definition => arena.push definition
  | .remove slot => arena.remove slot
  | .replace slot definition => arena.replace slot definition

/-- The arena after a sequence of changes. -/
def run (arena : Arena) (edits : List Edit) : Arena := edits.foldl edit arena

/-- A definition may overwrite one of its own key only. -/
def Edit.Fits (arena : Arena) : Edit → Prop
  | .replace slot definition => ∃ old, arena.get? slot = some old ∧ definition.key = old.key
  | .push _ | .remove _ => True

/-- Every edit fits the arena that it is made in. -/
def Sound : Arena → List Edit → Prop
  | _, [] => True
  | arena, edit :: rest => edit.Fits arena ∧ Sound (arena.edit edit) rest

theorem run_append (arena : Arena) (edits more : List Edit) :
    arena.run (edits ++ more) = (arena.run edits).run more :=
  List.foldl_append

theorem sound_append_iff {arena : Arena} {edits more : List Edit} :
    Sound arena (edits ++ more) ↔ Sound arena edits ∧ Sound (arena.run edits) more := by
  induction edits generalizing arena with
  | nil => exact ⟨fun h => ⟨trivial, h⟩, fun h => h.2⟩
  | cons edit rest ih =>
    simp only [List.cons_append, Sound, ih, and_assoc]
    rfl

/-! ## What the index says -/

/-- The slots that hold a definition of a key, in increasing order. -/
def slotsOf (arena : Arena) (key : DefinitionKey) : List Nat :=
  (List.range arena.slots.length).filter fun slot => holds key (arena.get? slot)

/-- The index says what the slots hold, and the document is what stands in the slots. -/
structure Faithful (arena : Arena) : Prop where
  findAll : ∀ key, arena.findAll key = arena.slotsOf key
  find? : ∀ key, arena.find? key =
    (List.range arena.slots.length).find? fun slot => holds key (arena.get? slot)
  /-- A key without slots is not in the index. -/
  noneEmpty : ∀ entry ∈ arena.index.entries, entry.2 ≠ []
  definitions : arena.toDocument.definitions = (List.range arena.slots.length).filterMap arena.get?

theorem slotsFrom_eq_filter (key : DefinitionKey) (first : Nat) (contents : List (Option Definition)) :
    slotsFrom key first contents =
      (List.range' first contents.length).filter fun slot => holds key contents[slot - first]?.join := by
  induction contents generalizing first with
  | nil => rfl
  | cons content rest ih =>
    -- A slot behind the first one has the same content, counted from the next slot.
    have hrest : ((List.range' (first + 1) rest.length).filter fun slot =>
        holds key (content :: rest)[slot - first]?.join) = slotsFrom key (first + 1) rest := by
      rw [ih]
      apply List.filter_congr
      intro slot hslot
      obtain ⟨hfirst, -⟩ := List.mem_range'_1.mp hslot
      have hplace : slot - first = slot - (first + 1) + 1 := by omega
      rw [hplace, List.getElem?_cons_succ]
    rw [slotsFrom, List.length_cons, List.range'_succ, List.filter_cons, hrest, Nat.sub_self,
      List.getElem?_cons_zero, Option.join_some]

theorem slotsOf_eq_slotsFrom (arena : Arena) (key : DefinitionKey) :
    arena.slotsOf key = slotsFrom key 0 arena.slots := by
  rw [slotsFrom_eq_filter, slotsOf, List.range_eq_range']
  rfl

theorem slots_eq_map_get? (arena : Arena) :
    arena.slots = (List.range arena.slots.length).map arena.get? := by
  apply List.ext_getElem
  · simp
  · intro slot hslot _
    simp [get?, List.getElem?_eq_getElem hslot]

/-- No key is kept in the index that has no slots. -/
def NoneEmpty (arena : Arena) : Prop := ∀ key, arena.index.get? key ≠ some []

theorem faithful_of_indexed {arena : Arena} (h : arena.Indexed) (hempty : arena.NoneEmpty) :
    arena.Faithful where
  findAll key := by rw [h key, slotsOf_eq_slotsFrom]
  find? key := by rw [Arena.find?, h key, ← slotsOf_eq_slotsFrom, slotsOf, List.head?_filter]
  noneEmpty := by
    rintro ⟨key, slots⟩ hmem rfl
    exact hempty key (OrderedMap.get?_of_mem hmem)
  definitions := by
    rw [definitions_toDocument, slots_eq_map_get?, List.filterMap_map, List.length_map,
      List.length_range]
    rfl

/-! ## What edits preserve -/

theorem NoneEmpty.push {arena : Arena} (h : arena.NoneEmpty) (definition : Definition) :
    (arena.push definition).NoneEmpty := by
  intro key
  simp only [Arena.push, OrderedMap.get?_insert]
  split
  · simp
  · exact h key

theorem NoneEmpty.remove {arena : Arena} (h : arena.NoneEmpty) (slot : Nat) :
    (arena.remove slot).NoneEmpty := by
  intro key
  unfold Arena.remove
  split
  · exact h key
  · next definition _ =>
    dsimp only
    split
    · -- The key has lost its last slot and leaves the index.
      rw [OrderedMap.get?_erase]
      split
      · simp
      · exact h key
    · next hsome =>
      rw [OrderedMap.get?_insert]
      split
      · simpa using hsome
      · exact h key

/-- The step: an edit that fits keeps the index right. -/
theorem Indexed.edit {arena : Arena} (h : arena.Indexed) {edit : Edit} (hfits : edit.Fits arena) :
    (arena.edit edit).Indexed := by
  cases edit with
  | push definition => exact h.push definition
  | remove slot =>
    cases hslot : arena.get? slot with
    | none =>
      -- An empty slot stays empty.
      have hsame : arena.edit (.remove slot) = arena := by simp [Arena.edit, Arena.remove, hslot]
      rw [hsame]
      exact h
    | some definition => exact h.remove hslot
  | replace slot definition =>
    obtain ⟨old, hslot, hkey⟩ := hfits
    exact h.replace hslot hkey

theorem NoneEmpty.edit {arena : Arena} (h : arena.NoneEmpty) (edit : Edit) :
    (arena.edit edit).NoneEmpty := by
  cases edit with
  | push definition => exact h.push definition
  | remove slot => exact h.remove slot
  | replace slot definition => exact h

/-- The run: so does any sequence of edits that fit. -/
theorem Indexed.run {arena : Arena} (h : arena.Indexed) {edits : List Edit}
    (hsound : Sound arena edits) : (arena.run edits).Indexed := by
  induction edits generalizing arena with
  | nil => exact h
  | cons edit rest ih => exact ih (h.edit hsound.1) hsound.2

theorem NoneEmpty.run {arena : Arena} (h : arena.NoneEmpty) (edits : List Edit) :
    (arena.run edits).NoneEmpty :=
  List.foldlRecOn (motive := NoneEmpty) edits Arena.edit h fun _ h edit _ => h.edit edit

theorem noneEmpty_ofDocument (document : Document) : (ofDocument document).NoneEmpty :=
  List.foldlRecOn (motive := NoneEmpty) document.definitions Arena.push
    (fun _ => nofun) fun _ h definition _ => h.push definition

/-- After sound edits of a document's arena the index says what the slots hold. -/
theorem faithful_run (document : Document) {edits : List Edit}
    (hsound : Sound (ofDocument document) edits) : ((ofDocument document).run edits).Faithful :=
  faithful_of_indexed ((indexed_ofDocument document).run hsound)
    ((noneEmpty_ofDocument document).run edits)

end Arena

/-! ## Reported edits -/

namespace Reported

open Arena (Edit Sound)

/-- Edits an arena and reports it. -/
def perform (arena : Arena) (edit : Edit) : Traced Edit Arena := ⟨arena.edit edit, [edit]⟩

/-- The edits of `foldSlot`. -/
def foldSlot (state : Arena × TypeDefinition) (slot : Nat) : Traced Edit (Arena × TypeDefinition) := do
  let (arena, into) := state
  match (arena.typeAt slot).value with
  | none => return state
  | some piece =>
    if piece.kind = into.kind then return (← perform arena (.remove slot), into.absorb piece)
    else return state

/-- The edits of `foldNodes`. -/
def foldNodes (arena : Arena) (type : String) :
    Traced Edit (Arena × Option (Nat × TypeDefinition)) := do
  match arena.findAll ⟨.type, type⟩ with
  | [] => return (arena, none)
  | first :: rest =>
    match (arena.typeAt first).value with
    | none => return (arena, none)
    | some into =>
      let (arena, folded) ← rest.foldlM foldSlot (arena, into)
      return (arena, some (first, folded))

/-- The edits of `mergeTypeDefinition`. -/
def mergeTypeDefinition (policy : Policy S) (sides : ScalarSides S) (state : MergeState S)
    (right : TypeDefinition) : Traced Edit (MergeState S) := do
  match ← foldNodes state.arena right.name with
  | (arena, none) => return { state with arena := ← perform arena (.push (.type right)) }
  | (arena, some (slot, left)) =>
    let (merged, answer) := (mergeType policy sides left right).value
    let answers := match answer with
      | some answer => state.answers.insert right.name answer
      | none => state.answers
    return ⟨← perform arena (.replace slot (.type merged)), answers⟩

/-- The edits of `mergeDirectiveDefinition`. -/
def mergeDirectiveDefinition (arena : Arena) (right : DirectiveDefinition) : Traced Edit Arena :=
  match arena.find? ⟨.directive, right.name⟩ with
  | some slot => perform arena (.replace slot (.directive right))
  | none => perform arena (.push (.directive right))

/-- The edits of `mergeSchemaDefinition`. -/
def mergeSchemaDefinition (arena : Arena) (right : SchemaDefinition) : Traced Edit Arena :=
  match arena.schema? with
  | some (slot, left) => perform arena (.replace slot (.schema (left.override right)))
  | none => perform arena (.push (.schema right))

/-- The edits of `mergeDefinition`. -/
def mergeDefinition (policy : Policy S) (sides : ScalarSides S) (state : MergeState S) :
    Definition → Traced Edit (MergeState S)
  | .type right => mergeTypeDefinition policy sides state right
  | .extension node => mergeTypeDefinition policy sides state node.toDefinition
  | .directive right => do
    return { state with arena := ← mergeDirectiveDefinition state.arena right }
  | .schema right => do
    return { state with arena := ← mergeSchemaDefinition state.arena right }

/-- The edits of `pareNode`. -/
def pareNode (state : PareState S) (slot : Nat) (asExtension : Bool) (left right : TypeDefinition) :
    Traced Edit (PareState S) :=
  if left.kind = .scalar then do
    return { state with
      arena := ← perform state.arena (.remove slot)
      scalars := state.scalars.erase right.name }
  else if left.body.collection ≠ right.body.collection then return state
  else do
    let (body, removed) := left.body.subtract right.body
    let paths := if left.kind = .union then [] else removed.map fun member => (right.name, member)
    let state := { state with removed := state.removed ++ paths }
    if removed.isEmpty then return state
    else if body.memberNames.isEmpty then
      return { state with arena := ← perform state.arena (.remove slot) }
    else
      let definition := Definition.ofType asExtension { left with body }
      return { state with arena := ← perform state.arena (.replace slot definition) }

/-- The edits of `pareSlot`. -/
def pareSlot (right : TypeDefinition) (state : PareState S) (slot : Nat) :
    Traced Edit (PareState S) :=
  match state.arena.get? slot with
  | none => return state
  | some definition =>
    match definition.typeDefinition? with
    | none => return state
    | some left => pareNode state slot definition.isExtension left right

/-- The edits of `pareTypeDefinition`. -/
def pareTypeDefinition (state : PareState S) (right : TypeDefinition) : Traced Edit (PareState S) :=
  match state.arena.findAll ⟨.type, right.name⟩ with
  | [] => do return { state with arena := ← perform state.arena (.push (.type right)) }
  | slots => slots.foldlM (pareSlot right) state

/-- The edits of `pareDefinition`. -/
def pareDefinition (state : PareState S) : Definition → Traced Edit (PareState S)
  | .type right => pareTypeDefinition state right
  | .extension node => pareTypeDefinition state node.toDefinition
  | .directive right =>
    match state.arena.find? ⟨.directive, right.name⟩ with
    | some _ => return state
    | none => do return { state with arena := ← perform state.arena (.push (.directive right)) }
  | .schema _ => return state

/-- The edits of `mergeBundles`. -/
def mergeBundles (policy : Policy S) (target source : Bundle R S) : Traced Edit (MergeState S) :=
  source.document.normalize.value.definitions.foldlM
    (mergeDefinition policy (scalarSides target source)) ⟨.ofDocument target.document, ∅⟩

/-- The edits of `pareBundles`. -/
def pareBundles (target source : Bundle R S) : Traced Edit (PareState S) :=
  source.document.normalize.value.definitions.foldlM pareDefinition
    ⟨.ofDocument target.document, [], target.scalars⟩

/-! ### The values are those of the functions that do not report -/

@[simp] theorem value_foldSlot (state : Arena × TypeDefinition) (slot : Nat) :
    (foldSlot state slot).value = (SchemaAlgebra.foldSlot (S := S) state slot).value := by
  obtain ⟨arena, into⟩ := state
  simp only [foldSlot, SchemaAlgebra.foldSlot, Traced.value_bind, Asking.value_liftM]
  cases (arena.typeAt slot).value with
  | none => rfl
  | some piece =>
    dsimp only
    split
    · simp [perform, Arena.edit, value_foldNode]
    · rfl

@[simp] theorem value_foldNodes (arena : Arena) (type : String) :
    (foldNodes arena type).value = (SchemaAlgebra.foldNodes (S := S) arena type).value := by
  unfold foldNodes SchemaAlgebra.foldNodes
  cases arena.findAll ⟨.type, type⟩ with
  | nil => rfl
  | cons first rest =>
    simp only [Traced.value_bind, Asking.value_liftM]
    cases (arena.typeAt first).value with
    | none => rfl
    | some into => simp [value_foldSlot (S := S)]

@[simp] theorem value_mergeTypeDefinition (policy : Policy S) (sides : ScalarSides S)
    (state : MergeState S) (right : TypeDefinition) :
    (mergeTypeDefinition policy sides state right).value =
      (SchemaAlgebra.mergeTypeDefinition policy sides state right).value := by
  simp only [mergeTypeDefinition, SchemaAlgebra.mergeTypeDefinition, Traced.value_bind,
    value_foldNodes (S := S)]
  rcases (SchemaAlgebra.foldNodes (S := S) state.arena right.name).value with ⟨arena, _ | ⟨slot, left⟩⟩
  · rfl
  · rfl

@[simp] theorem value_mergeDirectiveDefinition (arena : Arena) (right : DirectiveDefinition) :
    (mergeDirectiveDefinition arena right).value =
      (SchemaAlgebra.mergeDirectiveDefinition (S := S) arena right).value := by
  unfold mergeDirectiveDefinition SchemaAlgebra.mergeDirectiveDefinition
  cases arena.find? ⟨.directive, right.name⟩ <;> rfl

@[simp] theorem value_mergeSchemaDefinition (arena : Arena) (right : SchemaDefinition) :
    (mergeSchemaDefinition arena right).value =
      (SchemaAlgebra.mergeSchemaDefinition (S := S) arena right).value := by
  unfold mergeSchemaDefinition SchemaAlgebra.mergeSchemaDefinition
  rcases arena.schema? with _ | ⟨slot, left⟩
  · rfl
  · simp [perform, Arena.edit, value_mergeSchemaDefinitions]

theorem value_mergeDefinition (policy : Policy S) (sides : ScalarSides S) (state : MergeState S)
    (right : Definition) :
    (mergeDefinition policy sides state right).value =
      (SchemaAlgebra.mergeDefinition policy sides state right).value := by
  cases right with
  | type right => exact value_mergeTypeDefinition policy sides state right
  | extension node => exact value_mergeTypeDefinition policy sides state node.toDefinition
  | directive right =>
    simp [mergeDefinition, SchemaAlgebra.mergeDefinition, value_mergeDirectiveDefinition (S := S)]
  | schema right =>
    simp [mergeDefinition, SchemaAlgebra.mergeDefinition, value_mergeSchemaDefinition (S := S)]

theorem value_pareNode (state : PareState S) (slot : Nat) (asExtension : Bool)
    (left right : TypeDefinition) :
    (pareNode state slot asExtension left right).value =
      (SchemaAlgebra.pareNode state slot asExtension left right).value := by
  unfold pareNode SchemaAlgebra.pareNode
  split
  · rfl
  · split
    · rfl
    · dsimp only
      split
      · rfl
      · split <;> rfl

theorem value_pareSlot (right : TypeDefinition) (state : PareState S) (slot : Nat) :
    (pareSlot right state slot).value = (SchemaAlgebra.pareSlot right state slot).value := by
  unfold pareSlot SchemaAlgebra.pareSlot
  cases state.arena.get? slot with
  | none => rfl
  | some definition =>
    simp only [Traced.value_bind, Definition.value_normalizedType?]
    cases definition.typeDefinition? with
    | none => rfl
    | some left => exact value_pareNode ..

theorem value_pareTypeDefinition (state : PareState S) (right : TypeDefinition) :
    (pareTypeDefinition state right).value =
      (SchemaAlgebra.pareTypeDefinition state right).value := by
  unfold pareTypeDefinition SchemaAlgebra.pareTypeDefinition
  cases state.arena.findAll ⟨.type, right.name⟩ with
  | nil => rfl
  | cons first rest => simp [value_pareSlot]

theorem value_pareDefinition (state : PareState S) (right : Definition) :
    (pareDefinition state right).value = (SchemaAlgebra.pareDefinition state right).value := by
  cases right with
  | type right => exact value_pareTypeDefinition state right
  | extension node => exact value_pareTypeDefinition state node.toDefinition
  | directive right =>
    unfold pareDefinition SchemaAlgebra.pareDefinition
    dsimp only
    cases state.arena.find? ⟨.directive, right.name⟩ <;> rfl
  | schema right => rfl

/-! ### The edits fit -/

/-- The edits of a computation that starts with an arena are sound and lead to the arena of its value. -/
structure Accounts {β : Type} (start : Arena) (arenaOf : β → Arena) (x : Traced Edit β) : Prop where
  sound : Sound start x.events
  reaches : start.run x.events = arenaOf x.value

section Accounts

variable {β γ : Type} {start : Arena} {arenaOf : β → Arena}

theorem accounts_pure {value : β} (h : arenaOf value = start) : Accounts start arenaOf (pure value) :=
  ⟨trivial, h.symm⟩

theorem accounts_perform {arena : Arena} {edit : Edit} (hfits : edit.Fits arena) :
    Accounts arena id (perform arena edit) := ⟨⟨hfits, trivial⟩, rfl⟩

theorem accounts_push (arena : Arena) (definition : Definition) :
    Accounts arena id (perform arena (.push definition)) := accounts_perform trivial

theorem accounts_remove (arena : Arena) (slot : Nat) :
    Accounts arena id (perform arena (.remove slot)) := accounts_perform trivial

theorem accounts_replace {arena : Arena} {slot : Nat} {old new : Definition}
    (hslot : arena.get? slot = some old) (hkey : new.key = old.key) :
    Accounts arena id (perform arena (.replace slot new)) := accounts_perform ⟨old, hslot, hkey⟩

theorem Accounts.bind {x : Traced Edit β} (h : Accounts start arenaOf x) {arenaAfter : γ → Arena}
    {f : β → Traced Edit γ} (hf : Accounts (arenaOf x.value) arenaAfter (f x.value)) :
    Accounts start arenaAfter (x >>= f) where
  sound := Arena.sound_append_iff.mpr ⟨h.sound, h.reaches.symm ▸ hf.sound⟩
  reaches := by rw [Traced.events_bind, Arena.run_append, h.reaches, hf.reaches, Traced.value_bind]

/-- A loop accounts for its edits if each of its steps does.  The arena stays indexed on the way. -/
theorem accounts_foldlM {step : β → γ → Traced Edit β}
    (hstep : ∀ state item, (arenaOf state).Indexed → Accounts (arenaOf state) arenaOf (step state item))
    (items : List γ) {state : β} (h : start.Indexed) (hstart : arenaOf state = start) :
    Accounts start arenaOf (items.foldlM step state) := by
  induction items generalizing start state with
  | nil => exact accounts_pure hstart
  | cons item rest ih =>
    subst hstart
    have hfirst := hstep state item h
    rw [List.foldlM_cons]
    exact hfirst.bind (ih (hfirst.reaches ▸ h.run hfirst.sound) rfl)

end Accounts

theorem foldSlot_accounts (state : Arena × TypeDefinition) (slot : Nat) :
    Accounts state.1 Prod.fst (foldSlot state slot) := by
  obtain ⟨arena, into⟩ := state
  unfold foldSlot
  dsimp only
  split
  · exact accounts_pure rfl
  · split
    · exact (accounts_remove _ _).bind (accounts_pure rfl)
    · exact accounts_pure rfl

theorem foldNodes_accounts {arena : Arena} (h : arena.Indexed) (type : String) :
    Accounts arena Prod.fst (foldNodes arena type) := by
  unfold foldNodes
  split
  · exact accounts_pure rfl
  · split
    · exact accounts_pure rfl
    · exact (accounts_foldlM (fun state slot _ => foldSlot_accounts state slot) _ h rfl).bind
        (accounts_pure rfl)

/-- The gathered node overwrites the first node of its type, which is still in its slot. -/
theorem mergeTypeDefinition_accounts (policy : Policy S) (sides : ScalarSides S)
    {state : MergeState S} (h : state.arena.Indexed) (right : TypeDefinition) :
    Accounts state.arena MergeState.arena (mergeTypeDefinition policy sides state right) := by
  refine (foldNodes_accounts h right.name).bind ?_
  rw [value_foldNodes (S := S)]
  cases hfind : state.arena.findAll ⟨.type, right.name⟩ with
  | nil =>
    have hnodes : (SchemaAlgebra.foldNodes (S := S) state.arena right.name).value =
        (state.arena, none) := by
      simp [SchemaAlgebra.foldNodes, hfind]
    rw [hnodes]
    exact (accounts_push _ _).bind (accounts_pure rfl)
  | cons slot more =>
    obtain ⟨front, first, back, hslots, hkey, rfl, -, rfl⟩ := h.exists_split hfind
    obtain ⟨left, hleft, hname⟩ := Definition.exists_typeDefinition? hkey
    obtain ⟨folded, -, hfolded, hnodes⟩ := foldNodes_refines (S := S) h hslots hfind hleft hname
    rw [hnodes]
    refine (accounts_replace (Arena.get?_of_slots hfolded) ?_).bind (accounts_pure rfl)
    rw [hkey, Definition.key_type, name_mergeType, TypeDefinition.name_gather, hname]

theorem mergeDirectiveDefinition_accounts {arena : Arena} (h : arena.Indexed)
    (right : DirectiveDefinition) : Accounts arena id (mergeDirectiveDefinition arena right) := by
  unfold mergeDirectiveDefinition
  split
  next slot hfind =>
    obtain ⟨more, hall⟩ := List.head?_eq_some_iff.mp hfind
    obtain ⟨front, first, back, hslots, hkey, rfl, -, -⟩ := h.exists_split hall
    exact accounts_replace (Arena.get?_of_slots hslots) hkey.symm
  next => exact accounts_push _ _

theorem mergeSchemaDefinition_accounts (arena : Arena) (right : SchemaDefinition) :
    Accounts arena id (mergeSchemaDefinition arena right) := by
  unfold mergeSchemaDefinition
  split
  next slot left hschema =>
    -- The slot that is found has been looked into already.
    have hslot : arena.get? slot = some (.schema left) := by
      unfold Arena.schema? at hschema
      split at hschema
      · cases hschema
      · split at hschema
        · next hget =>
          cases hschema
          exact hget
        · cases hschema
    exact accounts_replace hslot rfl
  next => exact accounts_push _ _

/-- The edits of one step of a merge. -/
theorem mergeDefinition_accounts (policy : Policy S) (sides : ScalarSides S) (state : MergeState S)
    (right : Definition) (h : state.arena.Indexed) :
    Accounts state.arena MergeState.arena (mergeDefinition policy sides state right) := by
  cases right with
  | type right => exact mergeTypeDefinition_accounts policy sides h right
  | extension node => exact mergeTypeDefinition_accounts policy sides h node.toDefinition
  | directive right => exact (mergeDirectiveDefinition_accounts h right).bind (accounts_pure rfl)
  | schema right => exact (mergeSchemaDefinition_accounts _ right).bind (accounts_pure rfl)

theorem pareNode_accounts {state : PareState S} {slot : Nat} {definition : Definition}
    {left : TypeDefinition} (right : TypeDefinition) (hslot : state.arena.get? slot = some definition)
    (hleft : definition.typeDefinition? = some left) :
    Accounts state.arena PareState.arena
      (pareNode state slot definition.isExtension left right) := by
  unfold pareNode
  split
  · exact (accounts_remove _ _).bind (accounts_pure rfl)
  · split
    · exact accounts_pure rfl
    · dsimp only
      split
      · exact accounts_pure rfl
      · split
        · exact (accounts_remove _ _).bind (accounts_pure rfl)
        · -- What is left of a node goes back to its slot in the form that it was taken in.
          refine (accounts_replace hslot ?_).bind (accounts_pure rfl)
          rw [Definition.key_ofType, Definition.key_of_typeDefinition? hleft]

theorem pareSlot_accounts (right : TypeDefinition) (state : PareState S) (slot : Nat) :
    Accounts state.arena PareState.arena (pareSlot right state slot) := by
  unfold pareSlot
  split
  · exact accounts_pure rfl
  next definition hslot =>
    split
    · exact accounts_pure rfl
    next left hleft => exact pareNode_accounts right hslot hleft

theorem pareTypeDefinition_accounts {state : PareState S} (h : state.arena.Indexed)
    (right : TypeDefinition) :
    Accounts state.arena PareState.arena (pareTypeDefinition state right) := by
  unfold pareTypeDefinition
  split
  · exact (accounts_push _ _).bind (accounts_pure rfl)
  -- The slots were looked up before the first of them was emptied; each is looked into again.
  · exact accounts_foldlM (fun state slot _ => pareSlot_accounts right state slot) _ h rfl

/-- The edits of one step of a pare. -/
theorem pareDefinition_accounts (state : PareState S) (right : Definition) (h : state.arena.Indexed) :
    Accounts state.arena PareState.arena (pareDefinition state right) := by
  cases right with
  | type right => exact pareTypeDefinition_accounts h right
  | extension node => exact pareTypeDefinition_accounts h node.toDefinition
  | directive right =>
    unfold pareDefinition
    dsimp only
    split
    · exact accounts_pure rfl
    · exact (accounts_push _ _).bind (accounts_pure rfl)
  | schema right => exact accounts_pure rfl

/-! ### Whole runs -/

theorem mergeBundles_accounts (policy : Policy S) (target source : Bundle R S) :
    Accounts (.ofDocument target.document) MergeState.arena (mergeBundles policy target source) :=
  accounts_foldlM (mergeDefinition_accounts policy _) _ (Arena.indexed_ofDocument _) rfl

theorem pareBundles_accounts (target source : Bundle R S) :
    Accounts (.ofDocument target.document) PareState.arena (pareBundles target source) :=
  accounts_foldlM pareDefinition_accounts _ (Arena.indexed_ofDocument _) rfl

theorem value_mergeBundles (policy : Policy S) (target source : Bundle R S) :
    (mergeBundles policy target source).value =
      (mergeRun policy target source source.document.normalize.value.definitions).value := by
  simp [mergeBundles, mergeRun, value_mergeDefinition]

theorem document_pareBundles (target source : Bundle R S) :
    (pareBundles target source).value.arena.toDocument =
      (SchemaAlgebra.pareBundles target source).value.document := by
  simp [pareBundles, SchemaAlgebra.pareBundles, value_pareDefinition]

end Reported

/-- A run of edits is one that a document's arena goes through on the way to another document. -/
structure EditsSoundly (before after : Document) (edits : List Arena.Edit) : Prop where
  sound : Arena.Sound (.ofDocument before) edits
  reaches : ((Arena.ofDocument before).run edits).toDocument = after

/-- After sound edits of a document's arena, the index lists exactly the slots of each key, in increasing
order, finds the first of them, and keeps no key without slots; the document is what stands in the slots.
All edits of a merge, under any policy, and of a pare are sound. -/
theorem arena_staysFaithful :
    (∀ (document : Document) (edits : List Arena.Edit),
      Arena.Sound (.ofDocument document) edits → ((Arena.ofDocument document).run edits).Faithful) ∧
    (∀ (policy : Policy S) (target source : Bundle R S),
      EditsSoundly target.document (mergeBundles policy target source).value.document
        (Reported.mergeBundles policy target source).events) ∧
    (∀ target source : Bundle R S,
      EditsSoundly target.document (pareBundles target source).value.document
        (Reported.pareBundles target source).events) := by
  refine ⟨fun document edits => Arena.faithful_run document, fun policy target source => ?_,
    fun target source => ?_⟩
  · obtain ⟨hsound, hreaches⟩ := Reported.mergeBundles_accounts policy target source
    refine ⟨hsound, ?_⟩
    rw [hreaches, Reported.value_mergeBundles, document_mergeBundles]
  · obtain ⟨hsound, hreaches⟩ := Reported.pareBundles_accounts target source
    refine ⟨hsound, ?_⟩
    rw [hreaches, Reported.document_pareBundles]

/-- The first node of a type is removed, a later one is overwritten by an extension, one is added, and an
empty slot is removed once more. -/
theorem arena_splitType_staysFaithful :
    let document : Document := ⟨[.type ⟨none, "A", [], .enum []⟩, .type ⟨none, "B", [], .scalar⟩,
      .extension ⟨"A", [⟨"x", []⟩], .enum []⟩]⟩
    let edits : List Arena.Edit := [.remove 0, .replace 2 (.extension ⟨"A", [⟨"y", []⟩], .enum []⟩),
      .push (.type ⟨none, "A", [], .scalar⟩), .remove 0]
    Arena.Sound (.ofDocument document) edits ∧ ((Arena.ofDocument document).run edits).Faithful ∧
      ((Arena.ofDocument document).run edits).findAll ⟨.type, "A"⟩ = [2, 3] :=
  have hsound := ⟨trivial, ⟨_, rfl, rfl⟩, trivial, trivial, trivial⟩
  ⟨hsound, (arena_staysFaithful (R := Unit) (S := Unit)).1 _ _ hsound, by decide +kernel⟩

end SchemaAlgebra
