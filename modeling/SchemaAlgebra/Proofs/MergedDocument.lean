import SchemaAlgebra.Merge
import SchemaAlgebra.Proofs.Nodes
import SchemaAlgebra.Proofs.Slots
import SchemaAlgebra.Proofs.TypeNodes

/-!
# The document of a merge

A merge works on an arena: it looks slots up in an index, empties some of them and overwrites
others.  Here the same is said about plain lists of definitions: `mergeInto` merges one definition
of the source into the definitions so far, and the merged document is the fold of `mergeInto` over
the source.

## Main statements

* `CarriesOver.foldl_mergeInto`: what the definitions of both sides have in common.
* `mergeDefinition_refines`: one step on an indexed arena is a step on its definitions.
* `definitions_mergeBundles`: the document of a whole merge, for any policy.
* `definitions_mergeBundles_rightWins`: the same if the source wins.
-/

namespace SchemaAlgebra

variable {R S : Type}

/-! ## Merging into a list of definitions -/

/-- Changes a list of definitions from the first one of a key on.  If there is none, something is
added at the end. -/
def atFirst (key : DefinitionKey) (found : Definition → List Definition → List Definition)
    (added : List Definition) : List Definition → List Definition
  | [] => added
  | definition :: rest =>
    if definition.key = key then found definition rest
    else definition :: atFirst key found added rest

/-- A later definition as a node that is gathered with a type node: a node of the same type and of
the same kind. -/
def TypeDefinition.piece? (into : TypeDefinition) (definition : Definition) :
    Option TypeDefinition :=
  definition.typeDefinition?.filter fun node => node.name = into.name ∧ node.kind = into.kind

/-- A type node with what later nodes of its type and kind bring. -/
def TypeDefinition.gather (into : TypeDefinition) (later : List Definition) : TypeDefinition :=
  (later.filterMap into.piece?).foldl absorb into

/-- Merges a source node into the first node of its type, with which the later ones of its kind are
gathered. -/
def mergeTypeInto (join : TypeDefinition → TypeDefinition → TypeDefinition)
    (definitions : List Definition) (right : TypeDefinition) : List Definition :=
  atFirst ⟨.type, right.name⟩
    (fun first later =>
      match first.typeDefinition? with
      | some left =>
        .type (join (left.gather later) right) ::
          later.filter fun definition => (left.piece? definition).isNone
      | none => first :: later)
    [.type right] definitions

/-- Replaces the first definition of a directive. -/
def mergeDirectiveInto (definitions : List Definition) (right : DirectiveDefinition) :
    List Definition :=
  atFirst ⟨.directive, right.name⟩ (fun _ later => .directive right :: later) [.directive right]
    definitions

/-- Merges two schema definitions; the right one wins, operation by operation. -/
def SchemaDefinition.override (left right : SchemaDefinition) : SchemaDefinition where
  directives := lastWins left.directives right.directives
  query := right.query.or left.query
  mutation := right.mutation.or left.mutation
  subscription := right.subscription.or left.subscription

/-- Merges a schema definition into the first one. -/
def mergeSchemaInto (definitions : List Definition) (right : SchemaDefinition) : List Definition :=
  atFirst ⟨.schema, ""⟩
    (fun first later =>
      match first with
      | .schema left => .schema (left.override right) :: later
      | _ => first :: later)
    [.schema right] definitions

/-- Merges a definition of the source into the definitions so far.  `join` merges two nodes of a
type. -/
def mergeInto (join : TypeDefinition → TypeDefinition → TypeDefinition)
    (definitions : List Definition) : Definition → List Definition
  | .type right => mergeTypeInto join definitions right
  | .extension node => mergeTypeInto join definitions node.toDefinition
  | .directive right => mergeDirectiveInto definitions right
  | .schema right => mergeSchemaInto definitions right

section AtFirst

variable {key : DefinitionKey} {found : Definition → List Definition → List Definition}
  {added : List Definition}

theorem atFirst_of_absent {definitions : List Definition}
    (h : ∀ definition ∈ definitions, definition.key ≠ key) :
    atFirst key found added definitions = definitions ++ added := by
  induction definitions with
  | nil => rfl
  | cons definition rest ih =>
    have hrest := ih fun other hother => h other (List.mem_cons_of_mem _ hother)
    simp [atFirst, h definition List.mem_cons_self, hrest]

theorem atFirst_of_split {front : List Definition} {definition : Definition}
    (later : List Definition) (hfront : ∀ earlier ∈ front, earlier.key ≠ key)
    (hkey : definition.key = key) :
    atFirst key found added (front ++ definition :: later) = front ++ found definition later := by
  induction front with
  | nil => simp [atFirst, hkey]
  | cons earlier rest ih =>
    have hrest := ih fun other hother => hfront other (List.mem_cons_of_mem _ hother)
    simp [atFirst, hfront earlier List.mem_cons_self, hrest]

/-- What holds of all definitions still does after a change that keeps it from the first definition of
a key on. -/
theorem forall_mem_atFirst {property : Definition → Prop}
    (hfound : ∀ first later, property first → (∀ definition ∈ later, property definition) →
      ∀ definition ∈ found first later, property definition)
    (hadded : ∀ definition ∈ added, property definition) {definitions : List Definition}
    (h : ∀ definition ∈ definitions, property definition) :
    ∀ definition ∈ atFirst key found added definitions, property definition := by
  induction definitions with
  | nil => exact hadded
  | cons first rest ih =>
    obtain ⟨hfirst, hrest⟩ := List.forall_mem_cons.mp h
    unfold atFirst
    split
    · exact hfound first rest hfirst hrest
    · exact List.forall_mem_cons.mpr ⟨hfirst, ih hrest⟩

/-- What happens at the first definition of a key leaves the definitions of another key alone, if it
does so behind that definition. -/
theorem carrying_atFirst_of_ne {other : DefinitionKey} (hne : key ≠ other)
    (hfound : ∀ first later, first.key = key →
      carrying other (found first later) = carrying other later)
    (hadded : carrying other added = []) (definitions : List Definition) :
    carrying other (atFirst key found added definitions) = carrying other definitions := by
  rcases exists_first key definitions with habsent | ⟨front, first, later, rfl, hkey, hfront⟩
  · rw [atFirst_of_absent habsent, carrying_append, hadded, List.append_nil]
  · have hother : ¬ first.key = other := fun e => hne (hkey.symm.trans e)
    rw [atFirst_of_split later hfront hkey, carrying_append, hfound first later hkey,
      carrying_append, carrying_cons, if_neg hother]

end AtFirst

/-! ## Gathering in an arena -/

namespace TypeDefinition

variable (into : TypeDefinition)

theorem piece?_absorb (piece : TypeDefinition) : (into.absorb piece).piece? = into.piece? := by
  funext definition
  simp [piece?]

/-- Only nodes of the same type are pieces. -/
theorem piece?_eq_none {into : TypeDefinition} {definition : Definition}
    (h : definition.key ≠ ⟨.type, into.name⟩) : into.piece? definition = none := by
  unfold piece?
  cases hnode : definition.typeDefinition? with
  | none => rfl
  | some node =>
    have hname : ¬ node.name = into.name := fun e =>
      h (by rw [Definition.key_of_typeDefinition? hnode, e])
    simp [Option.filter, hname]

/-- A node of the same type and of the same kind is a piece. -/
theorem piece?_of_kind {into piece : TypeDefinition} {definition : Definition}
    (hpiece : definition.typeDefinition? = some piece) (hname : piece.name = into.name)
    (hkind : piece.kind = into.kind) : into.piece? definition = some piece := by
  simp [piece?, hpiece, Option.filter, hname, hkind]

theorem gather_cons (definition : Definition) (later : List Definition) :
    into.gather (definition :: later) = (into.gather [definition]).gather later := by
  cases hpiece : into.piece? definition with
  | none => simp [gather, hpiece]
  | some piece => simp [gather, hpiece, piece?_absorb]

/-- Gathering keeps what depends on name and kind only. -/
theorem gather_induction {motive : TypeDefinition → Prop} (later : List Definition)
    (hinto : motive into) (habsorb : ∀ node piece, motive node → motive (node.absorb piece)) :
    motive (into.gather later) := by
  unfold gather
  induction later.filterMap into.piece? generalizing into with
  | nil => exact hinto
  | cons piece rest ih => exact ih (into.absorb piece) (habsorb into piece hinto)

@[simp] theorem name_gather (later : List Definition) : (into.gather later).name = into.name :=
  into.gather_induction later (motive := fun node => node.name = into.name) rfl
    fun _ _ h => h

@[simp] theorem kind_gather (later : List Definition) : (into.gather later).kind = into.kind :=
  into.gather_induction later (motive := fun node => node.kind = into.kind) rfl
    fun node piece h => (node.kind_absorb piece).trans h

/-- What is left in a slot when the pieces of a node have been gathered. -/
def leave (content : Option Definition) : Option Definition :=
  content.filter fun definition => (into.piece? definition).isNone

theorem leave_gather (later : List Definition) : (into.gather later).leave = into.leave := by
  funext content
  simp [leave, piece?]

theorem filterMap_leave (contents : List (Option Definition)) :
    (contents.map into.leave).filterMap id =
      (contents.filterMap id).filter fun definition => (into.piece? definition).isNone := by
  induction contents with
  | nil => rfl
  | cons content rest ih =>
    cases content with
    | none => exact ih
    | some definition =>
      show ((into.leave (some definition)) :: rest.map into.leave).filterMap id =
        (definition :: rest.filterMap id).filter _
      cases hpiece : into.piece? definition with
      | none =>
        have hstays : into.leave (some definition) = some definition := by
          simp [leave, Option.filter, hpiece]
        rw [hstays, List.filter_cons_of_pos (by rw [hpiece]; rfl), ← ih]
        rfl
      | some piece =>
        have hgoes : into.leave (some definition) = none := by
          simp [leave, Option.filter, hpiece]
        rw [hgoes, List.filter_cons_of_neg (by rw [hpiece]; exact Bool.false_ne_true), ← ih]
        rfl

end TypeDefinition

/-- Merging a definition leaves the definitions of other keys alone, if merged nodes keep their
names. -/
theorem carrying_mergeInto_of_ne {join : TypeDefinition → TypeDefinition → TypeDefinition}
    (hjoin : ∀ left right, (join left right).name = left.name) {key : DefinitionKey}
    {right : Definition} (h : right.key ≠ key) (definitions : List Definition) :
    carrying key (mergeInto join definitions right) = carrying key definitions := by
  have htype : ∀ node : TypeDefinition, (⟨.type, node.name⟩ : DefinitionKey) ≠ key →
      carrying key (mergeTypeInto join definitions node) = carrying key definitions := by
    intro node hne
    apply carrying_atFirst_of_ne hne
    · intro first later hfirst
      obtain ⟨left, hleft, hname⟩ := Definition.exists_typeDefinition? hfirst
      have hleftKey : (⟨.type, left.name⟩ : DefinitionKey) ≠ key := by rwa [hname]
      have hmerged : ¬ (Definition.type (join (left.gather later) node)).key = key := by
        rwa [Definition.key_type, hjoin, TypeDefinition.name_gather]
      simp only [hleft]
      rw [carrying_cons, if_neg hmerged, carrying, carrying, List.filter_filter]
      -- What is gathered has the type of the first node, and so not the other key.
      apply List.filter_congr
      intro definition _
      by_cases hkey : definition.key = key
      · simp [hkey, TypeDefinition.piece?_eq_none fun e => hleftKey (e.symm.trans hkey)]
      · simp [hkey]
    · simp [carrying, hne]
  cases right with
  | type right => exact htype right h
  | extension node => exact htype node.toDefinition h
  | directive right =>
    apply carrying_atFirst_of_ne h
    · intro _ later _
      rw [carrying_cons, if_neg h]
    · rw [carrying_cons, if_neg h]
      rfl
  | schema right =>
    apply carrying_atFirst_of_ne h
    · intro first later hfirst
      obtain ⟨left, rfl⟩ := Definition.exists_schema hfirst
      show carrying key (.schema (left.override right) :: later) = carrying key later
      rw [carrying_cons, if_neg (by exact h)]
    · rw [carrying_cons, if_neg (by exact h)]
      rfl

/-! ## What all definitions have in common -/

/-- A property of definitions that nodes keep when they are put together: when they are normalized,
gathered and merged. -/
structure CarriesOver (property : Definition → Prop)
    (join : TypeDefinition → TypeDefinition → TypeDefinition) : Prop where
  node : ∀ {definition node}, definition.typeDefinition? = some node → property definition →
    property (.type node)
  absorb : ∀ {into piece : TypeDefinition}, property (.type into) → property (.type piece) →
    property (.type (into.absorb piece))
  join : ∀ {left right}, property (.type left) → property (.type right) →
    property (.type (join left right))
  schema : ∀ {left right : SchemaDefinition}, property (.schema left) → property (.schema right) →
    property (.schema (left.override right))

namespace CarriesOver

variable {property : Definition → Prop} {join : TypeDefinition → TypeDefinition → TypeDefinition}

theorem gather (h : CarriesOver property join) {into : TypeDefinition} (hinto : property (.type into))
    {later : List Definition} (hlater : ∀ definition ∈ later, property definition) :
    property (.type (into.gather later)) := by
  have hpieces : ∀ piece ∈ later.filterMap into.piece?, property (.type piece) := by
    intro piece hmem
    obtain ⟨definition, hdefinition, hpiece⟩ := List.mem_filterMap.mp hmem
    exact h.node (Option.filter_eq_some_iff.mp hpiece).1 (hlater definition hdefinition)
  exact List.foldlRecOn (motive := fun node => property (.type node)) _ _ hinto
    fun node hnode piece hmem => h.absorb hnode (hpieces piece hmem)

theorem mergeTypeInto (h : CarriesOver property join) {definitions : List Definition}
    (hdefinitions : ∀ definition ∈ definitions, property definition) {right : TypeDefinition}
    (hright : property (.type right)) :
    ∀ definition ∈ mergeTypeInto join definitions right, property definition := by
  refine forall_mem_atFirst (fun first later hfirst hlater => ?_)
    (List.forall_mem_singleton.mpr hright) hdefinitions
  split
  next left hleft =>
    -- What is gathered leaves its place; what stays behind was there before.
    have hgathered := h.gather (h.node hleft hfirst) hlater
    refine List.forall_mem_cons.mpr ⟨h.join hgathered hright, fun definition hmem => ?_⟩
    exact hlater definition (List.mem_filter.mp hmem).1
  next => exact List.forall_mem_cons.mpr ⟨hfirst, hlater⟩

/-- The step: merging a definition that has the property. -/
theorem mergeInto (h : CarriesOver property join) {definitions : List Definition}
    (hdefinitions : ∀ definition ∈ definitions, property definition) {right : Definition}
    (hright : property right) :
    ∀ definition ∈ mergeInto join definitions right, property definition := by
  cases right with
  | type right => exact h.mergeTypeInto hdefinitions hright
  | extension node => exact h.mergeTypeInto hdefinitions (h.node rfl hright)
  | directive right =>
    exact forall_mem_atFirst (fun _ _ _ hlater => List.forall_mem_cons.mpr ⟨hright, hlater⟩)
      (List.forall_mem_singleton.mpr hright) hdefinitions
  | schema right =>
    refine forall_mem_atFirst (fun first later hfirst hlater => ?_)
      (List.forall_mem_singleton.mpr hright) hdefinitions
    split
    next left => exact List.forall_mem_cons.mpr ⟨h.schema hfirst hright, hlater⟩
    next => exact List.forall_mem_cons.mpr ⟨hfirst, hlater⟩

/-- The run: merging a source all of whose definitions have the property. -/
theorem foldl_mergeInto (h : CarriesOver property join) {definitions source : List Definition}
    (hdefinitions : ∀ definition ∈ definitions, property definition)
    (hsource : ∀ definition ∈ source, property definition) :
    ∀ definition ∈ source.foldl (SchemaAlgebra.mergeInto join) definitions, property definition :=
  List.foldlRecOn (motive := fun merged => ∀ definition ∈ merged, property definition) source _
    hdefinitions fun _ hmerged right hmem => h.mergeInto hmerged (hsource right hmem)

end CarriesOver

/-! ## Gathering in slots -/

/-- Gathering the node in one slot. -/
theorem foldSlot_refines {front back : List (Option Definition)} {arena : Arena}
    {into : TypeDefinition} {definition : Definition} (harena : arena.Indexed)
    (hslots : arena.slots = front ++ some definition :: back)
    (hkey : definition.key = ⟨.type, into.name⟩) :
    let folded := (foldSlot (S := S) (arena, into) front.length).value
    folded.1.Indexed ∧ folded.1.slots = front ++ into.leave (some definition) :: back ∧
      folded.2 = into.gather [definition] := by
  have hslot : arena.get? front.length = some definition := Arena.get?_of_slots hslots
  obtain ⟨piece, hpiece, hname⟩ := Definition.exists_typeDefinition? hkey
  by_cases hkind : piece.kind = into.kind
  · -- The piece goes into the node and out of its slot.
    have hpieceOf : into.piece? definition = some piece :=
      TypeDefinition.piece?_of_kind hpiece hname hkind
    have hstep : (foldSlot (S := S) (arena, into) front.length).value =
        (arena.remove front.length, into.absorb piece) := by
      simp [foldSlot, Arena.typeAt, hslot, hpiece, hkind]
    rw [hstep]
    refine ⟨harena.remove hslot, ?_, ?_⟩
    · simp [Arena.slots_remove hslot, hslots, TypeDefinition.leave, Option.filter, hpieceOf]
    · simp [TypeDefinition.gather, hpieceOf]
  · -- A node of another kind stays where it is.
    have hpieceOf : into.piece? definition = none := by
      simp [TypeDefinition.piece?, hpiece, Option.filter, hkind]
    have hstep : (foldSlot (S := S) (arena, into) front.length).value = (arena, into) := by
      simp [foldSlot, Arena.typeAt, hslot, hpiece, hkind]
    rw [hstep]
    refine ⟨harena, ?_, ?_⟩
    · simp [hslots, TypeDefinition.leave, Option.filter, hpieceOf]
    · simp [TypeDefinition.gather, hpieceOf]

/-- Gathering along the slots of a type.  The slots in `front` are behind us and stay as they are;
the induction is on the slots ahead. -/
theorem foldl_foldSlot_refines (back front : List (Option Definition)) {arena : Arena}
    (into : TypeDefinition) (harena : arena.Indexed) (hslots : arena.slots = front ++ back) :
    let folded := (Arena.slotsFrom ⟨.type, into.name⟩ front.length back).foldl
      (fun state slot => (foldSlot (S := S) state slot).value) (arena, into)
    folded.1.Indexed ∧ folded.1.slots = front ++ back.map into.leave ∧
      folded.2 = into.gather (back.filterMap id) := by
  induction back generalizing front arena into with
  | nil =>
    refine ⟨harena, ?_, rfl⟩
    show arena.slots = _
    simpa using hslots
  | cons content rest ih =>
    by_cases hholds : Arena.holds ⟨.type, into.name⟩ content
    · -- The slot belongs to the type.  What its definition leaves there is behind us for the rest.
      obtain ⟨definition, rfl, hkey⟩ :
          ∃ definition, content = some definition ∧ definition.key = ⟨.type, into.name⟩ := by
        simpa [Arena.holds, Option.any_eq_true] using hholds
      obtain ⟨hindexed, hfolded, hinto⟩ := foldSlot_refines (S := S) harena hslots hkey
      have hnext := ih (front ++ [into.leave (some definition)]) (into.gather [definition]) hindexed
        (by simpa using hfolded)
      simp only [Arena.slotsFrom, hholds, if_true, List.foldl_cons, List.map_cons,
        List.filterMap_cons, id]
      rw [into.gather_cons, ← Prod.eta (foldSlot (arena, into) front.length).value, hinto]
      simpa [TypeDefinition.leave_gather] using hnext
    · -- The slot belongs to another key, so it is not visited.
      have hnext := ih (front ++ [content]) into harena (by simpa using hslots)
      simp only [Arena.slotsFrom, hholds]
      cases content with
      | none => simpa [TypeDefinition.leave] using hnext
      | some definition =>
        have hkey : definition.key ≠ ⟨.type, into.name⟩ := by
          simpa [Arena.holds] using hholds
        simpa [TypeDefinition.gather, TypeDefinition.leave, TypeDefinition.piece?_eq_none hkey,
          Option.filter] using hnext

/-- Gathering the nodes of a type, whose first slot takes the arena apart. -/
theorem foldNodes_refines {arena : Arena} (harena : arena.Indexed) {type : String}
    {front back : List (Option Definition)} {first : Definition} {left : TypeDefinition}
    (hslots : arena.slots = front ++ some first :: back)
    (hfind : arena.findAll ⟨.type, type⟩ =
      front.length :: Arena.slotsFrom ⟨.type, type⟩ (front.length + 1) back)
    (hleft : first.typeDefinition? = some left) (hname : left.name = type) :
    ∃ folded : Arena, folded.Indexed ∧
      folded.slots = front ++ some first :: back.map left.leave ∧
      (foldNodes (S := S) arena type).value =
        (folded, some (front.length, left.gather (back.filterMap id))) := by
  subst hname
  have hslot : arena.get? front.length = some first := Arena.get?_of_slots hslots
  -- The first node stays in its slot; the walk begins behind it.
  obtain ⟨hindexed, hfolded, hgathered⟩ :=
    foldl_foldSlot_refines (S := S) back (front ++ [some first]) left harena
      (by simpa using hslots)
  rw [List.length_append, List.length_singleton] at hindexed hfolded hgathered
  refine ⟨_, hindexed, by simpa using hfolded, ?_⟩
  rw [← hgathered]
  simp [foldNodes, Arena.typeAt, hfind, hslot, hleft]

/-- The list that an arena stands for, taken apart at a slot. -/
theorem definitions_of_slots {arena : Arena} {front back : List (Option Definition)}
    {definition : Definition} (hslots : arena.slots = front ++ some definition :: back) :
    arena.toDocument.definitions = front.filterMap id ++ definition :: back.filterMap id := by
  simp [Arena.toDocument, hslots]

/-- Either the definitions have no node of a type, or its nodes are gathered in the first one. -/
theorem foldNodes_cases {arena : Arena} (harena : arena.Indexed) (type : String) :
    (∀ definition ∈ arena.toDocument.definitions, definition.key ≠ ⟨.type, type⟩) ∧
        (foldNodes (S := S) arena type).value = (arena, none) ∨
      ∃ front first later left folded slot,
        arena.toDocument.definitions = front ++ first :: later ∧
        (∀ earlier ∈ front, earlier.key ≠ ⟨.type, type⟩) ∧
        first.typeDefinition? = some left ∧ left.name = type ∧
        (foldNodes (S := S) arena type).value = (folded, some (slot, left.gather later)) := by
  cases hfind : arena.findAll ⟨.type, type⟩ with
  | nil => exact .inl ⟨(harena.findAll_eq_nil_iff _).mp hfind, by simp [foldNodes, hfind]⟩
  | cons slot more =>
    obtain ⟨front, first, back, hslots, hkey, rfl, hfront, rfl⟩ := harena.exists_split hfind
    obtain ⟨left, hleft, hname⟩ := Definition.exists_typeDefinition? hkey
    obtain ⟨folded, -, -, hnodes⟩ := foldNodes_refines (S := S) harena hslots hfind hleft hname
    exact .inr ⟨_, first, _, left, folded, _, definitions_of_slots hslots, hfront, hleft, hname,
      hnodes⟩

/-! ## One definition of the source -/

/-- Whatever the policy answers, a merged node keeps the target's name. -/
theorem name_mergeType (policy : Policy S) (sides : ScalarSides S) (left right : TypeDefinition) :
    (mergeType policy sides left right).value.1.name = left.name := by
  unfold mergeType
  simp only [Traced.value_bind]
  split <;> split <;> rfl

theorem mergeTypeDefinition_refines (policy : Policy S) (sides : ScalarSides S)
    {state : MergeState S} (h : state.arena.Indexed) (right : TypeDefinition) :
    let merged := (mergeTypeDefinition policy sides state right).value.arena
    merged.Indexed ∧ merged.toDocument.definitions =
      mergeTypeInto (fun left right => (mergeType policy sides left right).value.1)
        state.arena.toDocument.definitions right := by
  obtain ⟨arena, answers⟩ := state
  cases hfind : arena.findAll ⟨.type, right.name⟩ with
  | nil =>
    have habsent := (h.findAll_eq_nil_iff _).mp hfind
    have hvalue : (mergeTypeDefinition policy sides ⟨arena, answers⟩ right).value.arena =
        arena.push (.type right) := by
      simp [mergeTypeDefinition, foldNodes, hfind]
    rw [hvalue]
    refine ⟨h.push _, ?_⟩
    rw [Arena.definitions_push, mergeTypeInto, atFirst_of_absent habsent]
  | cons slot more =>
    obtain ⟨front, first, back, hslots, hkey, rfl, hfront, rfl⟩ := h.exists_split hfind
    obtain ⟨left, hleft, hname⟩ := Definition.exists_typeDefinition? hkey
    obtain ⟨folded, hindexed, hfolded, hnodes⟩ :=
      foldNodes_refines (S := S) h hslots hfind hleft hname
    let gathered := left.gather (back.filterMap id)
    let node := (mergeType policy sides gathered right).value.1
    have hvalue : (mergeTypeDefinition policy sides ⟨arena, answers⟩ right).value.arena =
        folded.replace front.length (.type node) := by
      simp [mergeTypeDefinition, hnodes, node, gathered]
    -- The slot may be overwritten because the merged node has the key of the first one.
    have hnode : (Definition.type node).key = first.key := by
      rw [hkey]
      simp [Definition.key, node, gathered, name_mergeType, hname]
    rw [hvalue]
    refine ⟨hindexed.replace (Arena.get?_of_slots hfolded) hnode, ?_⟩
    have hreplaced : (folded.replace front.length (.type node)).slots =
        front ++ some (.type node) :: back.map left.leave := by
      simp [hfolded]
    rw [definitions_of_slots hreplaced, definitions_of_slots hslots, left.filterMap_leave,
      mergeTypeInto, atFirst_of_split _ hfront hkey, hleft]

theorem mergeDirectiveDefinition_refines {arena : Arena} (h : arena.Indexed)
    (right : DirectiveDefinition) :
    let merged := (mergeDirectiveDefinition (S := S) arena right).value
    merged.Indexed ∧
      merged.toDocument.definitions = mergeDirectiveInto arena.toDocument.definitions right := by
  cases hfind : arena.findAll ⟨.directive, right.name⟩ with
  | nil =>
    have habsent := (h.findAll_eq_nil_iff _).mp hfind
    have hvalue : (mergeDirectiveDefinition (S := S) arena right).value =
        arena.push (.directive right) := by
      simp [mergeDirectiveDefinition, Arena.find?, hfind]
    rw [hvalue]
    refine ⟨h.push _, ?_⟩
    rw [Arena.definitions_push, mergeDirectiveInto, atFirst_of_absent habsent]
  | cons slot more =>
    obtain ⟨front, first, back, hslots, hkey, rfl, hfront, -⟩ := h.exists_split hfind
    have hvalue : (mergeDirectiveDefinition (S := S) arena right).value =
        arena.replace front.length (.directive right) := by
      simp [mergeDirectiveDefinition, Arena.find?, hfind]
    rw [hvalue]
    refine ⟨h.replace (Arena.get?_of_slots hslots) hkey.symm, ?_⟩
    have hreplaced : (arena.replace front.length (.directive right)).slots =
        front ++ some (.directive right) :: back := by
      simp [hslots]
    rw [definitions_of_slots hreplaced, definitions_of_slots hslots, mergeDirectiveInto,
      atFirst_of_split _ hfront hkey]

theorem value_mergeSchemaDefinitions (left right : SchemaDefinition) :
    (mergeSchemaDefinitions (S := S) left right).value = left.override right := by
  simp [mergeSchemaDefinitions, SchemaDefinition.override]

theorem mergeSchemaDefinition_refines {arena : Arena} (h : arena.Indexed)
    (right : SchemaDefinition) :
    let merged := (mergeSchemaDefinition (S := S) arena right).value
    merged.Indexed ∧
      merged.toDocument.definitions = mergeSchemaInto arena.toDocument.definitions right := by
  cases hfind : arena.findAll ⟨.schema, ""⟩ with
  | nil =>
    have habsent := (h.findAll_eq_nil_iff _).mp hfind
    have hvalue : (mergeSchemaDefinition (S := S) arena right).value =
        arena.push (.schema right) := by
      simp [mergeSchemaDefinition, Arena.schema?, Arena.find?, hfind]
    rw [hvalue]
    refine ⟨h.push _, ?_⟩
    rw [Arena.definitions_push, mergeSchemaInto, atFirst_of_absent habsent]
  | cons slot more =>
    obtain ⟨front, first, back, hslots, hkey, rfl, hfront, -⟩ := h.exists_split hfind
    have hslot : arena.get? front.length = some first := Arena.get?_of_slots hslots
    obtain ⟨left, rfl⟩ := Definition.exists_schema hkey
    have hvalue : (mergeSchemaDefinition (S := S) arena right).value =
        arena.replace front.length (.schema (left.override right)) := by
      simp [mergeSchemaDefinition, Arena.schema?, Arena.find?, hfind, hslot,
        value_mergeSchemaDefinitions]
    rw [hvalue]
    refine ⟨h.replace hslot rfl, ?_⟩
    have hreplaced : (arena.replace front.length (.schema (left.override right))).slots =
        front ++ some (.schema (left.override right)) :: back := by
      simp [hslots]
    rw [definitions_of_slots hreplaced, definitions_of_slots hslots, mergeSchemaInto,
      atFirst_of_split _ hfront hkey]

/-- One step of a merge is a step on the list of definitions. -/
theorem mergeDefinition_refines (policy : Policy S) (sides : ScalarSides S)
    {state : MergeState S} (h : state.arena.Indexed) (right : Definition) :
    let merged := (mergeDefinition policy sides state right).value.arena
    merged.Indexed ∧ merged.toDocument.definitions =
      mergeInto (fun left right => (mergeType policy sides left right).value.1)
        state.arena.toDocument.definitions right := by
  cases right with
  | type right => exact mergeTypeDefinition_refines policy sides h right
  | extension node => exact mergeTypeDefinition_refines policy sides h node.toDefinition
  | directive right => exact mergeDirectiveDefinition_refines h right
  | schema right => exact mergeSchemaDefinition_refines h right

/-! ## The whole source -/

/-- A definition and its normalized form are merged alike. -/
theorem mergeInto_normalize (join : TypeDefinition → TypeDefinition → TypeDefinition)
    (definitions : List Definition) (right : Definition) :
    mergeInto join definitions right.normalize.value = mergeInto join definitions right := by
  cases right <;> rfl

theorem foldl_mergeDefinition_refines (policy : Policy S) (sides : ScalarSides S)
    (source : List Definition) (state : MergeState S) (h : state.arena.Indexed) :
    let merged := (source.foldl
      (fun state right => (mergeDefinition policy sides state right).value) state).arena
    merged.Indexed ∧ merged.toDocument.definitions =
      source.foldl (mergeInto fun left right => (mergeType policy sides left right).value.1)
        state.arena.toDocument.definitions := by
  induction source generalizing state with
  | nil => exact ⟨h, rfl⟩
  | cons right rest ih =>
    obtain ⟨hindexed, hmerged⟩ := mergeDefinition_refines policy sides h right
    obtain ⟨hlast, hrest⟩ := ih _ hindexed
    exact ⟨hlast, by rw [List.foldl_cons, List.foldl_cons, hrest, hmerged]⟩

/-- The merged document, for any policy: the definitions of the source are merged into those of the
target one after the other. -/
theorem definitions_mergeBundles (policy : Policy S) (target source : Bundle R S) :
    ∃ sides : ScalarSides S,
      (mergeBundles policy target source).value.document.definitions =
        source.document.definitions.foldl
          (mergeInto fun left right => (mergeType policy sides left right).value.1)
          target.document.definitions := by
  -- The registries that the policy is shown stay the same throughout the merge.
  let normalized : Bundle R S := { source with document := source.document.normalize.value }
  let sides : ScalarSides S := ⟨target.registry, normalized.registry⟩
  refine ⟨sides, ?_⟩
  have hloop := (foldl_mergeDefinition_refines policy sides normalized.document.definitions
    ⟨.ofDocument target.document, ∅⟩ (Arena.indexed_ofDocument target.document)).2
  have hvalue : (mergeBundles policy target source).value.document.definitions =
      (normalized.document.definitions.foldl
        (fun state right => (mergeDefinition policy sides state right).value)
        ⟨.ofDocument target.document, ∅⟩).arena.toDocument.definitions := by
    simp [mergeBundles, normalized, sides]
  rw [hvalue, hloop]
  simp [normalized, Document.definitions_value_normalize, List.foldl_map, mergeInto_normalize]

/-- The merged document if the source wins. -/
theorem definitions_mergeBundles_rightWins (target source : Bundle R S) :
    (mergeBundles Policy.rightWins target source).value.document.definitions =
      source.document.definitions.foldl (mergeInto TypeDefinition.override)
        target.document.definitions := by
  obtain ⟨sides, hmerged⟩ := definitions_mergeBundles Policy.rightWins target source
  have hjoin : (fun left right => (mergeType Policy.rightWins sides left right).value.1) =
      TypeDefinition.override := funext fun left => funext (value_mergeType sides left)
  rw [hmerged, hjoin]

/-- A merge of two schemas whose texts can be read succeeds. -/
theorem value_merge (policy : Policy S) {target source : Source R S} {left right : Document}
    (hleft : (target.toDocument .merge .target).value = .ok left)
    (hright : (source.toDocument .merge .source).value = .ok right) :
    (merge policy target source).value = .ok (mergeBundles policy
      ⟨left, target.resolvers, target.scalars⟩ ⟨right, source.resolvers, source.scalars⟩).value := by
  simp [merge, Source.toBundle, hleft, hright]

end SchemaAlgebra
