import SchemaAlgebra.Proofs.FoldedExtensions
import SchemaAlgebra.Proofs.KeyedSteps

/-!
# Merging the same source again

A second merge of a source starts from nodes that have been gathered and normalized, and it writes pieces
over each other once more before the last one wins.  In the end nothing is changed, if no node repeats a
name.  What wins in a collection is settled by the source alone, and the names of the source are all
there.

## Main statements

* `lastWins_lastWins`: a collection.
* `Definition.overrideAll_overrideAll`: the leading definition of a key.
* `foldl_into_foldl_into`: all definitions of a key.
* `merge_again_eq`: the document.
-/

namespace SchemaAlgebra

variable {R S : Type}

/-! ## Collections -/

section Collections

variable {α : Type} [Named α]

/-- Nodes that were merged into a collection change nothing when they are merged into it again. -/
theorem lastWins_lastWins {left : List α} (h : (namesOf left).Nodup) (right : List α) :
    lastWins (lastWins left right) right = lastWins left right := by
  have hold : (namesOf right).filter (· ∉ namesOf (lastWins left right)) = [] := by
    rw [List.filter_eq_nil_iff]
    intro name hname
    have hmem : name ∈ namesOf (lastWins left right) :=
      (mem_namesOf_settleAll keepsName_last).mpr (.inr hname)
    simpa using hmem
  have hnames : namesOf (lastWins (lastWins left right) right) = namesOf (lastWins left right) := by
    rw [lastWins, namesOf_settleAll keepsName_last, hold]
    exact List.append_nil _
  apply eq_of_findSibling hnames
  · rw [hnames]
    exact nodup_lastWins right h
  · intro name _
    rw [findSibling_lastWins, findSibling_lastWins, ← Option.or_assoc, Option.or_self]

theorem lastWins_self {nodes : List α} (h : (namesOf nodes).Nodup) : lastWins nodes nodes = nodes := by
  have hnew : lastWins [] nodes = nodes := settleAll_of_nodup _ (by simpa using h)
  have hnone : (namesOf ([] : List α)).Nodup := List.nodup_nil
  calc lastWins nodes nodes
      = lastWins (lastWins [] nodes) nodes := by rw [hnew]
    _ = lastWins [] nodes := lastWins_lastWins hnone nodes
    _ = nodes := hnew

end Collections

/-! ## Types -/

namespace TypeDefinition

/-- A node is known by its name, description and kind and by its content. -/
theorem SameContent.eq {one other : TypeDefinition} (h : SameContent one other)
    (hname : one.name = other.name) (hdescription : one.description = other.description)
    (hkind : one.kind = other.kind) : one = other := by
  obtain ⟨description, name, directives, body⟩ := one
  obtain ⟨otherDescription, otherName, otherDirectives, otherBody⟩ := other
  obtain ⟨hdirectives, hinterfaces, houtput, hinput, hvalues, hunion⟩ := h
  cases hname
  cases hdescription
  cases hdirectives
  have hbody : body = otherBody := by
    cases body <;> cases otherBody <;> cases hkind
    case scalar => rfl
    case object => exact congr (congrArg TypeBody.object hinterfaces) houtput
    case interface => exact congr (congrArg TypeBody.interface hinterfaces) houtput
    case union => exact congrArg TypeBody.union hunion
    case enum => exact congrArg TypeBody.enum hvalues
    case inputObject => exact congrArg TypeBody.inputObject hinput
  rw [hbody]

variable (left : TypeDefinition) (nodes : List TypeDefinition)

/-- A source changes neither the name of a node nor its description. -/
theorem name_description_foldl_override :
    (nodes.foldl override left).name = left.name ∧
      (nodes.foldl override left).description = left.description := by
  refine List.foldlRecOn (motive := fun merged : TypeDefinition =>
    merged.name = left.name ∧ merged.description = left.description) nodes _ ⟨rfl, rfl⟩ ?_
  exact fun _ hmerged _ _ => hmerged

variable {left}

/-- Nodes that were merged into a node change nothing when they are merged into it again. -/
theorem foldl_override_foldl_override (h : left.NamesDistinct) :
    nodes.foldl override (nodes.foldl override left) = nodes.foldl override left := by
  have hkind : (nodes.foldl override left).kind = left.kind := kind_foldl_override left nodes
  have hmembers : ∀ {α : Type} [Named α] (sort : MemberSort α),
      sort.nodes (nodes.foldl override (nodes.foldl override left)).body =
        sort.nodes (nodes.foldl override left).body := by
    intro α _ sort
    by_cases hsort : left.body.collection = sort.collection
    · have hmerged : (nodes.foldl override left).body.collection = sort.collection :=
        (congrArg TypeKind.collection hkind).trans hsort
      have hnodup : (namesOf (sort.nodes left.body)).Nodup := by
        rw [sort.names _ hsort]
        exact h.2
      rw [members_foldl_override _ _ sort hmerged, members_foldl_override _ _ sort hsort,
        lastWins_lastWins hnodup]
    · -- A node of this kind has no such members, whatever is merged into it.
      have hnone : ∀ node : TypeDefinition, node.kind = left.kind → sort.nodes node.body = [] :=
        fun node hnode => sort.absent _ fun e => hsort ((congrArg TypeKind.collection hnode).symm.trans e)
      rw [hnone _ ((kind_foldl_override _ _).trans hkind), hnone _ hkind]
  have hcontent : SameContent (nodes.foldl override (nodes.foldl override left))
      (nodes.foldl override left) := by
    refine ⟨?_, ?_, hmembers .outputFields, hmembers .inputFields, hmembers .enumValues,
      hmembers .unionMembers⟩
    · rw [directives_foldl_override, directives_foldl_override, lastWins_lastWins h.1]
    · rw [interfaces_foldl_override]
  obtain ⟨hname, hdescription⟩ := name_description_foldl_override (nodes.foldl override left) nodes
  exact hcontent.eq hname hdescription (kind_foldl_override _ nodes)

theorem override_self (h : left.NamesDistinct) : left.override left = left := by
  obtain ⟨description, name, directives, body⟩ := left
  obtain ⟨hdirectives, hmembers⟩ := h
  have hbody : body.joinWith (fun names _ => names) lastWins body = body := by
    cases body with
    | scalar => rfl
    | object names fields => exact congrArg (TypeBody.object names) (lastWins_self hmembers)
    | interface names fields => exact congrArg (TypeBody.interface names) (lastWins_self hmembers)
    | union members =>
      exact congrArg TypeBody.union (lastWins_self (by rwa [namesOf_self]))
    | enum values => exact congrArg TypeBody.enum (lastWins_self hmembers)
    | inputObject fields => exact congrArg TypeBody.inputObject (lastWins_self hmembers)
  show TypeDefinition.mk _ _ (lastWins directives directives)
    (body.joinWith (fun names _ => names) lastWins body) = _
  rw [lastWins_self hdirectives, hbody]

end TypeDefinition

/-! ## Schema definitions -/

namespace SchemaDefinition

variable (left : SchemaDefinition) (rights : List SchemaDefinition)

theorem directives_foldl_override : (rights.foldl override left).directives =
    lastWins left.directives (rights.flatMap directives) := by
  induction rights generalizing left with
  | nil => rfl
  | cons right rest ih =>
    rw [List.foldl_cons, ih, List.flatMap_cons]
    exact (settleAll_append ..).symm

/-- What the source's last schema definition that names a root type of an operation names, goes before
what was there. -/
theorem slot_foldl_override {slot : SchemaDefinition → Option String}
    (hslot : ∀ left right, slot (override left right) = (slot right).or (slot left)) :
    slot (rights.foldl override left) = (rights.reverse.findSome? slot).or (slot left) := by
  induction rights generalizing left with
  | nil => rfl
  | cons right rest ih =>
    have hone : [right].findSome? slot = slot right := by
      rw [List.findSome?_singleton]
    rw [List.foldl_cons, ih, hslot, List.reverse_cons, List.findSome?_append, hone, Option.or_assoc]

variable {left}

theorem foldl_override_foldl_override (h : (namesOf left.directives).Nodup) :
    rights.foldl override (rights.foldl override left) = rights.foldl override left := by
  have hslot : ∀ slot : SchemaDefinition → Option String,
      (∀ left right, slot (override left right) = (slot right).or (slot left)) →
        slot (rights.foldl override (rights.foldl override left)) =
          slot (rights.foldl override left) := by
    intro slot hslot
    rw [slot_foldl_override _ _ hslot, slot_foldl_override _ _ hslot, ← Option.or_assoc,
      Option.or_self]
  have hdirectives : (rights.foldl override (rights.foldl override left)).directives =
      (rights.foldl override left).directives := by
    rw [directives_foldl_override, directives_foldl_override, lastWins_lastWins h]
  have hquery := hslot query fun _ _ => rfl
  have hmutation := hslot mutation fun _ _ => rfl
  have hsubscription := hslot subscription fun _ _ => rfl
  generalize rights.foldl override (rights.foldl override left) = again at *
  generalize rights.foldl override left = once at *
  cases again
  cases once
  cases hdirectives
  cases hquery
  cases hmutation
  cases hsubscription
  rfl

end SchemaDefinition

/-! ## Definitions of one key -/

namespace Definition

theorem overrideAll_type (left : TypeDefinition) (rights : List Definition) :
    overrideAll (.type left) rights = .type ((typeNodes rights).foldl TypeDefinition.override left) := by
  induction rights generalizing left with
  | nil => rfl
  | cons right rest ih => cases right <;> exact ih _

theorem overrideAll_schema (left : SchemaDefinition) (rights : List Definition) :
    overrideAll (.schema left) rights =
      .schema ((rights.filterMap RootTypes.schema?).foldl SchemaDefinition.override left) := by
  induction rights generalizing left with
  | nil => rfl
  | cons right rest ih => cases right <;> exact ih _

/-- The directive definition that a definition is. -/
def directive? : Definition → Option DirectiveDefinition
  | .directive definition => some definition
  | _ => none

/-- Of directive definitions the last one is taken. -/
theorem overrideAll_directive (left : DirectiveDefinition) (rights : List Definition) :
    overrideAll (.directive left) rights =
      .directive ((rights.filterMap directive?).getLast?.getD left) := by
  induction rights generalizing left with
  | nil => rfl
  | cons right rest ih =>
    cases right with
    | directive right =>
      have hrest : overrideAll (.directive left) (.directive right :: rest) =
          overrideAll (.directive right) rest := rfl
      have hdirective : directive? (.directive right) = some right := rfl
      rw [hrest, ih, List.filterMap_cons_some hdirective, List.getLast?_cons, Option.getD_some]
    | type right => exact ih left
    | extension right => exact ih left
    | schema right => exact ih left

/-- What was merged into a written definition changes nothing when it is merged into it again. -/
theorem overrideAll_overrideAll {head : Definition} (hwritten : head.isExtension = false)
    (hdistinct : head.NamesDistinct) (rights : List Definition) :
    (head.overrideAll rights).overrideAll rights = head.overrideAll rights := by
  cases head with
  | type left =>
    rw [overrideAll_type, overrideAll_type,
      TypeDefinition.foldl_override_foldl_override _ hdistinct]
  | extension left => cases hwritten
  | directive left =>
    rw [overrideAll_directive, overrideAll_directive]
    cases (rights.filterMap directive?).getLast? <;> rfl
  | schema left =>
    rw [overrideAll_schema, overrideAll_schema,
      SchemaDefinition.foldl_override_foldl_override _ hdistinct]

theorem override_self {definition : Definition} (h : definition.NamesDistinct) :
    definition.override definition = definition := by
  cases definition with
  | type definition => exact congrArg Definition.type (TypeDefinition.override_self h)
  | extension node => rfl
  | directive definition => rfl
  | schema definition =>
    obtain ⟨directives, query, mutation, subscription⟩ := definition
    show Definition.schema ⟨lastWins directives directives, query.or query, mutation.or mutation,
      subscription.or subscription⟩ = _
    rw [lastWins_self h, Option.or_self, Option.or_self, Option.or_self]

theorem NamesDistinct.normalize {definition : Definition} (h : definition.NamesDistinct) :
    definition.normalize.value.NamesDistinct := by
  cases definition <;> exact h

end Definition

section OneKey

variable {key : DefinitionKey} {own rights : List Definition}

/-- After a merge of a key that the source carries, its definitions are led by one that the source's
definitions have gone into. -/
theorem exists_overrideAll (hsome : rights ≠ [])
    (hkeys : ∀ definition ∈ own ++ rights, definition.key = key)
    (hdistinct : AllDistinct (own ++ rights)) :
    ∃ (head : Definition) (others : List Definition), head.Leads others ∧ head.NamesDistinct ∧
      head.key = key ∧ rights.foldl (Operation.into .merge) own = head.overrideAll rights :: others := by
  obtain ⟨right, rest, rfl⟩ := List.exists_cons_of_ne_nil hsome
  obtain ⟨hownKeys, hrightKeys⟩ := List.forall_mem_append.mp hkeys
  obtain ⟨hownDistinct, hrightDistinct⟩ := allDistinct_append.mp hdistinct
  obtain ⟨hright, hrest⟩ := List.forall_mem_cons.mp hrightKeys
  cases own with
  | nil =>
    -- The first definition is added; merging it into itself would not change it.
    let head := right.normalize.value
    have hhead : head.Leads [] := .alone right.isExtension_normalize
    have hheadKey : head.key = key := right.key_normalize.trans hright
    have hheadDistinct : head.NamesDistinct := (allDistinct_cons.mp hrightDistinct).1.normalize
    have hadded : Operation.into .merge [] right = [head] :=
      Operation.into_of_absent .merge fun _ hmem => absurd hmem List.not_mem_nil
    have hself : head.overrideAll (right :: rest) = head.overrideAll rest := by
      show (head.override head).overrideAll rest = _
      rw [Definition.override_self hheadDistinct]
    refine ⟨head, [], hhead, hheadDistinct, hheadKey, ?_⟩
    rw [hself, List.foldl_cons, hadded]
    exact hhead.foldl_into fun other hmem => (hrest other hmem).trans hheadKey.symm
  | cons first later =>
    obtain ⟨head, others, hleads, hkey, hrun, hhead⟩ :=
      exists_leads_foldl_into (List.cons_ne_nil first later) hsome hkeys
    exact ⟨head, others, hleads, hhead hownDistinct, hkey, hrun⟩

/-- The run on one key: merging the source's definitions again changes nothing. -/
theorem foldl_into_foldl_into (hkeys : ∀ definition ∈ own ++ rights, definition.key = key)
    (hdistinct : AllDistinct (own ++ rights)) :
    rights.foldl (Operation.into .merge) (rights.foldl (Operation.into .merge) own) =
      rights.foldl (Operation.into .merge) own := by
  by_cases hnone : rights = []
  · rw [hnone]
    rfl
  · obtain ⟨head, others, hleads, hhead, rfl, hmerged⟩ := exists_overrideAll hnone hkeys hdistinct
    have hrights := (List.forall_mem_append.mp hkeys).2
    have hagain : ∀ right ∈ rights, right.key = (head.overrideAll rights).key := by
      intro right hmem
      rw [Definition.key_overrideAll hrights, hrights right hmem]
    rw [hmerged, (hleads.overrideAll rights).foldl_into hagain,
      Definition.overrideAll_overrideAll hleads.written hhead]

end OneKey

/-! ## Documents -/

/-- A key that is there stays there in a merge. -/
theorem carrying_into_merge_ne_nil {key : DefinitionKey} {definitions : List Definition}
    (h : carrying key definitions ≠ []) (right : Definition) :
    carrying key (Operation.into .merge definitions right) ≠ [] := by
  rw [Operation.carrying_into]
  split
  next hkey =>
    obtain ⟨first, later, hown⟩ := List.exists_cons_of_ne_nil h
    have hfirst : first.key = right.key :=
      ((mem_carrying.mp (hown ▸ List.mem_cons_self)).2).trans hkey.symm
    obtain ⟨head, others, -, -, hinto, -⟩ := exists_leads later hfirst
    rw [hown, hinto]
    exact List.cons_ne_nil _ _
  next => exact h

/-- A source whose keys are all there brings no new one. -/
theorem keysOf_foldl_into_sublist {definitions source : List Definition}
    (h : ∀ right ∈ source, carrying right.key definitions ≠ []) :
    (keysOf (source.foldl (Operation.into .merge) definitions)).Sublist (keysOf definitions) := by
  induction source generalizing definitions with
  | nil => exact List.Sublist.refl _
  | cons right rest ih =>
    obtain ⟨hright, hrest⟩ := List.forall_mem_cons.mp h
    have hnext := ih fun other hmem => carrying_into_merge_ne_nil (hrest other hmem) right
    exact hnext.trans (Operation.keysOf_into_sublist .merge hright)

/-- The run on all keys. -/
theorem foldl_into_again {target source : List Definition} (hdistinct : AllDistinct (target ++ source)) :
    source.foldl (Operation.into .merge) (source.foldl (Operation.into .merge) target) =
      source.foldl (Operation.into .merge) target := by
  have hown : ∀ key, ∀ definition ∈ carrying key target ++ carrying key source,
      definition.key = key := by
    intro key definition hmem
    rw [← carrying_append] at hmem
    exact (mem_carrying.mp hmem).2
  have hownDistinct : ∀ key, AllDistinct (carrying key target ++ carrying key source) := by
    intro key definition hmem
    rw [← carrying_append] at hmem
    exact hdistinct definition (mem_carrying.mp hmem).1
  apply eq_of_carrying
  · apply keysOf_foldl_into_sublist
    intro right hright
    have hsome : carrying right.key source ≠ [] :=
      List.ne_nil_of_mem (mem_carrying.mpr ⟨hright, rfl⟩)
    obtain ⟨head, others, -, -, -, hmerged⟩ :=
      exists_overrideAll hsome (hown right.key) (hownDistinct right.key)
    rw [Operation.carrying_foldl_into, hmerged]
    exact List.cons_ne_nil _ _
  · intro key
    rw [Operation.carrying_foldl_into, Operation.carrying_foldl_into]
    exact foldl_into_foldl_into (hown key) (hownDistinct key)

/-- Merging the same source again changes nothing, if no node of the two documents repeats a name. -/
theorem merge_again_eq {target source : Source R S} {left right : Document}
    (hleft : (target.toDocument .merge .target).value = .ok left)
    (hright : (source.toDocument .merge .source).value = .ok right)
    (hdistinct : AllDistinct (left.definitions ++ right.definitions))
    (hreadable : ∀ merged : Bundle R S,
      (merge Policy.rightWins target source).value = .ok merged → merged.Readable) :
    ∃ merged again : Bundle R S,
      (merge Policy.rightWins target source).value = .ok merged ∧
      (merge Policy.rightWins (.bundle merged) source).value = .ok again ∧
      again.document = merged.document := by
  obtain ⟨merged, hmerged, hdefinitions⟩ := merge_eq_foldl_into hleft hright
  obtain ⟨again, hagain, hagainDefinitions⟩ :=
    merge_eq_foldl_into ((hreadable merged hmerged).toDocument .merge .target) hright
  refine ⟨merged, again, hmerged, hagain, congrArg Document.mk ?_⟩
  rw [hagainDefinitions, hdefinitions]
  exact foldl_into_again hdistinct

/-- A type that the target has in two kinds and the source in three nodes, and a directive that the source
defines twice. -/
theorem merge_spreadSource_again_eq :
    ∃ merged again : Bundle Unit Unit,
      (merge Policy.rightWins (.sdl "enum A { X } extend type A { a: Int } schema { query: A }")
        (.sdl "extend type A { b: Int } directive @d on ENUM enum A { X Y } type A @d { a: ID } directive @d on SCALAR")
        ).value = .ok merged ∧
      (merge Policy.rightWins (.bundle merged)
        (.sdl "extend type A { b: Int } directive @d on ENUM enum A { X Y } type A @d { a: ID } directive @d on SCALAR")
        ).value = .ok again ∧
      again.document = merged.document := by
  let left : Document := ⟨[.type ⟨none, "A", [], .enum [⟨none, "X", []⟩]⟩,
    .extension ⟨"A", [], .object [] [⟨none, "a", [], .named "Int", []⟩]⟩,
    .schema ⟨[], some "A", none, none⟩]⟩
  let right : Document := ⟨[
    .extension ⟨"A", [], .object [] [⟨none, "b", [], .named "Int", []⟩]⟩,
    .directive ⟨none, "d", [], false, [.enum]⟩,
    .type ⟨none, "A", [], .enum [⟨none, "X", []⟩, ⟨none, "Y", []⟩]⟩,
    .type ⟨none, "A", [⟨"d", []⟩], .object [] [⟨none, "a", [], .named "ID", []⟩]⟩,
    .directive ⟨none, "d", [], false, [.scalar]⟩]⟩
  have hleft : ((.sdl "enum A { X } extend type A { a: Int } schema { query: A }" :
      Source Unit Unit).toDocument .merge .target).value = .ok left := by decide +kernel
  have hright : ((.sdl
      "extend type A { b: Int } directive @d on ENUM enum A { X Y } type A @d { a: ID } directive @d on SCALAR" :
      Source Unit Unit).toDocument .merge .source).value = .ok right := by decide +kernel
  refine merge_again_eq hleft hright (by decide) ?_
  intro merged hmerged
  rw [value_merge Policy.rightWins hleft hright] at hmerged
  obtain rfl := Except.ok.inj hmerged
  decide +kernel

end SchemaAlgebra
