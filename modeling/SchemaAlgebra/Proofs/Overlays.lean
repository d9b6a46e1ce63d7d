import Mathlib.Data.List.Basic
import Mathlib.Data.List.Induction
import SchemaAlgebra.Proofs.Consistency
import SchemaAlgebra.Proofs.RightBiasedUnion

/-!
# Merging as laying over

Where nothing is written twice, a merge lays one list over another one by keys.  An item of the base is
covered by the item of its key, and items of further keys go to the end.  This is so on both levels of a
document: for the nodes of a collection under their names, and for the definitions of a document under
their keys.

Whether laying over is associative depends on how two items are joined, and on nothing else.  That is
shown once, for any lists, and used on both levels.

## Main statements

* `overlay_assoc`: laying over is associative if joining items is.
* `lastWins_assoc`, `Definition.override_assoc`: the two levels of a document.
* `foldl_mergeInto_eq_overlay`: a merge of plain documents lays one over the other.
-/

namespace SchemaAlgebra

variable {R S : Type}

/-! ## Laying a list over another one -/

section Overlay

variable {α κ : Type} [DecidableEq κ] (key : α → κ) (join : α → α → α)

/-- An item joined with the first item of its key in a list, if there is one. -/
def covered (top : List α) (item : α) : α :=
  match top.find? (key · = key item) with
  | some other => join item other
  | none => item

/-- Lays a list over another one.  The items of the base are covered in their places, and items of
further keys are put behind them. -/
def overlay (base top : List α) : List α :=
  base.map (covered key join top) ++ top.filter (key · ∉ base.map key)

variable {key join}

theorem covered_of_absent {top : List α} {item : α} (h : key item ∉ top.map key) :
    covered key join top item = item := by
  rw [covered, OrderedMap.find?_eq_none_of_fresh h]

theorem overlay_of_disjoint {base top : List α} (h : ∀ item ∈ top, key item ∉ base.map key) :
    overlay key join base top = base ++ top := by
  have hbase : base.map (covered key join top) = base.map id := by
    apply List.map_congr_left
    intro item hitem
    apply covered_of_absent
    intro hmem
    obtain ⟨other, hother, hkey⟩ := List.mem_map.mp hmem
    exact h other hother (hkey ▸ List.mem_map_of_mem hitem)
  rw [overlay, hbase, List.map_id, List.filter_eq_self.mpr]
  simpa using h

@[simp] theorem overlay_nil_left (top : List α) : overlay key join [] top = top :=
  overlay_of_disjoint fun _ _ => List.not_mem_nil

@[simp] theorem overlay_nil_right (base : List α) : overlay key join base [] = base := by
  rw [overlay_of_disjoint (List.forall_mem_nil _), List.append_nil]

/-- One item that is laid over the only one of its key is joined with it. -/
theorem overlay_of_split {front later : List α} {first item : α} (hkey : key first = key item)
    (hfront : ∀ earlier ∈ front, key earlier ≠ key item)
    (hlater : ∀ other ∈ later, key other ≠ key item) :
    overlay key join (front ++ first :: later) [item] = front ++ join first item :: later := by
  have hkept : ∀ {items : List α}, (∀ other ∈ items, key other ≠ key item) →
      items.map (covered key join [item]) = items := by
    intro items h
    refine (List.map_congr_left fun other hother => ?_).trans (List.map_id items)
    exact covered_of_absent (by simpa using h other hother)
  simp [overlay, hkept hfront, hkept hlater, covered, hkey]

/-- What holds of the items of both lists, and goes over from an item to what it is joined into, holds of
all items. -/
theorem forall_mem_overlay {p : α → Prop} (hjoin : ∀ left right, p left → p (join left right))
    {base top : List α} (hbase : ∀ item ∈ base, p item) (htop : ∀ item ∈ top, p item) :
    ∀ item ∈ overlay key join base top, p item := by
  intro item hmem
  rcases List.mem_append.mp hmem with hcovered | hfurther
  · obtain ⟨origin, horigin, rfl⟩ := List.mem_map.mp hcovered
    unfold covered
    split
    · exact hjoin origin _ (hbase origin horigin)
    · exact hbase origin horigin
  · exact htop item (List.mem_of_mem_filter hfurther)

/-- What is joined has the key of the two items. -/
def KeepsKey (key : α → κ) (join : α → α → α) : Prop :=
  ∀ left right, key left = key right → key (join left right) = key left

section KeepsKey

variable (hkeeps : KeepsKey key join)
include hkeeps

theorem key_covered (top : List α) (item : α) : key (covered key join top item) = key item := by
  unfold covered
  split
  next other hother =>
    have hkey : key other = key item := by simpa using List.find?_some hother
    exact hkeeps item other hkey.symm
  next => rfl

/-- The keys of the base come first, and then the further keys of what is laid over it. -/
theorem map_key_overlay (base top : List α) :
    (overlay key join base top).map key =
      base.map key ++ (top.map key).filter (· ∉ base.map key) := by
  have hbase : (base.map (covered key join top)).map key = base.map key := by
    rw [List.map_map]
    exact List.map_congr_left fun item _ => key_covered hkeeps top item
  rw [overlay, List.map_append, hbase, List.filter_map]
  rfl

theorem mem_map_key_overlay {base top : List α} {name : κ} :
    name ∈ (overlay key join base top).map key ↔ name ∈ base.map key ∨ name ∈ top.map key := by
  rw [map_key_overlay hkeeps, List.mem_append, List.mem_filter, decide_eq_true_iff]
  by_cases h : name ∈ base.map key <;> simp [h]

theorem nodup_overlay {base top : List α} (hbase : (base.map key).Nodup)
    (htop : (top.map key).Nodup) : ((overlay key join base top).map key).Nodup := by
  rw [map_key_overlay hkeeps, List.nodup_append]
  refine ⟨hbase, htop.filter _, ?_⟩
  rintro name hname _ hother rfl
  simpa [hname] using (List.mem_filter.mp hother).2

/-- Under a key stands the base's first item of it, covered, or the first one that is laid over. -/
theorem find?_overlay (base top : List α) (name : κ) :
    (overlay key join base top).find? (key · = name) =
      ((base.find? (key · = name)).map (covered key join top)).or (top.find? (key · = name)) := by
  have hcovered : (fun item => decide (key item = name)) ∘ covered key join top =
      fun item => decide (key item = name) := by
    funext item
    exact congrArg (fun other => decide (other = name)) (key_covered hkeeps top item)
  rw [overlay, List.find?_append, List.find?_map, hcovered]
  cases hbase : base.find? (key · = name) with
  | some item => rfl
  | none =>
    -- No item of the base has the key, so none with it is left out behind the base.
    have hnew : name ∉ base.map key := by
      intro hmem
      obtain ⟨item, hitem, hkey⟩ := List.mem_map.mp hmem
      exact List.find?_eq_none.mp hbase item hitem (decide_eq_true hkey)
    rw [Option.map_none, Option.none_or, Option.none_or, List.find?_filter]
    congr 1
    funext item
    by_cases hkey : key item = name <;> simp [hkey, hnew]

/-- Covering an item by what lies over another list is covering it twice. -/
theorem covered_overlay {middle top : List α} {item : α}
    (hjoin : ∀ b ∈ middle, ∀ c ∈ top, key item = key b → key b = key c →
      join (join item b) c = join item (join b c)) :
    covered key join (overlay key join middle top) item =
      covered key join top (covered key join middle item) := by
  have hover : covered key join (overlay key join middle top) item =
      match ((middle.find? (key · = key item)).map (covered key join top)).or
        (top.find? (key · = key item)) with
      | some other => join item other
      | none => item := by
    rw [covered, find?_overlay hkeeps]
  have hmiddle : covered key join middle item =
      match middle.find? (key · = key item) with
      | some other => join item other
      | none => item := rfl
  rw [hover, hmiddle]
  cases hfound : middle.find? (key · = key item) with
  | none => rfl
  | some other =>
    have hother : key other = key item := by simpa using List.find?_some hfound
    have hboth : key (join item other) = key item := hkeeps item other hother.symm
    simp only [Option.map_some, Option.some_or, covered, hother, hboth]
    cases hlast : top.find? (key · = key item) with
    | none => rfl
    | some last =>
      have hkey : key last = key item := by simpa using List.find?_some hlast
      exact (hjoin other (List.mem_of_find?_eq_some hfound) last (List.mem_of_find?_eq_some hlast)
        hother.symm (hother.trans hkey.symm)).symm

/-- Laying over is associative where joining is. -/
theorem overlay_assoc {base middle top : List α}
    (hjoin : ∀ a ∈ base, ∀ b ∈ middle, ∀ c ∈ top, key a = key b → key b = key c →
      join (join a b) c = join a (join b c)) :
    overlay key join (overlay key join base middle) top =
      overlay key join base (overlay key join middle top) := by
  have hbase : (base.map (covered key join middle)).map (covered key join top) =
      base.map (covered key join (overlay key join middle top)) := by
    rw [List.map_map]
    exact List.map_congr_left fun item hitem => (covered_overlay hkeeps (hjoin item hitem)).symm
  -- A further item of the middle is covered in the same way before and after it is put behind.
  have hmiddle : (middle.filter (key · ∉ base.map key)).map (covered key join top) =
      (middle.map (covered key join top)).filter (key · ∉ base.map key) := by
    rw [List.filter_map]
    congr 1
    apply List.filter_congr
    intro item _
    simp only [Function.comp_apply, key_covered hkeeps]
  have htop : top.filter (key · ∉ (overlay key join base middle).map key) =
      (top.filter (key · ∉ middle.map key)).filter (key · ∉ base.map key) := by
    rw [List.filter_filter]
    apply List.filter_congr
    intro item _
    rw [← Bool.decide_and, decide_eq_decide, mem_map_key_overlay hkeeps, not_or]
  have hlayers : overlay key join (overlay key join base middle) top =
      (overlay key join base middle).map (covered key join top) ++
        top.filter (key · ∉ (overlay key join base middle).map key) := rfl
  rw [hlayers, htop, overlay, List.map_append, hbase, hmiddle, List.append_assoc,
    ← List.filter_append]
  rfl

/-- An item of a new key is laid over last. -/
theorem overlay_snoc (base : List α) {part : List α} {item : α} (h : key item ∉ part.map key) :
    overlay key join base (part ++ [item]) = overlay key join (overlay key join base part) [item] := by
  have hpart : overlay key join part [item] = part ++ [item] :=
    overlay_of_disjoint (List.forall_mem_singleton.mpr h)
  rw [← hpart, overlay_assoc hkeeps]
  intro _ _ b hb c hc _ hkey
  rw [List.mem_singleton.mp hc] at hkey
  exact absurd (hkey ▸ List.mem_map_of_mem hb) h

end KeepsKey

end Overlay

/-! ## Collections -/

section Collections

variable {α : Type} [Named α]

theorem keepsKey_last : KeepsKey Named.name fun (_ node : α) => node := fun _ _ h => h.symm

/-- Where no name is repeated, settling a node with the first one of its name is laying it over. -/
theorem settle_eq_overlay {nodes : List α} (h : (namesOf nodes).Nodup) (right : α) :
    settle (fun _ node => node) right nodes =
      overlay Named.name (fun _ node => node) nodes [right] := by
  induction nodes with
  | nil => exact (overlay_nil_left [right]).symm
  | cons node rest ih =>
    obtain ⟨hfresh, hrest⟩ := List.nodup_cons.mp h
    by_cases hname : Named.name node = Named.name right
    · -- The rest does not have the name, and so it is not covered.
      have hlater : rest.map (covered Named.name (fun _ node => node) [right]) = rest := by
        refine (List.map_congr_left fun other hother => ?_).trans (List.map_id rest)
        apply covered_of_absent
        rw [List.map_singleton, List.mem_singleton, ← hname]
        exact fun e => hfresh (e ▸ List.mem_map_of_mem hother)
      simp [settle, hname, overlay, covered, hlater]
    · have hother : ¬ Named.name right = Named.name node := fun e => hname e.symm
      rw [settle, if_neg hname, ih hrest]
      simp [overlay, covered, hother, List.filter_cons]

theorem nodup_lastWins {left : List α} (right : List α) (h : (namesOf left).Nodup) :
    (namesOf (lastWins left right)).Nodup :=
  nodup_settleAll keepsName_last right h

theorem lastWins_eq_overlay {left right : List α} (hleft : (namesOf left).Nodup)
    (hright : (namesOf right).Nodup) :
    lastWins left right = overlay Named.name (fun _ node => node) left right := by
  induction right using List.reverseRecOn with
  | nil => exact (overlay_nil_right left).symm
  | append_singleton part node ih =>
    rw [namesOf_append, List.nodup_append] at hright
    have hfresh : Named.name node ∉ part.map Named.name := fun hmem =>
      hright.2.2 _ hmem _ (List.mem_singleton_self _) rfl
    calc lastWins left (part ++ [node])
        = settle (fun _ node => node) node (lastWins left part) := List.foldl_append
      _ = overlay Named.name (fun _ node => node) (lastWins left part) [node] :=
          settle_eq_overlay (nodup_lastWins part hleft) node
      _ = overlay Named.name (fun _ node => node) left (part ++ [node]) := by
          rw [ih hright.1, overlay_snoc keepsKey_last left hfresh]

/-- Three collections may be merged from either side. -/
theorem lastWins_assoc {left middle right : List α} (hleft : (namesOf left).Nodup)
    (hmiddle : (namesOf middle).Nodup) (hright : (namesOf right).Nodup) :
    lastWins (lastWins left middle) right = lastWins left (lastWins middle right) := by
  rw [lastWins_eq_overlay (nodup_lastWins middle hleft) hright,
    lastWins_eq_overlay hleft (nodup_lastWins right hmiddle),
    lastWins_eq_overlay hleft hmiddle, lastWins_eq_overlay hmiddle hright]
  exact overlay_assoc keepsKey_last fun _ _ _ _ _ _ _ _ => rfl

end Collections

/-! ## Definitions -/

/-- Bodies of one kind may be merged from either side. -/
theorem TypeBody.override_assoc {left middle right : TypeBody} (hmiddle : left.kind = middle.kind)
    (hright : middle.kind = right.kind) (hleftNames : left.memberNames.Nodup)
    (hmiddleNames : middle.memberNames.Nodup) (hrightNames : right.memberNames.Nodup) :
    (left.joinWith (fun names _ => names) lastWins middle).joinWith (fun names _ => names) lastWins
        right =
      left.joinWith (fun names _ => names) lastWins
        (middle.joinWith (fun names _ => names) lastWins right) := by
  cases left <;> cases middle <;> cases hmiddle <;> cases right <;> cases hright
  case scalar => rfl
  case object names fields _ others _ last =>
    exact congrArg (TypeBody.object names) (lastWins_assoc hleftNames hmiddleNames hrightNames)
  case interface names fields _ others _ last =>
    exact congrArg (TypeBody.interface names) (lastWins_assoc hleftNames hmiddleNames hrightNames)
  case union names others last =>
    apply congrArg TypeBody.union
    apply lastWins_assoc <;> rwa [namesOf_self]
  case enum values others last =>
    exact congrArg TypeBody.enum (lastWins_assoc hleftNames hmiddleNames hrightNames)
  case inputObject fields others last =>
    exact congrArg TypeBody.inputObject (lastWins_assoc hleftNames hmiddleNames hrightNames)

theorem TypeDefinition.override_assoc {left middle right : TypeDefinition}
    (hmiddle : left.kind = middle.kind) (hright : middle.kind = right.kind)
    (hleftNames : left.NamesDistinct) (hmiddleNames : middle.NamesDistinct)
    (hrightNames : right.NamesDistinct) :
    (left.override middle).override right = left.override (middle.override right) := by
  simp only [TypeDefinition.override]
  rw [lastWins_assoc hleftNames.1 hmiddleNames.1 hrightNames.1,
    TypeBody.override_assoc hmiddle hright hleftNames.2 hmiddleNames.2 hrightNames.2]

theorem SchemaDefinition.override_assoc {left middle right : SchemaDefinition}
    (hleft : (namesOf left.directives).Nodup) (hmiddle : (namesOf middle.directives).Nodup)
    (hright : (namesOf right.directives).Nodup) :
    (left.override middle).override right = left.override (middle.override right) := by
  simp only [SchemaDefinition.override, lastWins_assoc hleft hmiddle hright, Option.or_assoc]

namespace Definition

/-- Merges a definition of the source into the target's definition of its key.  Of two directive
definitions the source's is taken. -/
def override : Definition → Definition → Definition
  | .schema left, .schema right => .schema (left.override right)
  | .type left, .type right => .type (left.override right)
  | .directive _, .directive right => .directive right
  | left, _ => left

theorem keepsKey_override : KeepsKey key override := by
  intro left right hkey
  cases left <;> cases right <;> first | rfl | exact hkey.symm

theorem namesDistinct_override {left right : Definition} (hleft : left.NamesDistinct) :
    (left.override right).NamesDistinct := by
  cases left <;> cases right <;> try exact hleft
  case schema.schema left right => exact nodup_lastWins _ hleft
  case type.type left right => exact TypeDefinition.NamesDistinct.override hleft right

theorem isExtension_override {left right : Definition} (h : left.isExtension = false) :
    (left.override right).isExtension = false := by
  cases left <;> cases right <;> first | rfl | exact h

/-- A definition that is no extension has the form that its key's name space tells. -/
theorem exists_type {definition : Definition} {name : String} (h : definition.isExtension = false)
    (hkey : definition.key = ⟨.type, name⟩) : ∃ node, definition = .type node := by
  cases definition with
  | type node => exact ⟨node, rfl⟩
  | extension node => cases h
  | schema definition => cases congrArg DefinitionKey.space hkey
  | directive definition => cases congrArg DefinitionKey.space hkey

theorem exists_directive {definition : Definition} {name : String}
    (hkey : definition.key = ⟨.directive, name⟩) : ∃ directive, definition = .directive directive := by
  cases definition with
  | directive directive => exact ⟨directive, rfl⟩
  | type node => cases congrArg DefinitionKey.space hkey
  | extension node => cases congrArg DefinitionKey.space hkey
  | schema definition => cases congrArg DefinitionKey.space hkey

end Definition

/-! ## Plain documents -/

/-- A document without extensions that defines nothing twice. -/
structure IsPlain (definitions : List Definition) : Prop where
  written : ∀ definition ∈ definitions, definition.isExtension = false
  once : (keysOf definitions).Nodup

instance (definitions : List Definition) : Decidable (IsPlain definitions) :=
  decidable_of_iff ((∀ definition ∈ definitions, definition.isExtension = false) ∧
    (keysOf definitions).Nodup) ⟨fun h => ⟨h.1, h.2⟩, fun h => ⟨h.written, h.once⟩⟩

/-- Merging a definition into the only one of its key. -/
theorem mergeInto_of_split {front later : List Definition} {first right : Definition}
    (hfirst : first.isExtension = false) (hright : right.isExtension = false)
    (hkey : first.key = right.key) (hfront : ∀ earlier ∈ front, earlier.key ≠ right.key)
    (hlater : ∀ other ∈ later, other.key ≠ right.key) :
    mergeInto TypeDefinition.override (front ++ first :: later) right =
      front ++ first.override right :: later := by
  cases right with
  | type right =>
    obtain ⟨left, rfl⟩ := Definition.exists_type hfirst hkey
    have hname : left.name = right.name := congrArg DefinitionKey.name hkey
    -- There is one node of the type, and so nothing is gathered with it.
    have hnodes : nodesOf right.name (front ++ .type left :: later) = [left] := by
      rw [nodesOf_of_split later hfront rfl hname, nodesOf_eq_nil_of_absent hlater]
    have hsame : TypeDefinition.SameKind (nodesOf right.name (front ++ .type left :: later)) := by
      rw [hnodes]
      simp [TypeDefinition.SameKind]
    have hkept : later.filter (·.key ≠ ⟨.type, right.name⟩) = later := by
      simpa [List.filter_eq_self] using hlater
    show mergeTypeInto TypeDefinition.override _ right = _
    rw [mergeTypeInto_of_split hkey hfront hsame, hnodes, hkept]
    rfl
  | extension node => cases hright
  | directive right =>
    obtain ⟨left, rfl⟩ := Definition.exists_directive hkey
    exact atFirst_of_split later hfront hkey
  | schema right =>
    obtain ⟨left, rfl⟩ := Definition.exists_schema hkey
    exact atFirst_of_split later hfront hkey

/-- The step: a definition is laid over the ones before it. -/
theorem mergeInto_eq_overlay {definitions : List Definition} {right : Definition}
    (h : IsPlain definitions) (hright : right.isExtension = false) :
    mergeInto TypeDefinition.override definitions right =
      overlay Definition.key Definition.override definitions [right] := by
  rcases exists_first right.key definitions with habsent | ⟨front, first, later, rfl, hkey, hfront⟩
  · have hnew : right.key ∉ keysOf definitions := by simpa [keysOf] using habsent
    rw [overlay_of_disjoint (List.forall_mem_singleton.mpr hnew)]
    cases right with
    | type right => exact atFirst_of_absent habsent
    | extension node => cases hright
    | directive right => exact atFirst_of_absent habsent
    | schema right => exact atFirst_of_absent habsent
  · have hlater := (ne_key_of_once h.once).2
    rw [hkey] at hlater
    rw [mergeInto_of_split (h.written first (by simp)) hright hkey hfront hlater,
      overlay_of_split hkey hfront hlater]

/-- What is laid over a plain document leaves it plain. -/
theorem IsPlain.overlay {base top : List Definition} (hbase : IsPlain base) (htop : IsPlain top) :
    IsPlain (overlay Definition.key Definition.override base top) where
  written := forall_mem_overlay (fun _ _ => Definition.isExtension_override) hbase.written htop.written
  once := nodup_overlay Definition.keepsKey_override hbase.once htop.once

theorem IsPlain.append {front back : List Definition} (h : IsPlain (front ++ back)) :
    IsPlain front ∧ IsPlain back := by
  obtain ⟨hwritten, honce⟩ := h
  rw [keysOf, List.map_append, List.nodup_append] at honce
  obtain ⟨hfront, hback⟩ := List.forall_mem_append.mp hwritten
  exact ⟨⟨hfront, honce.1⟩, ⟨hback, honce.2.1⟩⟩

/-- The run: a plain source is laid over a plain target. -/
theorem foldl_mergeInto_eq_overlay {target source : List Definition} (htarget : IsPlain target)
    (hsource : IsPlain source) :
    source.foldl (mergeInto TypeDefinition.override) target =
      overlay Definition.key Definition.override target source := by
  induction source using List.reverseRecOn with
  | nil => exact (overlay_nil_right target).symm
  | append_singleton part right ih =>
    obtain ⟨hpart, hlast⟩ := hsource.append
    have hfresh : right.key ∉ part.map Definition.key := by
      intro hmem
      obtain ⟨other, hother, hkey⟩ := List.mem_map.mp hmem
      exact (ne_key_of_once hsource.once).1 other hother hkey
    rw [List.foldl_append, ih hpart, List.foldl_cons, List.foldl_nil,
      mergeInto_eq_overlay (htarget.overlay hpart) (hlast.written right List.mem_cons_self),
      overlay_snoc Definition.keepsKey_override target hfresh]

/-! ## Schemas -/

/-- Merging two schemas with plain documents lays the source's over the target's. -/
theorem definitions_merge_eq_overlay {target source : Source R S} {left right : Document}
    (hleft : (target.toDocument .merge .target).value = .ok left)
    (hright : (source.toDocument .merge .source).value = .ok right)
    (hleftPlain : IsPlain left.definitions) (hrightPlain : IsPlain right.definitions) :
    ∃ merged : Bundle R S, (merge Policy.rightWins target source).value = .ok merged ∧
      merged.document.definitions =
        overlay Definition.key Definition.override left.definitions right.definitions := by
  refine ⟨_, value_merge Policy.rightWins hleft hright, ?_⟩
  rw [definitions_mergeBundles_rightWins, foldl_mergeInto_eq_overlay hleftPlain hrightPlain]

end SchemaAlgebra
