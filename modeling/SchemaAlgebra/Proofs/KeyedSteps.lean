import Mathlib.Data.List.Count
import Mathlib.Data.List.Perm.Basic
import SchemaAlgebra.Proofs.Overlays
import SchemaAlgebra.Proofs.Subtraction

/-!
# Steps see one key

One definition of a source, merged or pared, deals with the definitions of its own key.  If there are
any, each of them keeps its place, is rewritten there or is dropped, and what becomes of it depends on
those definitions only.  If there are none, something may be added at the end.

So the definitions of a key after a whole run come from the definitions of that key on both sides, and
steps for different keys may change places.

## Main statements

* `Operation.exists_fates`: what a step makes of a key that is there.
* `Operation.carrying_foldl_into`: the definitions of one key after a run.
* `Operation.into_comm`: two steps for keys that are there may change places.
* `Definition.Leads.foldl_into`: in a merge the definitions of a key go into the first one.
* `eq_of_carrying`: a list of definitions is known from its keys and from what each key carries.
-/

namespace SchemaAlgebra

variable {R S : Type}

/-! ## Steps -/

@[simp] theorem carrying_carrying (key : DefinitionKey) (definitions : List Definition) :
    carrying key (carrying key definitions) = carrying key definitions := by
  rw [carrying, carrying, List.filter_filter]
  simp only [Bool.and_self]

@[simp] theorem nodesOf_carrying (name : String) (definitions : List Definition) :
    nodesOf name (carrying ⟨.type, name⟩ definitions) = nodesOf name definitions := by
  rw [nodesOf, nodesOf, carrying_carrying]

/-- Pares a definition of the source from the definitions so far, or adds it to them. -/
def pareInto (definitions : List Definition) (right : Definition) : List Definition :=
  definitions.filterMap (survivor? [right]) ++ (addition? definitions right).toList

/-- The definitions of a pare under way depend on the definitions before. -/
theorem PareSummary.definitions_pare (state : PareSummary S) (right : Definition) :
    (state.pare right).definitions = pareInto state.definitions right := by
  have honce : ((keysOf [right]).filter (·.space ≠ .schema)).Nodup :=
    (List.pairwise_singleton _ _).filter _
  have hstep := definitions_foldl_pare state honce
  rw [List.foldl_cons, List.foldl_nil] at hstep
  rw [hstep, pareInto]
  cases hadded : addition? state.definitions right with
  | none => rw [List.filterMap_cons_none hadded]; rfl
  | some added => rw [List.filterMap_cons_some hadded]; rfl

theorem PareSummary.definitions_foldl (state : PareSummary S) (source : List Definition) :
    (source.foldl PareSummary.pare state).definitions =
      source.foldl pareInto state.definitions :=
  (List.foldl_hom PareSummary.definitions fun state right => (state.definitions_pare right).symm).symm

/-- A definition and its normalized form are pared alike. -/
theorem pareInto_normalize (definitions : List Definition) (right : Definition) :
    pareInto definitions right.normalize.value = pareInto definitions right := by
  have hstep := congrArg PareSummary.definitions
    (PareSummary.pare_normalize (⟨definitions, [], ∅⟩ : PareSummary Unit) right)
  rwa [PareSummary.definitions_pare, PareSummary.definitions_pare] at hstep

namespace Operation

/-- What an operation makes of the definitions so far for a definition of its source, where the source
wins. -/
def into : Operation → List Definition → Definition → List Definition
  | .merge => mergeInto TypeDefinition.override
  | .pare => pareInto

/-- What an operation adds for a definition whose key is not there.  A pare adds no schema definition. -/
def addition : Operation → Definition → List Definition
  | .pare, .schema _ => []
  | _, right => [right.normalize.value]

theorem into_normalize (op : Operation) (definitions : List Definition) (right : Definition) :
    op.into definitions right.normalize.value = op.into definitions right := by
  cases op with
  | merge => exact mergeInto_normalize TypeDefinition.override definitions right
  | pare => exact pareInto_normalize definitions right

theorem key_of_mem_addition {op : Operation} {right added : Definition}
    (h : added ∈ op.addition right) : added.key = right.key := by
  have hnormalized : ∀ other : Definition, added ∈ [other.normalize.value] → added.key = other.key := by
    intro other hmem
    rw [List.mem_singleton.mp hmem, Definition.key_normalize]
  cases op with
  | merge => exact hnormalized right (by cases right <;> exact h)
  | pare =>
    cases right with
    | schema right => cases h
    | type right => exact hnormalized _ h
    | extension node => exact hnormalized _ h
    | directive right => exact hnormalized _ h

/-- A definition whose key is not there leaves the others alone. -/
theorem into_of_absent (op : Operation) {definitions : List Definition} {right : Definition}
    (h : ∀ definition ∈ definitions, definition.key ≠ right.key) :
    op.into definitions right = definitions ++ op.addition right := by
  cases op with
  | merge => cases right <;> exact atFirst_of_absent h
  | pare =>
    have hothers : ∀ definition ∈ definitions, survivor? [right] definition = some definition := by
      intro definition hmem
      apply survivor?_of_absent
      rw [List.forall_mem_singleton]
      exact fun e => h definition hmem e.symm
    have hnew : right.key ∉ keysOf definitions := by
      intro hmem
      obtain ⟨definition, hdefinition, hkey⟩ := List.mem_map.mp hmem
      exact h definition hdefinition hkey
    have hadded : (addition? definitions right).toList = addition .pare right := by
      unfold addition?
      rw [if_neg hnew]
      cases right <;> rfl
    show definitions.filterMap (survivor? [right]) ++ (addition? definitions right).toList = _
    rw [List.filterMap_congr hothers, List.filterMap_some, hadded]

end Operation

/-! ## Fates -/

/-- Changes the definitions of a key and passes the others by. -/
def atKey (key : DefinitionKey) (change : Definition → Option Definition) (definition : Definition) :
    Option Definition :=
  if definition.key = key then change definition else some definition

/-- Puts in the place of each definition of a key what becomes of it. -/
def replaceEach (key : DefinitionKey) : List (Option Definition) → List Definition → List Definition
  | fate :: fates, definition :: rest =>
    if definition.key = key then fate.toList ++ replaceEach key fates rest
    else definition :: replaceEach key (fate :: fates) rest
  | _, definitions => definitions

section ReplaceEach

variable {key : DefinitionKey} {fates : List (Option Definition)}

@[simp] theorem replaceEach_nil : replaceEach key fates [] = [] := by
  cases fates <;> rfl

theorem replaceEach_cons_of_ne {definition : Definition} (h : definition.key ≠ key)
    (rest : List Definition) :
    replaceEach key fates (definition :: rest) = definition :: replaceEach key fates rest := by
  cases fates with
  | nil => simp only [replaceEach]
  | cons fate fates => exact if_neg h

theorem replaceEach_cons_of_eq {fate : Option Definition} {definition : Definition}
    (h : definition.key = key) (rest : List Definition) :
    replaceEach key (fate :: fates) (definition :: rest) =
      fate.toList ++ replaceEach key fates rest := if_pos h

theorem replaceEach_of_absent {definitions : List Definition}
    (h : ∀ definition ∈ definitions, definition.key ≠ key) :
    replaceEach key fates definitions = definitions := by
  induction definitions with
  | nil => exact replaceEach_nil
  | cons definition rest ih =>
    obtain ⟨hfirst, hrest⟩ := List.forall_mem_cons.mp h
    rw [replaceEach_cons_of_ne hfirst, ih hrest]

/-- What stands behind the last definition of the key is passed by. -/
theorem replaceEach_append (front : List Definition) {back : List Definition}
    (h : ∀ definition ∈ back, definition.key ≠ key) :
    replaceEach key fates (front ++ back) = replaceEach key fates front ++ back := by
  induction front generalizing fates with
  | nil => rw [List.nil_append, replaceEach_of_absent h, replaceEach_nil, List.nil_append]
  | cons definition rest ih =>
    by_cases hkey : definition.key = key
    · cases fates with
      | nil => rfl
      | cons fate fates =>
        rw [List.cons_append, replaceEach_cons_of_eq hkey, replaceEach_cons_of_eq hkey, ih,
          List.append_assoc]
    · rw [List.cons_append, replaceEach_cons_of_ne hkey, replaceEach_cons_of_ne hkey, ih,
        List.cons_append]

theorem replaceEach_append_of_absent {front : List Definition}
    (h : ∀ definition ∈ front, definition.key ≠ key) (back : List Definition) :
    replaceEach key fates (front ++ back) = front ++ replaceEach key fates back := by
  induction front with
  | nil => rfl
  | cons definition rest ih =>
    obtain ⟨hfirst, hrest⟩ := List.forall_mem_cons.mp h
    rw [List.cons_append, replaceEach_cons_of_ne hfirst, ih hrest, List.cons_append]

/-- Changing the definitions of a key one by one. -/
theorem replaceEach_map (change : Definition → Option Definition) (definitions : List Definition) :
    replaceEach key ((carrying key definitions).map change) definitions =
      definitions.filterMap (atKey key change) := by
  induction definitions with
  | nil => rfl
  | cons definition rest ih =>
    by_cases hkey : definition.key = key
    · rw [carrying_cons, if_pos hkey, List.map_cons, replaceEach_cons_of_eq hkey, ih]
      cases hfate : change definition with
      | none => rw [List.filterMap_cons_none (by rw [atKey, if_pos hkey, hfate])]; rfl
      | some fate => rw [List.filterMap_cons_some (by rw [atKey, if_pos hkey, hfate])]; rfl
    · have hstays : atKey key change definition = some definition := if_neg hkey
      rw [carrying_cons, if_neg hkey, replaceEach_cons_of_ne hkey, ih,
        List.filterMap_cons_some hstays]

/-- The definitions of the key are its fates, if there is one for each. -/
theorem carrying_replaceEach (hkeys : ∀ kept, some kept ∈ fates → kept.key = key)
    {definitions : List Definition} (hlength : fates.length = (carrying key definitions).length) :
    carrying key (replaceEach key fates definitions) = fates.filterMap id := by
  induction definitions generalizing fates with
  | nil =>
    rw [List.length_eq_zero_iff.mp hlength]
    rfl
  | cons definition rest ih =>
    by_cases hkey : definition.key = key
    · rw [carrying_cons, if_pos hkey, List.length_cons] at hlength
      obtain ⟨fate, fates, rfl⟩ := List.exists_cons_of_length_eq_add_one hlength
      have hrest := ih (fun kept hmem => hkeys kept (List.mem_cons_of_mem _ hmem))
        (Nat.succ.inj hlength)
      rw [replaceEach_cons_of_eq hkey, carrying_append, hrest]
      cases fate with
      | none => rfl
      | some kept =>
        have hkept : kept.key = key := hkeys kept List.mem_cons_self
        show carrying key [kept] ++ _ = _
        rw [carrying_cons, if_pos hkept]
        rfl
    · rw [carrying_cons, if_neg hkey] at hlength
      rw [replaceEach_cons_of_ne hkey, carrying_cons, if_neg hkey, ih hkeys hlength]

/-- The definitions of other keys are those that were there. -/
theorem carrying_replaceEach_of_ne (hkeys : ∀ kept, some kept ∈ fates → kept.key = key)
    {other : DefinitionKey} (hne : key ≠ other) (definitions : List Definition) :
    carrying other (replaceEach key fates definitions) = carrying other definitions := by
  induction definitions generalizing fates with
  | nil => rw [replaceEach_nil]
  | cons definition rest ih =>
    by_cases hkey : definition.key = key
    · cases fates with
      | nil => rfl
      | cons fate fates =>
        have hrest := ih fun kept hmem => hkeys kept (List.mem_cons_of_mem _ hmem)
        have hfate : carrying other fate.toList = [] := by
          rw [carrying_eq_nil]
          intro kept hmem hkept
          refine hne ((hkeys kept ?_).symm.trans hkept)
          rw [Option.mem_toList.mp hmem]
          exact List.mem_cons_self
        have hold : ¬ definition.key = other := fun e => hne (hkey.symm.trans e)
        rw [replaceEach_cons_of_eq hkey, carrying_append, hfate, List.nil_append, hrest,
          carrying_cons, if_neg hold]
    · rw [replaceEach_cons_of_ne hkey, carrying_cons, carrying_cons, ih hkeys]

/-- No key is new, and the keys that are left are in order. -/
theorem keysOf_replaceEach_sublist (hkeys : ∀ kept, some kept ∈ fates → kept.key = key)
    (definitions : List Definition) :
    (keysOf (replaceEach key fates definitions)).Sublist (keysOf definitions) := by
  induction definitions generalizing fates with
  | nil => rw [replaceEach_nil]
  | cons definition rest ih =>
    by_cases hkey : definition.key = key
    · cases fates with
      | nil => exact List.Sublist.refl _
      | cons fate fates =>
        have hrest := ih fun kept hmem => hkeys kept (List.mem_cons_of_mem _ hmem)
        rw [replaceEach_cons_of_eq hkey, keysOf_append]
        cases fate with
        | none => exact hrest.cons _
        | some kept =>
          have hkept : kept.key = definition.key := (hkeys kept List.mem_cons_self).trans hkey.symm
          show (kept.key :: keysOf _).Sublist (definition.key :: keysOf rest)
          rw [hkept]
          exact hrest.cons_cons _
    · rw [replaceEach_cons_of_ne hkey]
      exact (ih hkeys).cons_cons _

/-- Replacements for two keys may change places. -/
theorem replaceEach_comm (hkeys : ∀ kept, some kept ∈ fates → kept.key = key) {other : DefinitionKey}
    {others : List (Option Definition)} (hothers : ∀ kept, some kept ∈ others → kept.key = other)
    (hne : key ≠ other) (definitions : List Definition) :
    replaceEach other others (replaceEach key fates definitions) =
      replaceEach key fates (replaceEach other others definitions) := by
  -- What becomes of a definition of one key is no definition of the other key.
  have hpass : ∀ {keep drop : DefinitionKey} {fate : Option Definition},
      (∀ kept, fate = some kept → kept.key = keep) → keep ≠ drop →
        ∀ definition ∈ fate.toList, definition.key ≠ drop := by
    intro keep drop fate hfate hne definition hmem hkey
    exact hne ((hfate definition (Option.mem_toList.mp hmem)).symm.trans hkey)
  induction definitions generalizing fates others with
  | nil => simp only [replaceEach_nil]
  | cons definition rest ih =>
    by_cases hkey : definition.key = key
    · have hother : definition.key ≠ other := fun e => hne (hkey.symm.trans e)
      rw [replaceEach_cons_of_ne hother]
      cases fates with
      | nil => exact replaceEach_cons_of_ne hother rest
      | cons fate fates =>
        have hfate := hpass (fun kept e => hkeys kept (e ▸ List.mem_cons_self)) hne
        rw [replaceEach_cons_of_eq hkey, replaceEach_cons_of_eq hkey,
          replaceEach_append_of_absent hfate,
          ih (fun kept hmem => hkeys kept (List.mem_cons_of_mem _ hmem)) hothers]
    · rw [replaceEach_cons_of_ne hkey]
      by_cases hother : definition.key = other
      · cases others with
        | nil => exact (replaceEach_cons_of_ne hkey rest).symm
        | cons fate others =>
          have hfate := hpass (fun kept e => hothers kept (e ▸ List.mem_cons_self)) hne.symm
          rw [replaceEach_cons_of_eq hother, replaceEach_cons_of_eq hother,
            replaceEach_append_of_absent hfate,
            ih hkeys fun kept hmem => hothers kept (List.mem_cons_of_mem _ hmem)]
      · rw [replaceEach_cons_of_ne hother, replaceEach_cons_of_ne hother, replaceEach_cons_of_ne hkey,
          ih hkeys hothers]

end ReplaceEach

/-! ## What becomes of a key that is there -/

/-- A change from the first definition of a key on, as fates: the first one is rewritten and the later
ones are rewritten or dropped one by one. -/
theorem atFirst_eq_replaceEach {key : DefinitionKey}
    {found : Definition → List Definition → List Definition} {added : List Definition}
    {first head : Definition} {more : List Definition} {change : Definition → Option Definition}
    (hfound : ∀ later, carrying key later = more →
      found first later = head :: later.filterMap (atKey key change))
    {definitions : List Definition} (h : carrying key definitions = first :: more) :
    atFirst key found added definitions =
      replaceEach key (some head :: more.map change) definitions := by
  rcases exists_first key definitions with habsent | ⟨front, other, later, rfl, hkey, hfront⟩
  · rw [carrying_eq_nil.mpr habsent] at h
    cases h
  · rw [carrying_append, carrying_eq_nil.mpr hfront, List.nil_append, carrying_cons, if_pos hkey] at h
    obtain ⟨rfl, rfl⟩ := List.cons.inj h
    rw [atFirst_of_split later hfront hkey, replaceEach_append_of_absent hfront,
      replaceEach_cons_of_eq hkey, replaceEach_map, hfound later rfl]
    rfl

/-- What becomes of the definitions of a key in a step of an operation. -/
structure Operation.Settles (op : Operation) (right : Definition) (own : List Definition)
    (fates : List (Option Definition)) : Prop where
  length : fates.length = own.length
  keys : ∀ kept, some kept ∈ fates → kept.key = right.key
  into : ∀ definitions, carrying right.key definitions = own →
    op.into definitions right = replaceEach right.key fates definitions

/-- Gathering sees the definitions of the type only. -/
theorem TypeDefinition.gather_carrying (into : TypeDefinition) (later : List Definition) :
    into.gather (carrying ⟨.type, into.name⟩ later) = into.gather later := by
  have hpieces : (carrying ⟨.type, into.name⟩ later).filterMap into.piece? =
      later.filterMap into.piece? := by
    rw [carrying, List.filterMap_filter]
    apply List.filterMap_congr
    intro definition _
    by_cases hkey : definition.key = ⟨.type, into.name⟩
    · simp [hkey]
    · simp [hkey, piece?_eq_none hkey]
  rw [gather, gather, hpieces]

namespace Operation

section Settles

variable {right : Definition} {first : Definition} {more : List Definition}
  (hown : ∀ definition ∈ first :: more, definition.key = right.key)
include hown

/-- The fates of a type in a merge: the first node is merged, and the later nodes of its kind go. -/
theorem settles_mergeType (node : TypeDefinition) (hnode : right.key = ⟨.type, node.name⟩)
    (hinto : ∀ definitions, merge.into definitions right =
      mergeTypeInto TypeDefinition.override definitions node) :
    ∃ fates, Settles .merge right (first :: more) fates := by
  obtain ⟨hfirst, hmore⟩ := List.forall_mem_cons.mp hown
  obtain ⟨left, hleft, hname⟩ := Definition.exists_typeDefinition? (hfirst.trans hnode)
  let head : Definition := .type ((left.gather more).override node)
  let change (definition : Definition) : Option Definition :=
    if (left.piece? definition).isNone then some definition else none
  refine ⟨some head :: more.map change, ?_, ?_, ?_⟩
  · rw [List.length_cons, List.length_map, List.length_cons]
  · intro kept hmem
    rcases List.mem_cons.mp hmem with heq | hlater
    · obtain rfl := Option.some.inj heq
      rw [hnode]
      simp [head, hname]
    · obtain ⟨definition, hdefinition, hkept⟩ := List.mem_map.mp hlater
      obtain ⟨-, heq⟩ := Option.ite_none_right_eq_some.mp hkept
      obtain rfl := Option.some.inj heq
      exact hmore definition hdefinition
  · intro others hothers
    rw [hnode] at hothers ⊢
    rw [hinto]
    refine atFirst_eq_replaceEach (fun later hlater => ?_) hothers
    have hkept : (later.filter fun definition => (left.piece? definition).isNone) =
        later.filterMap (atKey ⟨.type, node.name⟩ change) := by
      rw [← List.filterMap_eq_filter]
      apply List.filterMap_congr
      intro definition _
      by_cases hkey : definition.key = ⟨.type, node.name⟩
      · simp [atKey, hkey, change, Option.guard]
      · have hnone : left.piece? definition = none :=
          TypeDefinition.piece?_eq_none (hname ▸ hkey)
        simp [atKey, hkey, hnone, Option.guard]
    simp only [hleft, hkept, head]
    rw [← left.gather_carrying later, hname, hlater]

/-- The fates of a directive or a schema definition in a merge: the first one is rewritten, and the
later ones stay as they are. -/
theorem settles_rewrite {op : Operation} (head : Definition) (hhead : head.key = right.key)
    {found : Definition → List Definition → List Definition} {added : List Definition}
    (hfound : ∀ later, found first later = head :: later)
    (hinto : ∀ definitions, op.into definitions right = atFirst right.key found added definitions) :
    op.Settles right (first :: more) (some head :: more.map some) := by
  obtain ⟨-, hmore⟩ := List.forall_mem_cons.mp hown
  refine ⟨by rw [List.length_cons, List.length_map, List.length_cons], ?_, ?_⟩
  · intro kept hmem
    rcases List.mem_cons.mp hmem with heq | hlater
    · obtain rfl := Option.some.inj heq
      exact hhead
    · obtain ⟨definition, hdefinition, hkept⟩ := List.mem_map.mp hlater
      obtain rfl := Option.some.inj hkept
      exact hmore definition hdefinition
  · intro others hothers
    have hstay : atKey right.key some = some := funext fun _ => ite_self _
    rw [hinto]
    refine atFirst_eq_replaceEach (fun later _ => ?_) hothers
    rw [hfound, hstay, List.filterMap_some]

/-- The fates of a key in a pare: each definition becomes what the source's definition leaves of it. -/
theorem settles_pare :
    Settles .pare right (first :: more) ((first :: more).map (survivor? [right])) := by
  refine ⟨List.length_map _, ?_, ?_⟩
  · intro kept hkept
    obtain ⟨definition, hdefinition, hsurvivor⟩ := List.mem_map.mp hkept
    exact (key_of_survivor? hsurvivor).trans (hown definition hdefinition)
  · intro others hothers
    have hthere : right.key ∈ keysOf others := by
      have hcarried : first ∈ carrying right.key others := hothers ▸ List.mem_cons_self
      exact List.mem_map.mpr ⟨first, mem_carrying.mp hcarried⟩
    have hsurvivor : survivor? [right] = atKey right.key (survivor? [right]) := by
      funext definition
      by_cases hkey : definition.key = right.key
      · exact (if_pos hkey).symm
      · rw [atKey, if_neg hkey]
        apply survivor?_of_absent
        rw [List.forall_mem_singleton]
        exact fun e => hkey e.symm
    have hnothing : addition? others right = none := if_pos hthere
    show others.filterMap (survivor? [right]) ++ (addition? others right).toList = _
    rw [← hothers, replaceEach_map, ← hsurvivor, hnothing]
    exact List.append_nil _

end Settles

/-- If the key is there, a step settles what becomes of its definitions. -/
theorem exists_fates (op : Operation) {right : Definition} {definitions : List Definition}
    (h : carrying right.key definitions ≠ []) :
    ∃ fates, op.Settles right (carrying right.key definitions) fates := by
  have hown : ∀ definition ∈ carrying right.key definitions, definition.key = right.key :=
    fun definition hmem => (mem_carrying.mp hmem).2
  obtain ⟨first, more, hcarried⟩ := List.exists_cons_of_ne_nil h
  rw [hcarried] at hown ⊢
  cases op with
  | merge =>
    cases right with
    | type right => exact settles_mergeType hown right rfl fun _ => rfl
    | extension node => exact settles_mergeType hown node.toDefinition rfl fun _ => rfl
    | directive right =>
      exact ⟨_, settles_rewrite hown (.directive right) rfl (fun _ => rfl) fun _ => rfl⟩
    | schema right =>
      obtain ⟨left, rfl⟩ := Definition.exists_schema (hown first List.mem_cons_self)
      exact ⟨_, settles_rewrite hown (.schema (left.override right)) rfl (fun _ => rfl)
        fun _ => rfl⟩
  | pare => exact ⟨_, settles_pare hown⟩

/-! ## One key at a time -/

variable (op : Operation)

/-- The step on one key. -/
theorem carrying_into (key : DefinitionKey) (definitions : List Definition) (right : Definition) :
    carrying key (op.into definitions right) =
      if right.key = key then op.into (carrying key definitions) right
      else carrying key definitions := by
  by_cases hpresent : carrying right.key definitions = []
  · -- What is added has the key of the source's definition.
    have habsent := carrying_eq_nil.mp hpresent
    rw [op.into_of_absent habsent, carrying_append]
    split
    next hkey =>
      subst hkey
      have hall : carrying right.key (op.addition right) = op.addition right :=
        List.filter_eq_self.mpr fun added hmem => by simpa using key_of_mem_addition hmem
      rw [hall, hpresent, op.into_of_absent fun _ hmem => absurd hmem List.not_mem_nil]
    next hkey =>
      have hnone : carrying key (op.addition right) = [] :=
        carrying_eq_nil.mpr fun added hmem e => hkey ((key_of_mem_addition hmem).symm.trans e)
      rw [hnone, List.append_nil]
  · obtain ⟨fates, hfates⟩ := op.exists_fates hpresent
    rw [hfates.into definitions rfl]
    split
    next hkey =>
      -- On its own definitions the step leaves nothing but their fates.
      subst hkey
      rw [hfates.into _ (carrying_carrying ..), carrying_replaceEach hfates.keys hfates.length]
      have hown := carrying_replaceEach hfates.keys
        (hfates.length.trans (congrArg List.length (carrying_carrying ..).symm))
      rw [← hown]
      refine List.filter_eq_self.mpr fun definition hmem => ?_
      have hsublist := keysOf_replaceEach_sublist hfates.keys (carrying right.key definitions)
      obtain ⟨origin, horigin, hkey⟩ :=
        List.mem_map.mp (hsublist.subset (List.mem_map_of_mem hmem))
      simpa [← hkey] using (mem_carrying.mp horigin).2
    next hkey => exact carrying_replaceEach_of_ne hfates.keys hkey definitions

/-- The run on one key. -/
theorem carrying_foldl_into (key : DefinitionKey) (definitions source : List Definition) :
    carrying key (source.foldl op.into definitions) =
      (carrying key source).foldl op.into (carrying key definitions) := by
  induction source generalizing definitions with
  | nil => rfl
  | cons right rest ih =>
    rw [List.foldl_cons, ih, carrying_into, carrying_cons]
    split
    next => rfl
    next => rfl

/-- A key that is there brings no new key. -/
theorem keysOf_into_sublist {definitions : List Definition} {right : Definition}
    (h : carrying right.key definitions ≠ []) :
    (keysOf (op.into definitions right)).Sublist (keysOf definitions) := by
  obtain ⟨fates, hfates⟩ := op.exists_fates h
  rw [hfates.into definitions rfl]
  exact keysOf_replaceEach_sublist hfates.keys definitions

/-- A step brings no key but its own. -/
theorem key_of_mem_into {definitions : List Definition} {right definition : Definition}
    (h : definition ∈ op.into definitions right) :
    definition.key ∈ keysOf definitions ∨ definition.key = right.key := by
  by_cases hown : carrying right.key definitions = []
  · rw [op.into_of_absent (carrying_eq_nil.mp hown)] at h
    rcases List.mem_append.mp h with hold | hadded
    · exact .inl (List.mem_map_of_mem hold)
    · exact .inr (key_of_mem_addition hadded)
  · exact .inl ((op.keysOf_into_sublist hown).subset (List.mem_map_of_mem h))

/-- What stands behind the definitions of the key stays there. -/
theorem into_append_of_front {front back : List Definition} {right : Definition}
    (hfront : carrying right.key front ≠ [])
    (hback : ∀ definition ∈ back, definition.key ≠ right.key) :
    op.into (front ++ back) right = op.into front right ++ back := by
  have hown : carrying right.key (front ++ back) = carrying right.key front := by
    rw [carrying_append, carrying_eq_nil.mpr hback, List.append_nil]
  obtain ⟨fates, hfates⟩ := op.exists_fates hfront
  rw [hfates.into _ hown, hfates.into _ rfl, replaceEach_append front hback]

/-- What stands before the definitions of the key stays there. -/
theorem into_append_of_back {front : List Definition} {right : Definition}
    (hfront : ∀ definition ∈ front, definition.key ≠ right.key) (back : List Definition) :
    op.into (front ++ back) right = front ++ op.into back right := by
  by_cases hback : carrying right.key back = []
  · have habsent := carrying_eq_nil.mp hback
    have hboth : ∀ definition ∈ front ++ back, definition.key ≠ right.key :=
      List.forall_mem_append.mpr ⟨hfront, habsent⟩
    rw [op.into_of_absent hboth, op.into_of_absent habsent, List.append_assoc]
  · have hown : carrying right.key (front ++ back) = carrying right.key back := by
      rw [carrying_append, carrying_eq_nil.mpr hfront, List.nil_append]
    obtain ⟨fates, hfates⟩ := op.exists_fates hback
    rw [hfates.into _ hown, hfates.into _ rfl, replaceEach_append_of_absent hfront]

/-- Steps for two keys that are there may change places. -/
theorem into_comm (first second : Operation) {definitions : List Definition} {one two : Definition}
    (hne : one.key ≠ two.key) (hone : carrying one.key definitions ≠ [])
    (htwo : carrying two.key definitions ≠ []) :
    second.into (first.into definitions one) two = first.into (second.into definitions two) one := by
  obtain ⟨fates, hfates⟩ := first.exists_fates hone
  obtain ⟨others, hothers⟩ := second.exists_fates htwo
  -- Neither step touches the definitions that settle the other one.
  have hafterOne : carrying two.key (first.into definitions one) = carrying two.key definitions := by
    rw [carrying_into, if_neg hne]
  have hafterTwo : carrying one.key (second.into definitions two) = carrying one.key definitions := by
    rw [carrying_into, if_neg hne.symm]
  rw [hothers.into _ hafterOne, hfates.into _ hafterTwo, hfates.into definitions rfl,
    hothers.into definitions rfl, replaceEach_comm hfates.keys hothers.keys hne]

end Operation

/-! ## The leading definition in a merge -/

/-- A written definition leads further ones of its key if a merge gathers none of them with it. -/
structure Definition.Leads (head : Definition) (others : List Definition) : Prop where
  written : head.isExtension = false
  apart : ∀ node, head = .type node → ∀ definition ∈ others, node.piece? definition = none

theorem TypeDefinition.piece?_override (left right : TypeDefinition) :
    (left.override right).piece? = left.piece? := by
  funext definition
  simp [piece?]

theorem TypeDefinition.piece?_gather (into : TypeDefinition) (later : List Definition) :
    (into.gather later).piece? = into.piece? := by
  funext definition
  simp [piece?]

/-- A definition with the source's definitions of its key merged into it, one after the other. -/
def Definition.overrideAll (head : Definition) (rights : List Definition) : Definition :=
  rights.foldl (fun head right => head.override right.normalize.value) head

/-- A merged definition keeps its key. -/
theorem Definition.key_override_normalize {head right : Definition} (hkey : head.key = right.key) :
    (head.override right.normalize.value).key = head.key :=
  keepsKey_override _ _ (hkey.trans right.key_normalize.symm)

theorem Definition.key_overrideAll {head : Definition} {rights : List Definition}
    (hkeys : ∀ right ∈ rights, right.key = head.key) : (head.overrideAll rights).key = head.key := by
  refine List.foldlRecOn (motive := fun merged : Definition => merged.key = head.key) rights _ rfl ?_
  intro merged hmerged right hmem
  exact (key_override_normalize (hmerged.trans (hkeys right hmem).symm)).trans hmerged

namespace Definition.Leads

variable {head : Definition} {others : List Definition}

/-- A definition without others behind it. -/
theorem alone (h : head.isExtension = false) : head.Leads [] :=
  ⟨h, fun _ _ _ hmem => absurd hmem List.not_mem_nil⟩

theorem override (h : head.Leads others) (right : Definition) : (head.override right).Leads others := by
  refine ⟨isExtension_override h.written, ?_⟩
  cases head with
  | type left =>
    intro node hnode definition hmem
    have hsame : node.piece? = left.piece? := by
      cases right with
      | type right =>
        obtain rfl := Definition.type.inj hnode
        exact left.piece?_override right
      | extension right => obtain rfl := Definition.type.inj hnode; rfl
      | directive right => obtain rfl := Definition.type.inj hnode; rfl
      | schema right => obtain rfl := Definition.type.inj hnode; rfl
    rw [hsame]
    exact h.apart left rfl definition hmem
  | extension left => cases h.written
  | directive left => cases right <;> exact fun _ hnode => nomatch hnode
  | schema left => cases right <;> exact fun _ hnode => nomatch hnode

/-- The step: the source's definition goes into the leading one. -/
theorem into (h : head.Leads others) {right : Definition} (hkey : head.key = right.key) :
    Operation.into .merge (head :: others) right = head.override right.normalize.value :: others := by
  have htype : ∀ {left : TypeDefinition} (node : TypeDefinition), head = .type left →
      left.name = node.name →
      mergeTypeInto TypeDefinition.override (head :: others) node =
        .type (left.override node) :: others := by
    rintro left node rfl hname
    have hsame : (Definition.type left).key = ⟨.type, node.name⟩ := congrArg (DefinitionKey.mk _) hname
    have happart := h.apart left rfl
    have hgathered : left.gather others = left := by
      rw [TypeDefinition.gather, List.filterMap_eq_nil_iff.mpr happart, List.foldl_nil]
    have hkept : (others.filter fun definition => (left.piece? definition).isNone) = others := by
      rw [List.filter_eq_self]
      intro definition hmem
      rw [happart definition hmem]
      rfl
    rw [mergeTypeInto, atFirst, if_pos hsame]
    simp only [Definition.typeDefinition?, hgathered, hkept]
  cases right with
  | type right =>
    obtain ⟨left, rfl⟩ := exists_type h.written hkey
    exact htype right rfl (congrArg DefinitionKey.name hkey)
  | extension node =>
    obtain ⟨left, rfl⟩ := exists_type h.written hkey
    exact htype node.toDefinition rfl (congrArg DefinitionKey.name hkey)
  | directive right =>
    obtain ⟨left, rfl⟩ := exists_directive hkey
    have hown : (Definition.directive left).key = ⟨.directive, right.name⟩ := hkey
    show mergeDirectiveInto _ right = _
    rw [mergeDirectiveInto, atFirst, if_pos hown]
    rfl
  | schema right =>
    obtain ⟨left, rfl⟩ := exists_schema hkey
    have hown : (Definition.schema left).key = ⟨.schema, ""⟩ := rfl
    show mergeSchemaInto _ right = _
    rw [mergeSchemaInto, atFirst, if_pos hown]
    rfl

/-- The run: the source's definitions of the key go into the leading one, one after the other. -/
theorem foldl_into (h : head.Leads others) {rights : List Definition}
    (hkeys : ∀ right ∈ rights, right.key = head.key) :
    rights.foldl (Operation.into .merge) (head :: others) = head.overrideAll rights :: others := by
  induction rights generalizing head with
  | nil => rfl
  | cons right rest ih =>
    obtain ⟨hright, hrest⟩ := List.forall_mem_cons.mp hkeys
    have hnext := key_override_normalize hright.symm
    rw [List.foldl_cons, h.into hright.symm,
      ih (h.override _) fun other hmem => (hrest other hmem).trans hnext.symm]
    rfl

theorem overrideAll (h : head.Leads others) (rights : List Definition) :
    (head.overrideAll rights).Leads others :=
  List.foldlRecOn (motive := fun merged : Definition => merged.Leads others) rights _ h
    fun _ hmerged right _ => hmerged.override right.normalize.value

end Definition.Leads

/-- A merge that finds definitions of a key puts one in front of the others: the first one and, if it is a
type node, what is gathered with it. -/
theorem exists_leads {right first : Definition} (later : List Definition)
    (hfirst : first.key = right.key) :
    ∃ (head : Definition) (others : List Definition), head.Leads others ∧ head.key = right.key ∧
      Operation.into .merge (first :: later) right = head.override right.normalize.value :: others ∧
      (AllDistinct (first :: later) → head.NamesDistinct) := by
  have htype : ∀ node : TypeDefinition, first.key = ⟨.type, node.name⟩ →
      ∃ (left : TypeDefinition) (others : List Definition),
        (Definition.type left).Leads others ∧ left.name = node.name ∧
        mergeTypeInto TypeDefinition.override (first :: later) node =
          .type (left.override node) :: others ∧
        (AllDistinct (first :: later) → left.NamesDistinct) := by
    intro node hkey
    obtain ⟨left, hleft, hname⟩ := Definition.exists_typeDefinition? hkey
    refine ⟨left.gather later, later.filter fun definition => (left.piece? definition).isNone, ?_, ?_,
      ?_, ?_⟩
    · refine ⟨rfl, fun other hother definition hmem => ?_⟩
      obtain rfl := Definition.type.inj hother
      rw [TypeDefinition.piece?_gather]
      exact Option.isNone_iff_eq_none.mp (List.mem_filter.mp hmem).2
    · rw [TypeDefinition.name_gather, hname]
    · rw [mergeTypeInto, atFirst, if_pos hkey, hleft]
    · intro hdistinct
      obtain ⟨hhead, hlater⟩ := allDistinct_cons.mp hdistinct
      exact carriesOver_namesDistinct.gather
        ((Definition.namesDistinct_iff hleft).mp hhead) hlater
  cases right with
  | type right =>
    obtain ⟨left, others, hleads, hname, hinto, hdistinct⟩ := htype right hfirst
    exact ⟨.type left, others, hleads, congrArg (DefinitionKey.mk _) hname, hinto, hdistinct⟩
  | extension node =>
    obtain ⟨left, others, hleads, hname, hinto, hdistinct⟩ := htype node.toDefinition hfirst
    exact ⟨.type left, others, hleads, congrArg (DefinitionKey.mk _) hname, hinto, hdistinct⟩
  | directive right =>
    obtain ⟨left, rfl⟩ := Definition.exists_directive hfirst
    have hleads : (Definition.directive left).Leads later := ⟨rfl, fun _ hnode => by cases hnode⟩
    exact ⟨_, later, hleads, hfirst, hleads.into hfirst, fun h => (allDistinct_cons.mp h).1⟩
  | schema right =>
    obtain ⟨left, rfl⟩ := Definition.exists_schema hfirst
    have hleads : (Definition.schema left).Leads later := ⟨rfl, fun _ hnode => by cases hnode⟩
    exact ⟨_, later, hleads, hfirst, hleads.into hfirst, fun h => (allDistinct_cons.mp h).1⟩

/-- A run over source definitions of a key that the target carries puts one in front of the others, with
the source's definitions merged into it. -/
theorem exists_leads_foldl_into {key : DefinitionKey} {own rights : List Definition} (hown : own ≠ [])
    (hrights : rights ≠ []) (hkeys : ∀ definition ∈ own ++ rights, definition.key = key) :
    ∃ (head : Definition) (others : List Definition), head.Leads others ∧ head.key = key ∧
      rights.foldl (Operation.into .merge) own = head.overrideAll rights :: others ∧
      (AllDistinct own → head.NamesDistinct) := by
  obtain ⟨first, later, rfl⟩ := List.exists_cons_of_ne_nil hown
  obtain ⟨right, rest, rfl⟩ := List.exists_cons_of_ne_nil hrights
  obtain ⟨hownKeys, hrightKeys⟩ := List.forall_mem_append.mp hkeys
  obtain ⟨hright, hrest⟩ := List.forall_mem_cons.mp hrightKeys
  have hfirst : first.key = right.key := (hownKeys first List.mem_cons_self).trans hright.symm
  obtain ⟨head, others, hleads, hkey, hinto, hhead⟩ := exists_leads later hfirst
  refine ⟨head, others, hleads, hkey.trans hright, ?_, hhead⟩
  rw [List.foldl_cons, hinto]
  refine (hleads.override _).foldl_into fun other hmem => ?_
  rw [Definition.key_override_normalize hkey, hkey, hright, hrest other hmem]

/-! ## Schemas -/

/-- The document of a merge: the source's definitions go into the target's one after the other. -/
theorem merge_eq_foldl_into {target source : Source R S} {left right : Document}
    (hleft : (target.toDocument .merge .target).value = .ok left)
    (hright : (source.toDocument .merge .source).value = .ok right) :
    ∃ merged : Bundle R S, (merge Policy.rightWins target source).value = .ok merged ∧
      merged.document.definitions = right.definitions.foldl (Operation.into .merge) left.definitions :=
  ⟨_, value_merge Policy.rightWins hleft hright, definitions_mergeBundles_rightWins _ _⟩

/-- The document of a pare. -/
theorem pare_eq_foldl_into {target source : Source R S} {left right : Document}
    (hleft : (target.toDocument .pare .target).value = .ok left)
    (hright : (source.toDocument .pare .source).value = .ok right) :
    ∃ pared : Bundle R S, (pare target source).value = .ok pared ∧
      pared.document.definitions = right.definitions.foldl (Operation.into .pare) left.definitions := by
  refine ⟨_, value_pare hleft hright, ?_⟩
  rw [value_pareBundles]
  exact PareSummary.definitions_foldl _ _

/-! ## Lists of definitions by key -/

/-- Two lists with the same definitions of each key, in any order, are the same up to order. -/
theorem perm_of_carrying {front back : List Definition}
    (h : ∀ key, (carrying key front).Perm (carrying key back)) : front.Perm back := by
  classical
  rw [List.perm_iff_count]
  intro definition
  have hcount : ∀ definitions : List Definition,
      (carrying definition.key definitions).count definition = definitions.count definition :=
    fun definitions => List.count_filter (by simp)
  rw [← hcount front, ← hcount back]
  exact (h definition.key).count_eq definition

/-- A list of definitions is known from its keys and from the definitions of each key. -/
theorem eq_of_carrying {few many : List Definition} (hkeys : (keysOf few).Sublist (keysOf many))
    (h : ∀ key, carrying key few = carrying key many) : few = many := by
  have hlength : few.length = many.length :=
    (perm_of_carrying fun key => List.Perm.of_eq (h key)).length_eq
  have hsame : keysOf few = keysOf many :=
    hkeys.eq_of_length (by rw [keysOf, keysOf, List.length_map, List.length_map, hlength])
  clear hkeys hlength
  induction few generalizing many with
  | nil => exact (List.map_eq_nil_iff.mp hsame.symm).symm
  | cons definition rest ih =>
    cases many with
    | nil => cases hsame
    | cons other others =>
      obtain ⟨hkey, hrest⟩ := List.cons.inj hsame
      -- The first definitions have the same key, so they are the first ones of that key.
      have hfirst := h definition.key
      rw [carrying_cons, carrying_cons, if_pos rfl, if_pos hkey.symm] at hfirst
      obtain ⟨rfl, -⟩ := List.cons.inj hfirst
      have hlater : ∀ key, carrying key rest = carrying key others := by
        intro key
        have hboth := h key
        rw [carrying_cons, carrying_cons] at hboth
        split at hboth
        · exact (List.cons.inj hboth).2
        · exact hboth
      rw [ih hlater hrest]

end SchemaAlgebra
