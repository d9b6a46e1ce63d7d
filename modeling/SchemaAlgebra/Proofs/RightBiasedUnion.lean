import Mathlib.Data.List.Induction
import SchemaAlgebra.Proofs.MergedDocument

/-!
# Merging is a right-biased union

Under the policy that the source wins, a merge keeps the order of the target and adds what is new at
the end.  Every type of the source ends up as a single definition, in the place of the target's
first node of it.  Each of its collections has the target's names and then the source's further ones;
under a name stands the source's last node, or the target's first if the source has none.

A type may be spread over any number of nodes on both sides.  The proof goes through the source from
the front: `Progress` says what the nodes of one type look like when a part of the source has been
merged.

## Main statements

* `carrying_foldl_mergeInto_unite`: what a source makes of a type.
* `keysOf_foldl_mergeInto`: the keys of the merged document, in order.
* `foldl_mergeInto_progress`: the nodes of a type, after any part of the source.
* `merge_isRightBiasedUnion`: the two together, for whole schemas.
-/

namespace SchemaAlgebra

variable {R S : Type}

/-! ## First places -/

section FirstPlaces

variable {κ : Type} [DecidableEq κ]

/-- Keeps the first occurrence only of every key that satisfies `once`. -/
def firstPlaces (once : κ → Bool) : List κ → List κ
  | [] => []
  | key :: rest => key :: (firstPlaces once rest).filter fun other => !(once key && other = key)

theorem mem_firstPlaces {once : κ → Bool} {keys : List κ} {key : κ} :
    key ∈ firstPlaces once keys ↔ key ∈ keys := by
  induction keys with
  | nil => rfl
  | cons first rest ih =>
    by_cases hkey : key = first
    · simp [firstPlaces, hkey]
    · simp [firstPlaces, hkey, ih]

theorem firstPlaces_filter (once keep : κ → Bool) (keys : List κ) :
    firstPlaces once (keys.filter keep) = (firstPlaces once keys).filter keep := by
  induction keys with
  | nil => rfl
  | cons first rest ih =>
    by_cases hfirst : keep first
    · simp [firstPlaces, hfirst, ih, Bool.and_comm]
    · -- The first key is dropped anyway, so it does not matter that its repetitions are.
      rw [List.filter_cons_of_neg hfirst, ih, firstPlaces, List.filter_cons_of_neg hfirst,
        List.filter_filter]
      apply List.filter_congr
      intro other _
      by_cases hother : other = first <;> simp [hother, hfirst]

/-- Keeping first places twice keeps them for both conditions. -/
theorem firstPlaces_firstPlaces (once more : κ → Bool) (keys : List κ) :
    firstPlaces more (firstPlaces once keys) = firstPlaces (fun key => once key || more key) keys := by
  induction keys with
  | nil => rfl
  | cons first rest ih =>
    simp only [firstPlaces, firstPlaces_filter, ih, List.filter_filter, List.cons.injEq, true_and]
    apply List.filter_congr
    intro other _
    by_cases hother : other = first <;> simp [hother, Bool.and_comm]

theorem firstPlaces_congr {once more : κ → Bool} {keys : List κ}
    (h : ∀ key ∈ keys, once key = more key) : firstPlaces once keys = firstPlaces more keys := by
  induction keys with
  | nil => rfl
  | cons first rest ih =>
    rw [firstPlaces, firstPlaces, ih fun key hkey => h key (List.mem_cons_of_mem _ hkey),
      h first List.mem_cons_self]

/-- Without a condition nothing changes. -/
theorem firstPlaces_of_never {once : κ → Bool} {keys : List κ} (h : ∀ key ∈ keys, once key = false) :
    firstPlaces once keys = keys := by
  induction keys with
  | nil => rfl
  | cons first rest ih =>
    rw [firstPlaces, ih fun key hkey => h key (List.mem_cons_of_mem _ hkey)]
    simp [h first List.mem_cons_self]

theorem firstPlaces_of_nodup (once : κ → Bool) {keys : List κ} (h : keys.Nodup) :
    firstPlaces once keys = keys := by
  induction keys with
  | nil => rfl
  | cons first rest ih =>
    rw [List.nodup_cons] at h
    rw [firstPlaces, ih h.2, List.filter_eq_self.mpr]
    intro other hother
    have hne : other ≠ first := fun e => h.1 (e ▸ hother)
    simp [hne]

/-- A key that is kept once stays where it stands first. -/
theorem firstPlaces_split {once : κ → Bool} {key : κ} {front : List κ} (back : List κ)
    (honce : ∀ other, once other = decide (other = key)) (hfront : key ∉ front) :
    firstPlaces once (front ++ key :: back) = front ++ key :: back.filter (· ≠ key) := by
  induction front with
  | nil =>
    -- No key but this one is kept once, and behind its first place it is gone.
    have hothers : ∀ other ∈ back.filter (· ≠ key), once other = false := by
      intro other hother
      simpa [honce] using (List.mem_filter.mp hother).2
    rw [List.nil_append, firstPlaces, ← firstPlaces_filter, List.nil_append]
    simp only [honce key, decide_true, Bool.true_and, ← decide_not]
    rw [firstPlaces_of_never hothers]
  | cons first rest ih =>
    rw [List.mem_cons, not_or] at hfront
    have hfirst : once first = false := by
      rw [honce, decide_eq_false_iff_not]
      exact fun e => hfront.1 e.symm
    rw [List.cons_append, firstPlaces, ih hfront.2, hfirst]
    simp

theorem firstPlaces_append (once : κ → Bool) (front back : List κ) :
    firstPlaces once (front ++ back) = firstPlaces once front ++
      (firstPlaces once back).filter fun key => !(once key && key ∈ front) := by
  induction front with
  | nil =>
    rw [List.nil_append, firstPlaces, List.nil_append, List.filter_eq_self.mpr]
    intro _ _
    simp
  | cons first rest ih =>
    simp only [List.cons_append, firstPlaces, ih, List.filter_append, List.filter_filter,
      List.cons.injEq, true_and]
    congr 1
    apply List.filter_congr
    intro other _
    by_cases hother : other = first
    · subst hother
      cases once other <;> simp
    · simp [hother]

theorem nodup_eraseDups (keys : List κ) : keys.eraseDups.Nodup := by
  -- `eraseDups` goes on with a filtered tail, so the induction is on the length.
  induction hlength : keys.length using Nat.strongRecOn generalizing keys with
  | ind length ih =>
    cases keys with
    | nil => simp
    | cons first rest =>
      have hshorter : (rest.filter fun key => !key == first).length < length := by
        rw [← hlength]
        exact Nat.lt_succ_of_le (List.length_filter_le _ _)
      rw [List.eraseDups_cons, List.nodup_cons]
      refine ⟨?_, ih _ hshorter _ rfl⟩
      simp [List.mem_eraseDups]

/-- Keeping first places in a list whose end repeats nothing concerns its front only. -/
theorem firstPlaces_firstPlaces_append (once more : κ → Bool) {front back : List κ}
    (hback : back.Nodup) (hnew : ∀ key ∈ back, key ∉ front) :
    firstPlaces more (firstPlaces once front ++ back) =
      firstPlaces (fun key => once key || more key) front ++ back := by
  rw [firstPlaces_append, firstPlaces_firstPlaces, firstPlaces_of_nodup more hback,
    List.filter_eq_self.mpr]
  intro key hkey
  simp [mem_firstPlaces, hnew key hkey]

/-- The keys that are not known yet, each once. -/
def furtherKeys (known keys : List κ) : List κ := (keys.filter (· ∉ known)).eraseDups

theorem mem_furtherKeys {known keys : List κ} {key : κ} :
    key ∈ furtherKeys known keys ↔ key ∈ keys ∧ key ∉ known := by
  simp [furtherKeys, List.mem_eraseDups]

theorem nodup_furtherKeys (known keys : List κ) : (furtherKeys known keys).Nodup := nodup_eraseDups _

/-- A key at the end of a list counts if it is neither known nor in the list. -/
theorem furtherKeys_snoc (known keys : List κ) (key : κ) :
    furtherKeys known (keys ++ [key]) =
      furtherKeys known keys ++ if key ∈ known ∨ key ∈ keys then [] else [key] := by
  rw [furtherKeys, furtherKeys, List.filter_append, List.eraseDups_append]
  by_cases hknown : key ∈ known
  · simp [hknown, List.removeAll]
  · by_cases hkey : key ∈ keys <;> simp [hknown, hkey, List.removeAll, List.eraseDups_cons]

end FirstPlaces

/-! ## One step -/

namespace TypeDefinition

/-- Nodes of one kind. -/
def SameKind (nodes : List TypeDefinition) : Prop :=
  ∀ left ∈ nodes, ∀ right ∈ nodes, left.kind = right.kind

theorem SameKind.mono {few many : List TypeDefinition} (h : SameKind many) (hsub : few ⊆ many) :
    SameKind few := fun left hleft right hright => h left (hsub hleft) right (hsub hright)

theorem SameKind.singleton (node : TypeDefinition) : SameKind [node] := by
  intro left hleft right hright
  rw [List.mem_singleton.mp hleft, List.mem_singleton.mp hright]

/-- What merging a source node makes of the nodes of its type, if they are of one kind. -/
def unite : List TypeDefinition → TypeDefinition → TypeDefinition
  | [], right => right
  | first :: later, right => (later.foldl absorb first).override right

theorem name_foldl_absorb (first : TypeDefinition) (later : List TypeDefinition) :
    (later.foldl absorb first).name = first.name := by
  induction later generalizing first with
  | nil => rfl
  | cons piece rest ih => exact ih (first.absorb piece)

theorem kind_foldl_absorb (first : TypeDefinition) (later : List TypeDefinition) :
    (later.foldl absorb first).kind = first.kind := by
  induction later generalizing first with
  | nil => rfl
  | cons piece rest ih => exact (ih (first.absorb piece)).trans (first.kind_absorb piece)

theorem name_unite {nodes : List TypeDefinition} {right : TypeDefinition}
    (h : ∀ node ∈ nodes, node.name = right.name) : (unite nodes right).name = right.name := by
  cases nodes with
  | nil => rfl
  | cons first later => exact (name_foldl_absorb first later).trans (h first List.mem_cons_self)

variable {into : TypeDefinition}

/-- The pieces of a type are its nodes of the same kind. -/
theorem filterMap_piece?_eq_filter (into : TypeDefinition) (later : List Definition) :
    later.filterMap into.piece? = (nodesOf into.name later).filter (·.kind = into.kind) := by
  rw [nodesOf_eq_filter, List.filter_filter, typeNodes, List.filter_filterMap]
  congr 1
  funext definition
  simp only [piece?, Bool.decide_and, Bool.and_comm]

section OneKind

variable {later : List Definition} (h : ∀ node ∈ nodesOf into.name later, node.kind = into.kind)
include h

/-- Nodes of one kind are all gathered. -/
theorem filterMap_piece? : later.filterMap into.piece? = nodesOf into.name later := by
  rw [filterMap_piece?_eq_filter, List.filter_eq_self]
  exact fun node hnode => decide_eq_true (h node hnode)

/-- What is not gathered is what is no node of the type. -/
theorem filter_piece? :
    (later.filter fun definition => (into.piece? definition).isNone) =
      later.filter (·.key ≠ ⟨.type, into.name⟩) := by
  apply List.filter_congr
  intro definition hmem
  by_cases hkey : definition.key = ⟨.type, into.name⟩
  · obtain ⟨piece, hpiece, hname⟩ := Definition.exists_typeDefinition? hkey
    have hkind := h piece (mem_nodesOf.mpr ⟨definition, hmem, hpiece, hname⟩)
    simp [piece?_of_kind hpiece hname hkind, hkey]
  · simp [piece?_eq_none hkey, hkey]

end OneKind

end TypeDefinition

open TypeDefinition (SameKind unite)

/-- Merging into the first node of a type, if its nodes are of one kind. -/
theorem mergeTypeInto_of_split {front later : List Definition} {first : Definition}
    {right : TypeDefinition} (hkey : first.key = ⟨.type, right.name⟩)
    (hfront : ∀ earlier ∈ front, earlier.key ≠ ⟨.type, right.name⟩)
    (hsame : SameKind (nodesOf right.name (front ++ first :: later))) :
    mergeTypeInto TypeDefinition.override (front ++ first :: later) right =
      front ++ .type (unite (nodesOf right.name (front ++ first :: later)) right) ::
        later.filter (·.key ≠ ⟨.type, right.name⟩) := by
  obtain ⟨left, hleft, hname⟩ := Definition.exists_typeDefinition? hkey
  rw [nodesOf_of_split later hfront hleft hname] at hsame ⊢
  -- The later nodes are of the kind of the first one, so all of them are gathered.
  have hkind : ∀ node ∈ nodesOf left.name later, node.kind = left.kind := by
    rw [hname]
    intro node hnode
    exact hsame node (List.mem_cons_of_mem _ hnode) left List.mem_cons_self
  rw [mergeTypeInto, atFirst_of_split later hfront hkey, hleft]
  simp only [TypeDefinition.gather, TypeDefinition.filterMap_piece? hkind,
    TypeDefinition.filter_piece? hkind, hname, unite]

theorem mergeTypeInto_of_absent {join : TypeDefinition → TypeDefinition → TypeDefinition}
    {definitions : List Definition} {right : TypeDefinition}
    (h : ∀ definition ∈ definitions, definition.key ≠ ⟨.type, right.name⟩) :
    mergeTypeInto join definitions right = definitions ++ [.type right] :=
  atFirst_of_absent h

/-- After a merge a type has one node, a definition. -/
theorem carrying_mergeTypeInto {definitions : List Definition} {right : TypeDefinition}
    (hsame : SameKind (nodesOf right.name definitions)) :
    carrying ⟨.type, right.name⟩ (mergeTypeInto TypeDefinition.override definitions right) =
      [.type (unite (nodesOf right.name definitions) right)] := by
  rcases exists_first ⟨.type, right.name⟩ definitions with
    habsent | ⟨front, first, later, rfl, hkey, hfront⟩
  · rw [mergeTypeInto_of_absent habsent, nodesOf_eq_nil_of_absent habsent, carrying_append,
      carrying_eq_nil.mpr habsent]
    simp [carrying, Definition.key, unite]
  · rw [mergeTypeInto_of_split hkey hfront hsame, carrying_append, carrying_eq_nil.mpr hfront,
      List.nil_append, carrying_cons, carrying_filter_ne, if_pos rfl, Definition.key_type,
      TypeDefinition.name_unite fun node hnode => name_of_mem_nodesOf hnode, if_pos rfl]

/-! ## Keys -/

/-- Whether a key is one of a type that the source carries. -/
def carriesType (source : List Definition) (key : DefinitionKey) : Bool :=
  key.space = .type && key ∈ keysOf source

/-- Where the first definition of a key is only rewritten, the keys stay. -/
theorem keysOf_atFirst_rewrite {key : DefinitionKey}
    {found : Definition → List Definition → List Definition} {added : Definition}
    (hadded : added.key = key)
    (hfound : ∀ first later, first.key = key →
      ∃ rewritten, rewritten.key = key ∧ found first later = rewritten :: later)
    (definitions : List Definition) :
    keysOf (atFirst key found [added] definitions) =
      keysOf definitions ++ if key ∈ keysOf definitions then [] else [key] := by
  rcases exists_first key definitions with habsent | ⟨front, first, later, rfl, hkey, hfront⟩
  · have hnew : key ∉ keysOf definitions := by simpa [keysOf] using habsent
    rw [atFirst_of_absent habsent, if_neg hnew]
    simp [keysOf, hadded]
  · obtain ⟨rewritten, hrewritten, hvalue⟩ := hfound first later hkey
    have hpresent : key ∈ keysOf (front ++ first :: later) := by simp [keysOf, hkey]
    rw [atFirst_of_split later hfront hkey, hvalue, if_pos hpresent, List.append_nil]
    simp [keysOf, hrewritten, hkey]

theorem keysOf_mergeTypeInto {definitions : List Definition} {right : TypeDefinition}
    (hsame : SameKind (nodesOf right.name definitions)) :
    keysOf (mergeTypeInto TypeDefinition.override definitions right) =
      firstPlaces (· = ⟨.type, right.name⟩) (keysOf definitions) ++
        if ⟨.type, right.name⟩ ∈ keysOf definitions then [] else [⟨.type, right.name⟩] := by
  rcases exists_first ⟨.type, right.name⟩ definitions with
    habsent | ⟨front, first, later, rfl, hkey, hfront⟩
  · have hnew : ⟨.type, right.name⟩ ∉ keysOf definitions := by simpa [keysOf] using habsent
    rw [mergeTypeInto_of_absent habsent, if_neg hnew, firstPlaces_of_never]
    · simp [keysOf]
    · intro key hmem
      simpa using fun e : key = ⟨.type, right.name⟩ => hnew (e ▸ hmem)
  · -- The first node is rewritten where it stands, and all later ones go.
    have hpresent : ⟨.type, right.name⟩ ∈ keysOf (front ++ first :: later) := by
      simp [keysOf, hkey]
    have hnew : ⟨.type, right.name⟩ ∉ keysOf front := by simpa [keysOf] using hfront
    have hkeys : keysOf (front ++ first :: later) =
        keysOf front ++ ⟨.type, right.name⟩ :: keysOf later := by simp [keysOf, hkey]
    have hlater : keysOf (later.filter (·.key ≠ ⟨.type, right.name⟩)) =
        (keysOf later).filter (· ≠ ⟨.type, right.name⟩) := by
      simp only [keysOf, List.filter_map]
      rfl
    have hname : (unite (nodesOf right.name (front ++ first :: later)) right).name = right.name :=
      TypeDefinition.name_unite fun node hnode => name_of_mem_nodesOf hnode
    rw [mergeTypeInto_of_split hkey hfront hsame, if_pos hpresent, List.append_nil, hkeys,
      firstPlaces_split _ (fun _ => rfl) hnew, ← hlater]
    simp only [keysOf, List.map_append, List.map_cons, Definition.key_type, hname]

/-- One step keeps the order of the keys.  A type of the source is kept in its first place only, and
a new key goes to the end. -/
theorem keysOf_mergeInto {definitions : List Definition} {right : Definition}
    (hsame : ∀ name, right.key = ⟨.type, name⟩ → SameKind (nodesOf name definitions)) :
    keysOf (mergeInto TypeDefinition.override definitions right) =
      firstPlaces (carriesType [right]) (keysOf definitions) ++
        if right.key ∈ keysOf definitions then [] else [right.key] := by
  have htype : ∀ name, right.key = ⟨.type, name⟩ →
      carriesType [right] = fun key => decide (key = ⟨.type, name⟩) := by
    intro name hkey
    funext key
    by_cases h : key = ⟨.type, name⟩ <;> simp [carriesType, keysOf, hkey, h]
  -- Directive and schema definitions are not gathered, so all places of their keys stay.
  have hother : right.key.space ≠ .type →
      firstPlaces (carriesType [right]) (keysOf definitions) = keysOf definitions := by
    intro hspace
    apply firstPlaces_of_never
    intro key _
    by_cases h : key = right.key <;> simp [carriesType, keysOf, h, hspace]
  cases right with
  | type right =>
    rw [htype right.name rfl]
    exact keysOf_mergeTypeInto (hsame right.name rfl)
  | extension node =>
    rw [htype node.name rfl]
    show keysOf (mergeTypeInto _ definitions node.toDefinition) = _
    exact keysOf_mergeTypeInto (hsame node.name rfl)
  | directive right =>
    rw [hother (by simp)]
    exact keysOf_atFirst_rewrite rfl (fun _ _ _ => ⟨.directive right, rfl, rfl⟩) definitions
  | schema right =>
    rw [hother (by simp)]
    refine keysOf_atFirst_rewrite ?_ ?_ definitions
    · rfl
    · intro first later hkey
      obtain ⟨left, rfl⟩ := Definition.exists_schema hkey
      exact ⟨.schema (left.override right), rfl, rfl⟩

/-! ## The nodes of a type -/

/-- Nodes that repeat no name come out of the merge with an empty collection as they are. -/
theorem settleAll_nil_of_nodup {α : Type} [Named α] (resolve : α → α → α) {nodes : List α}
    (h : (namesOf nodes).Nodup) : settleAll resolve [] nodes = nodes :=
  settleAll_of_nodup resolve h

namespace TypeDefinition

/-- A part of the node that later nodes of its kind were gathered with. -/
theorem part_foldl_absorb {α : Type} [Named α] (part : Part α) {first : TypeDefinition}
    {later : List TypeDefinition} (h : ∀ piece ∈ later, first.kind = piece.kind) :
    part.nodes (later.foldl absorb first) =
      firstWins (part.nodes first) (later.flatMap part.nodes) := by
  induction later generalizing first with
  | nil => rfl
  | cons piece rest ih =>
    have hpiece := h piece List.mem_cons_self
    have hrest : ∀ other ∈ rest, (first.absorb piece).kind = other.kind := by
      intro other hother
      rw [kind_absorb]
      exact h other (List.mem_cons_of_mem _ hother)
    calc part.nodes ((piece :: rest).foldl absorb first)
        = firstWins (part.nodes (first.absorb piece)) (rest.flatMap part.nodes) := ih hrest
      _ = firstWins (firstWins (part.nodes first) (part.nodes piece)) (rest.flatMap part.nodes) := by
          rw [part.absorb first piece hpiece]
      _ = firstWins (part.nodes first) ((piece :: rest).flatMap part.nodes) :=
          (settleAll_append ..).symm

/-- A node in which the nodes of a type on both sides are merged, part by part: among the target's
nodes the first of a name stays, and the source's nodes overwrite each other and the target's. -/
structure Merges (targets sources : List TypeDefinition) (merged : TypeDefinition) : Prop where
  kind : ∀ node ∈ targets ++ sources, merged.kind = node.kind
  part : ∀ {α : Type} [Named α] (part : Part α), part.nodes merged =
    lastWins (firstWins [] (targets.flatMap part.nodes)) (sources.flatMap part.nodes)

/-- The first source node of a type is merged with all nodes of the target. -/
theorem merges_unite {targets : List TypeDefinition} {right : TypeDefinition}
    (hsame : SameKind (targets ++ [right]))
    (hdistinct : ∀ node ∈ targets ++ [right], node.NamesDistinct) :
    Merges targets [right] (unite targets right) := by
  have hright : right ∈ targets ++ [right] := List.mem_append_right _ (List.mem_singleton_self right)
  cases targets with
  | nil =>
    -- Without a node in the target the source node is taken as it is.
    refine ⟨fun node hnode => hsame right hright node hnode, ?_⟩
    intro α _ part
    have hnodup := part.distinct right (hdistinct right hright)
    rw [List.flatMap_singleton]
    exact (settleAll_nil_of_nodup _ hnodup).symm
  | cons first later =>
    have hfirst : first ∈ first :: later ++ [right] := List.mem_cons_self
    have hlater : ∀ piece ∈ later, first.kind = piece.kind := fun piece hpiece =>
      hsame first hfirst piece (List.mem_cons_of_mem _ (List.mem_append_left _ hpiece))
    refine ⟨fun node hnode => ?_, ?_⟩
    · rw [unite, kind_override, kind_foldl_absorb]
      exact hsame first hfirst node hnode
    · intro α _ part
      have hnodup := part.distinct first (hdistinct first hfirst)
      have hkind : (later.foldl absorb first).kind = right.kind :=
        (kind_foldl_absorb first later).trans (hsame first hfirst right hright)
      have hgathered : firstWins [] ((first :: later).flatMap part.nodes) =
          firstWins (part.nodes first) (later.flatMap part.nodes) := by
        rw [List.flatMap_cons, firstWins, settleAll_append, settleAll_nil_of_nodup _ hnodup]
        rfl
      rw [unite, part.override _ _ hkind, part_foldl_absorb part hlater, hgathered,
        List.flatMap_singleton]

/-- A further source node of a type is merged with the one node that the type has by then. -/
theorem Merges.unite {targets sources : List TypeDefinition} {merged right : TypeDefinition}
    (h : Merges targets sources merged) (hkind : merged.kind = right.kind) :
    Merges targets (sources ++ [right]) (unite [merged] right) := by
  refine ⟨fun node hnode => ?_, ?_⟩
  · rw [TypeDefinition.unite, List.foldl_nil, kind_override]
    rw [← List.append_assoc] at hnode
    rcases List.mem_append.mp hnode with hbefore | hlast
    · exact h.kind node hbefore
    · rw [List.mem_singleton.mp hlast, hkind]
  · intro α _ part
    rw [TypeDefinition.unite, List.foldl_nil, part.override _ _ hkind, h.part part,
      List.flatMap_append, List.flatMap_singleton]
    exact (settleAll_append ..).symm

end TypeDefinition

/-- How far a merge has got with a type when it has merged a part of the source.  Up to the first
node of the type nothing has changed; from then on there is one definition, which merges the
target's nodes with the source's nodes so far. -/
def Progress (name : String) (target part merged : List Definition) : Prop :=
  nodesOf name part = [] ∧ carrying ⟨.type, name⟩ merged = carrying ⟨.type, name⟩ target ∨
  nodesOf name part ≠ [] ∧ ∃ node, carrying ⟨.type, name⟩ merged = [.type node] ∧
    node.Merges (nodesOf name target) (nodesOf name part)

theorem mergeInto_of_typeDefinition? {join : TypeDefinition → TypeDefinition → TypeDefinition}
    {right : Definition} {node : TypeDefinition} (h : right.typeDefinition? = some node)
    (definitions : List Definition) :
    mergeInto join definitions right = mergeTypeInto join definitions node := by
  rcases Definition.eq_of_typeDefinition? h with rfl | ⟨extension, rfl, rfl⟩
  · rfl
  · rfl

/-- What a source makes of a type whose nodes in the target are of one kind: its first node is merged
with all of them, and each further one with what the nodes before it gave. -/
theorem carrying_foldl_mergeInto_unite {name : String} {definitions : List Definition}
    (source : List Definition) (hsame : SameKind (nodesOf name definitions)) :
    carrying ⟨.type, name⟩ (source.foldl (mergeInto TypeDefinition.override) definitions) =
      match nodesOf name source with
      | [] => carrying ⟨.type, name⟩ definitions
      | right :: rest =>
        [.type (rest.foldl TypeDefinition.override (unite (nodesOf name definitions) right))] := by
  induction source generalizing definitions with
  | nil => rfl
  | cons right rest ih =>
    rw [List.foldl_cons]
    by_cases hkey : right.key = ⟨.type, name⟩
    · obtain ⟨node, hnode, rfl⟩ := Definition.exists_typeDefinition? hkey
      have hmerged := carrying_mergeTypeInto hsame
      rw [← mergeInto_of_typeDefinition? hnode] at hmerged
      -- From now on the type has one node, which the rest of the source is merged into.
      have hnext : nodesOf node.name (mergeInto TypeDefinition.override definitions right) =
          [unite (nodesOf node.name definitions) node] := by
        rw [nodesOf, hmerged]
        rfl
      rw [ih (hnext ▸ SameKind.singleton _), nodesOf_cons_of_node hnode rfl, hmerged, hnext]
      cases nodesOf node.name rest with
      | nil => rfl
      | cons next others => rfl
    · have huntouched := carrying_mergeInto_of_ne TypeDefinition.name_override hkey definitions
      have hnext : nodesOf name (mergeInto TypeDefinition.override definitions right) =
          nodesOf name definitions := by
        rw [nodesOf, huntouched, nodesOf]
      rw [ih (hnext ▸ hsame), hnext, huntouched, nodesOf_cons_of_ne hkey]

section Progress

variable {name : String} {target part merged : List Definition}

/-- The nodes of a type stay of one kind throughout the merge. -/
theorem Progress.sameKind (h : Progress name target part merged)
    (hsame : SameKind (nodesOf name target)) : SameKind (nodesOf name merged) := by
  rcases h with ⟨-, huntouched⟩ | ⟨-, node, hone, -⟩
  · rw [nodesOf, huntouched]
    exact hsame
  · have hnodes : nodesOf name merged = [node] := by rw [nodesOf, hone]; rfl
    rw [hnodes]
    exact SameKind.singleton node

/-- The step: merging one more definition of the source. -/
theorem Progress.mergeInto (h : Progress name target part merged) {right : Definition}
    (hsame : SameKind (nodesOf name (target ++ (part ++ [right]))))
    (hdistinct : ∀ node ∈ nodesOf name (target ++ (part ++ [right])), node.NamesDistinct) :
    Progress name target (part ++ [right])
      (mergeInto TypeDefinition.override merged right) := by
  by_cases hkey : right.key = ⟨.type, name⟩
  · obtain ⟨node, hnode, rfl⟩ := Definition.exists_typeDefinition? hkey
    have hlast : nodesOf node.name [right] = [node] := by rw [nodesOf_singleton hnode, if_pos rfl]
    simp only [nodesOf_append, hlast] at hsame hdistinct
    have hmerged : SameKind (nodesOf node.name merged) :=
      h.sameKind (hsame.mono (List.subset_append_left _ _))
    refine .inr ⟨?_, unite (nodesOf node.name merged) node, ?_, ?_⟩
    · simp [hlast]
    · rw [mergeInto_of_typeDefinition? hnode, carrying_mergeTypeInto hmerged]
    rw [nodesOf_append, hlast]
    rcases h with ⟨hnone, huntouched⟩ | ⟨hsome, before, hone, hmerges⟩
    · -- This is the source's first node of the type, and the target's nodes are still there.
      have htargets : nodesOf node.name merged = nodesOf node.name target := by
        rw [nodesOf, huntouched, nodesOf]
      rw [hnone, List.nil_append] at hsame hdistinct
      rw [htargets, hnone, List.nil_append]
      exact TypeDefinition.merges_unite hsame hdistinct
    · -- The type has one node by now, of the kind of the source's earlier nodes.
      have hbefore : nodesOf node.name merged = [before] := by rw [nodesOf, hone]; rfl
      rw [hbefore]
      apply hmerges.unite
      obtain ⟨earlier, hearlier⟩ := List.exists_mem_of_ne_nil _ hsome
      have hkind : before.kind = earlier.kind :=
        hmerges.kind earlier (List.mem_append_right _ hearlier)
      rw [hkind]
      exact hsame earlier (by simp [hearlier]) node (by simp)
  · -- A definition of another key counts neither in the source nor in what is merged.
    have huntouched := carrying_mergeInto_of_ne TypeDefinition.name_override hkey merged
    have hpart : nodesOf name (part ++ [right]) = nodesOf name part := by
      rw [nodesOf_append, nodesOf_singleton_of_ne hkey, List.append_nil]
    rw [Progress, hpart, huntouched]
    exact h

/-- The run: the nodes of a type after any part of the source. -/
theorem foldl_mergeInto_progress (hsame : SameKind (nodesOf name (target ++ part)))
    (hdistinct : ∀ node ∈ nodesOf name (target ++ part), node.NamesDistinct) :
    Progress name target part
      (part.foldl (SchemaAlgebra.mergeInto TypeDefinition.override) target) := by
  -- From the end of the part: its last definition is merged into what the others gave.
  induction part using List.reverseRecOn with
  | nil => exact .inl ⟨rfl, rfl⟩
  | append_singleton part right ih =>
    have hsub : nodesOf name (target ++ part) ⊆ nodesOf name (target ++ (part ++ [right])) := by
      simp
    rw [List.foldl_append]
    have hpart := ih (hsame.mono hsub) fun node hnode => hdistinct node (hsub hnode)
    exact hpart.mergeInto hsame hdistinct

end Progress

/-! ## The whole merge -/

/-- All nodes of a type are of one kind. -/
def OneKind (definitions : List Definition) : Prop :=
  ∀ left ∈ typeNodes definitions, ∀ right ∈ typeNodes definitions,
    left.name = right.name → left.kind = right.kind

/-- No type node repeats a name within one of its collections. -/
def NodesDistinct (definitions : List Definition) : Prop :=
  ∀ node ∈ typeNodes definitions, node.NamesDistinct

instance (definitions : List Definition) : Decidable (OneKind definitions) :=
  inferInstanceAs (Decidable (∀ _ ∈ typeNodes definitions, _))

instance (definitions : List Definition) : Decidable (NodesDistinct definitions) :=
  inferInstanceAs (Decidable (∀ _ ∈ typeNodes definitions, _))

theorem OneKind.mono {few many : List Definition} (h : OneKind many) (hsub : few ⊆ many) :
    OneKind few := fun left hleft right hright =>
  h left (typeNodes_subset hsub hleft) right (typeNodes_subset hsub hright)

theorem NodesDistinct.mono {few many : List Definition} (h : NodesDistinct many)
    (hsub : few ⊆ many) : NodesDistinct few :=
  fun node hnode => h node (typeNodes_subset hsub hnode)

theorem OneKind.sameKind {definitions : List Definition} (h : OneKind definitions) (name : String) :
    SameKind (nodesOf name definitions) := by
  intro left hleft right hright
  apply h left (mem_typeNodes_of_mem_nodesOf hleft) right (mem_typeNodes_of_mem_nodesOf hright)
  rw [name_of_mem_nodesOf hleft, name_of_mem_nodesOf hright]

/-- The keys of the merged definitions, after any part of the source. -/
theorem keysOf_foldl_mergeInto {target part : List Definition} (hkind : OneKind (target ++ part))
    (hdistinct : NodesDistinct (target ++ part)) :
    keysOf (part.foldl (mergeInto TypeDefinition.override) target) =
      firstPlaces (carriesType part) (keysOf target) ++ furtherKeys (keysOf target) (keysOf part) := by
  induction part using List.reverseRecOn with
  | nil =>
    have hnever : ∀ key ∈ keysOf target, carriesType [] key = false := by
      intro key _
      simp [carriesType, keysOf]
    rw [firstPlaces_of_never hnever]
    simp [keysOf, furtherKeys]
  | append_singleton part right ih =>
    have hsub : target ++ part ⊆ target ++ (part ++ [right]) := by simp
    let merged := part.foldl (mergeInto TypeDefinition.override) target
    -- What a step does to the keys is known for nodes of one kind, and these `Progress` provides.
    have hsame : ∀ name, right.key = ⟨.type, name⟩ → SameKind (nodesOf name merged) := by
      intro name _
      have hprogress := foldl_mergeInto_progress ((hkind.mono hsub).sameKind name)
        fun node hnode => hdistinct.mono hsub node (mem_typeNodes_of_mem_nodesOf hnode)
      exact hprogress.sameKind ((hkind.mono (List.subset_append_left _ _)).sameKind name)
    have hmerged : keysOf merged =
        firstPlaces (carriesType part) (keysOf target) ++ furtherKeys (keysOf target) (keysOf part) :=
      ih (hkind.mono hsub) (hdistinct.mono hsub)
    have hpresent : right.key ∈ keysOf merged ↔
        right.key ∈ keysOf target ∨ right.key ∈ keysOf part := by
      rw [hmerged, List.mem_append, mem_firstPlaces, mem_furtherKeys]
      by_cases h : right.key ∈ keysOf target <;> simp [h]
    have hkeys : keysOf (part ++ [right]) = keysOf part ++ [right.key] :=
      keysOf_append part [right]
    have hcarries : ∀ key ∈ keysOf target,
        (carriesType part key || carriesType [right] key) = carriesType (part ++ [right]) key := by
      intro key _
      by_cases h : key.space = .type <;> simp [carriesType, keysOf, h]
    have hfirst : firstPlaces (carriesType [right]) (keysOf merged) =
        firstPlaces (carriesType (part ++ [right])) (keysOf target) ++
          furtherKeys (keysOf target) (keysOf part) := by
      rw [hmerged, firstPlaces_firstPlaces_append _ _ (nodup_furtherKeys _ _)
        fun key hkey => (mem_furtherKeys.mp hkey).2, firstPlaces_congr hcarries]
    rw [List.foldl_append, List.foldl_cons, List.foldl_nil, keysOf_mergeInto hsame, hfirst, hkeys,
      furtherKeys_snoc, List.append_assoc]
    simp only [hpresent]

/-- A collection in which a left and a right one are united.  The left names come first, then the
further right names, each by its first occurrence.  Under a name stands the last right node, or the
first left one if there is no right one. -/
structure RightBiased {α : Type} [Named α] (left right merged : List α) : Prop where
  names : namesOf merged =
    (namesOf left).eraseDups ++ ((namesOf right).filter (· ∉ namesOf left)).eraseDups
  node : ∀ name, findSibling merged name =
    (findSibling right.reverse name).or (findSibling left name)

theorem rightBiased_lastWins {α : Type} [Named α] (left right : List α) :
    RightBiased left right (lastWins (firstWins [] left) right) := by
  have hleft : namesOf (firstWins [] left) = (namesOf left).eraseDups := by
    rw [firstWins, namesOf_settleAll keepsName_first, namesOf_nil, List.nil_append,
      List.filter_eq_self.mpr]
    intro name _
    simp
  refine ⟨?_, ?_⟩
  · rw [lastWins, namesOf_settleAll keepsName_last, hleft]
    simp only [List.mem_eraseDups]
  · intro name
    rw [findSibling_lastWins, findSibling_firstWins]
    rfl

/-- The node of a type in which the nodes of both sides are united, collection by collection. -/
structure TypeDefinition.Unites (targets sources : List TypeDefinition) (merged : TypeDefinition) :
    Prop where
  kind : ∀ node ∈ targets ++ sources, merged.kind = node.kind
  directives : RightBiased (targets.flatMap (·.directives)) (sources.flatMap (·.directives))
    merged.directives
  outputFields : RightBiased (targets.flatMap (·.body.outputFields))
    (sources.flatMap (·.body.outputFields)) merged.body.outputFields
  inputFields : RightBiased (targets.flatMap (·.body.inputFields))
    (sources.flatMap (·.body.inputFields)) merged.body.inputFields
  enumValues : RightBiased (targets.flatMap (·.body.enumValues))
    (sources.flatMap (·.body.enumValues)) merged.body.enumValues
  unionMembers : RightBiased (targets.flatMap (·.body.unionMembers))
    (sources.flatMap (·.body.unionMembers)) merged.body.unionMembers

theorem TypeDefinition.Merges.unites {targets sources : List TypeDefinition}
    {merged : TypeDefinition} (h : Merges targets sources merged) :
    Unites targets sources merged := by
  have hpart : ∀ {α : Type} [Named α] (part : Part α), RightBiased (targets.flatMap part.nodes)
      (sources.flatMap part.nodes) (part.nodes merged) := by
    intro α _ part
    rw [h.part part]
    exact rightBiased_lastWins _ _
  exact ⟨h.kind, hpart .directives, hpart .outputFields, hpart .inputFields, hpart .enumValues,
    hpart .unionMembers⟩

/-- Definitions in which those of a target and of a source are united.  Their keys are the target's,
where each type of the source stands in its first place only, and then the source's further keys, by
their first occurrence.  Each type of the source has exactly one node, a definition. -/
structure IsRightBiasedUnion (target source merged : List Definition) : Prop where
  keys : keysOf merged = firstPlaces (carriesType source) (keysOf target) ++
    ((keysOf source).filter (· ∉ keysOf target)).eraseDups
  types : ∀ name, nodesOf name source ≠ [] →
    ∃ node : TypeDefinition, carrying ⟨.type, name⟩ merged = [.type node] ∧
      node.Unites (nodesOf name target) (nodesOf name source)

/-- Merging two schemas whose nodes repeat no names and whose types are of one kind each unites
them; under one name the source wins. -/
theorem merge_isRightBiasedUnion {target source : Source R S} {left right : Document}
    (hleft : (target.toDocument .merge .target).value = .ok left)
    (hright : (source.toDocument .merge .source).value = .ok right)
    (hdistinct : NodesDistinct (left.definitions ++ right.definitions))
    (hkind : OneKind (left.definitions ++ right.definitions)) :
    ∃ merged : Bundle R S, (merge Policy.rightWins target source).value = .ok merged ∧
      IsRightBiasedUnion left.definitions right.definitions merged.document.definitions := by
  refine ⟨_, value_merge Policy.rightWins hleft hright, ?_, ?_⟩
  · rw [definitions_mergeBundles_rightWins]
    exact keysOf_foldl_mergeInto hkind hdistinct
  · intro name hcarries
    rw [definitions_mergeBundles_rightWins]
    have hprogress := foldl_mergeInto_progress (hkind.sameKind name) fun node hnode =>
      hdistinct node (mem_typeNodes_of_mem_nodesOf hnode)
    rcases hprogress with ⟨hnone, -⟩ | ⟨-, node, hone, hmerges⟩
    · exact absurd hnone hcarries
    · exact ⟨node, hone, hmerges.unites⟩

/-- A type that both sides spread over two nodes. -/
theorem merge_enums_isRightBiasedUnion :
    ∃ merged : Bundle Unit Unit,
      (merge Policy.rightWins (.sdl "enum Color { RED }\nextend enum Color { BLUE }")
        (.sdl "extend enum Color { GREEN }\nextend enum Color { RED @old }")).value = .ok merged ∧
      IsRightBiasedUnion
        [.type ⟨none, "Color", [], .enum [⟨none, "RED", []⟩]⟩,
          .extension ⟨"Color", [], .enum [⟨none, "BLUE", []⟩]⟩]
        [.extension ⟨"Color", [], .enum [⟨none, "GREEN", []⟩]⟩,
          .extension ⟨"Color", [], .enum [⟨none, "RED", [⟨"old", []⟩]⟩]⟩]
        merged.document.definitions := by
  let left : Document := ⟨[.type ⟨none, "Color", [], .enum [⟨none, "RED", []⟩]⟩,
    .extension ⟨"Color", [], .enum [⟨none, "BLUE", []⟩]⟩]⟩
  let right : Document := ⟨[.extension ⟨"Color", [], .enum [⟨none, "GREEN", []⟩]⟩,
    .extension ⟨"Color", [], .enum [⟨none, "RED", [⟨"old", []⟩]⟩]⟩]⟩
  have hleft : ((.sdl "enum Color { RED }\nextend enum Color { BLUE }" :
      Source Unit Unit).toDocument .merge .target).value = .ok left := by decide +kernel
  have hright : ((.sdl "extend enum Color { GREEN }\nextend enum Color { RED @old }" :
      Source Unit Unit).toDocument .merge .source).value = .ok right := by decide +kernel
  exact merge_isRightBiasedUnion hleft hright (by decide +kernel) (by decide +kernel)

end SchemaAlgebra
