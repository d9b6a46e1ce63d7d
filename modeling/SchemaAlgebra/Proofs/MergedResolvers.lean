import SchemaAlgebra.Proofs.Consistency
import SchemaAlgebra.Proofs.RightBiasedUnion

/-!
# The resolvers of a merge

A merged bundle looks a field's resolver up in the merge of both maps, cut down to the merged
document.  Four places are tried in turn: the source's type entry, the target's type entry, the
source's root field entry and the target's root field entry.

So the source wins as long as both sides keep a field's resolver in the same form.  Across the two
forms it does not: a type entry of the target comes before a root field entry of the source.  And the
two forms share their keys, so an entry of the source takes the place of a target's entry of the other
form, whatever that one was for.

## Main statements

* `nested?_merge`, `root?_merge`: looking up in two merged maps.
* `declares_mergeBundles_of_target`, `declares_mergeBundles_of_source`: what stays declared.
* `merge_resolver?_eq`: looking up in a merged bundle, and when the source wins.
-/

namespace SchemaAlgebra

variable {R S : Type}

/-! ## Merging maps -/

/-- A key that stands once is found from either end. -/
private theorem find?_reverse_of_nodup {κ α : Type} [DecidableEq κ] {entries : List (κ × α)}
    (h : (entries.map Prod.fst).Nodup) (key : κ) :
    (entries.reverse.find? fun entry => entry.1 = key) = entries.find? fun entry => entry.1 = key := by
  induction entries with
  | nil => rfl
  | cons entry rest ih =>
    obtain ⟨hfresh, hrest⟩ := List.nodup_cons.mp h
    rw [List.reverse_cons, List.find?_append, ih hrest, List.find?_cons]
    by_cases hkey : entry.1 = key
    · -- The key does not stand again in the rest, so nothing is found there.
      have hnone := OrderedMap.find?_eq_none_of_fresh (hkey ▸ hfresh)
      simp [hnone, hkey]
    · simp [hkey]

/-- The entries of a map that are inserted into another one win. -/
theorem OrderedMap.get?_insertAll_entries {κ α : Type} [DecidableEq κ] (left right : OrderedMap κ α)
    (key : κ) : (left.insertAll right.entries).get? key = (right.get? key).or (left.get? key) := by
  rw [get?_insertAll, find?_reverse_of_nodup right.nodup]
  rfl

namespace ResolverEntry

/-- What stands under a key after an entry is merged with what stood there before. -/
def laidOver (right : ResolverEntry R) (left? : Option (ResolverEntry R)) : ResolverEntry R :=
  match left?, right with
  | some (.type left), .type right => .type (left.insertAll right.entries)
  | _, right => right

/-- What stands under a key that has these entries in two merged maps. -/
def merged? (left? right? : Option (ResolverEntry R)) : Option (ResolverEntry R) :=
  (right?.map (·.laidOver left?)).or left?

/-- In a type entry the right resolver wins, and a root field entry hides a left type entry. -/
theorem fields?_merged? (left? right? : Option (ResolverEntry R)) (field : String) :
    ((merged? left? right?).bind fields?).bind (·.get? field) =
      ((right?.bind fields?).bind (·.get? field)).or
        (if (right?.bind root?).isSome then none else (left?.bind fields?).bind (·.get? field)) := by
  cases right? with
  | none => simp [merged?]
  | some right =>
    cases right with
    | rootField resolver => simp [merged?, laidOver, fields?, root?]
    | type fields =>
      cases left? with
      | none => simp [merged?, laidOver, fields?]
      | some left =>
        cases left with
        | rootField resolver => simp [merged?, laidOver, fields?]
        | type more => simp [merged?, laidOver, fields?, root?, OrderedMap.get?_insertAll_entries]

/-- Of two root field entries the right one wins, and a type entry hides a left root field entry. -/
theorem root?_merged? (left? right? : Option (ResolverEntry R)) :
    (merged? left? right?).bind root? =
      (right?.bind root?).or
        (if (right?.bind fields?).isSome then none else left?.bind root?) := by
  cases right? with
  | none => simp [merged?]
  | some right =>
    cases right with
    | rootField resolver => simp [merged?, laidOver, root?]
    | type fields =>
      cases left? with
      | none => simp [merged?, laidOver, root?, fields?]
      | some left => cases left <;> simp [merged?, laidOver, root?, fields?]

end ResolverEntry

namespace ResolverMap

theorem get?_mergeEntry (map : ResolverMap R) (key other : String) (entry : ResolverEntry R) :
    (map.mergeEntry key entry).entries.get? other =
      if other = key then some (entry.laidOver (map.entries.get? key)) else map.entries.get? other := by
  have hvalue : (map.mergeEntry key entry).entries =
      map.entries.insert key (entry.laidOver (map.entries.get? key)) := by
    unfold mergeEntry type?
    cases hleft : map.entries.get? key with
    | none => rfl
    | some left => cases left <;> cases entry <;> rfl
  rw [hvalue, OrderedMap.get?_insert]

private theorem get?_foldl_mergeEntry {entries : List (String × ResolverEntry R)}
    (h : (entries.map Prod.fst).Nodup) (map : ResolverMap R) (key : String) :
    (entries.foldl (fun map (key, entry) => map.mergeEntry key entry) map).entries.get? key =
      ResolverEntry.merged? (map.entries.get? key)
        ((entries.find? fun entry => entry.1 = key).map Prod.snd) := by
  induction entries generalizing map with
  | nil => rfl
  | cons entry rest ih =>
    obtain ⟨hfresh, hrest⟩ := List.nodup_cons.mp h
    rw [List.foldl_cons, ih hrest, get?_mergeEntry, List.find?_cons]
    by_cases hkey : key = entry.1
    · -- From here on nothing is merged under the key again.
      rw [OrderedMap.find?_eq_none_of_fresh (hkey.symm ▸ hfresh)]
      simp [ResolverEntry.merged?, hkey]
    · have hkey' : ¬ entry.1 = key := fun e => hkey e.symm
      simp [hkey, hkey']

/-- Merging two maps merges their entries key by key. -/
theorem get?_merge (left right : ResolverMap R) (key : String) :
    (left.merge right).entries.get? key =
      ResolverEntry.merged? (left.entries.get? key) (right.entries.get? key) :=
  get?_foldl_mergeEntry right.entries.nodup left key

theorem nested?_merge (left right : ResolverMap R) (type field : String) :
    (left.merge right).nested? type field =
      (right.nested? type field).or
        (if right.hasRootField type then none else left.nested? type field) := by
  rw [nested?, type?, get?_merge]
  exact ResolverEntry.fields?_merged? _ _ field

theorem root?_merge (left right : ResolverMap R) (field : String) :
    (left.merge right).root? field =
      (right.root? field).or
        (if (right.type? field).isSome then none else left.root? field) := by
  rw [root?, get?_merge]
  exact ResolverEntry.root?_merged? _ _

end ResolverMap

/-! ## Cutting a map down -/

theorem OrderedMap.get?_of_isEmpty {κ α : Type} [DecidableEq κ] {map : OrderedMap κ α}
    (h : map.isEmpty) (key : κ) : map.get? key = none := by
  have hnone : map.entries = [] := List.isEmpty_iff.mp h
  rw [get?, hnone]
  rfl

/-- Whether a resolver under a name in a type's entry is about something that the document has: a
member that some node of the type declares, or the type as a whole. -/
def Document.keepsResolver (document : Document) (type field : String) : Bool :=
  (document.membersOf? type).any (ResolverMap.keepsField · field)

theorem Document.keepsResolver_of_declares {document : Document} {type field : String}
    (h : document.declares type field) : document.keepsResolver type field := by
  obtain ⟨members, hmembers, hfield⟩ := (Option.any_eq_true ..).mp h
  refine (Option.any_eq_true ..).mpr ⟨members, hmembers, ?_⟩
  exact (Bool.or_eq_true ..).mpr (.inr hfield)

namespace Document

/-- A document says which members a type has exactly if it carries the type. -/
theorem membersOf?_eq_none_iff {document : Document} {type : String} :
    document.membersOf? type = none ↔ nodesOf type document.definitions = [] := by
  constructor
  · intro hnone
    apply nodesOf_eq_nil_of_absent
    intro definition hmem hkey
    have hname : definition.typeName? = some type := by
      obtain ⟨node, hnode, rfl⟩ := Definition.exists_typeDefinition? hkey
      rcases Definition.eq_of_typeDefinition? hnode with rfl | ⟨extension, rfl, rfl⟩ <;> rfl
    unfold membersOf? at hnone
    dsimp only at hnone
    split at hnone
    · next hempty =>
      rw [List.isEmpty_iff, List.filter_eq_nil_iff] at hempty
      exact hempty definition hmem (decide_eq_true hname)
    · cases hnone
  · intro hnodes
    cases hmembers : document.membersOf? type with
    | none => rfl
    | some members => exact absurd hnodes (nodesOf_ne_nil_of_membersOf? hmembers)

theorem keepsResolver_iff {document : Document} {type field : String} :
    document.keepsResolver type field ↔ nodesOf type document.definitions ≠ [] ∧
      (document.declares type field ∨ ResolverMap.isMeta field) := by
  rw [Ne, ← membersOf?_eq_none_iff]
  unfold keepsResolver declares
  cases document.membersOf? type with
  | none => simp
  | some members => simp [ResolverMap.keepsField, or_comm]

end Document

namespace ResolverMap

/-- What is retained of a type entry, seen from one of its fields. -/
private theorem get?_fields?_retainEntry (document : Document) (type field : String)
    (fields : OrderedMap String R) :
    ((retainEntry document type (.type fields)).bind ResolverEntry.fields?).bind (·.get? field) =
      if document.keepsResolver type field then fields.get? field else none := by
  unfold retainEntry Document.keepsResolver
  rcases document.membersOf? type with _ | members
  · rfl
  · -- The entry goes if none of its fields is kept, and then this one is not kept either.
    have hkept : (fields.filter fun field _ => keepsField members field).get? field =
        if keepsField members field then fields.get? field else none := by
      rw [OrderedMap.get?_filter]
      cases fields.get? field with
      | none => simp
      | some resolver => cases keepsField members field <;> rfl
    dsimp only [Option.bind_eq_bind, Option.bind_some, Option.any_some]
    rw [← hkept]
    split
    · next hnone => exact (OrderedMap.get?_of_isEmpty hnone field).symm
    · rfl

theorem nested?_retainPresent (map : ResolverMap R) (document : Document) (type field : String) :
    (map.retainPresent document).value.1.nested? type field =
      if document.keepsResolver type field then map.nested? type field else none := by
  have hentries : (map.retainPresent document).value.1.entries =
      map.entries.filterMap (retainEntry document) := by
    simp [retainPresent]
  rw [nested?, nested?, type?, type?, hentries, OrderedMap.get?_filterMap]
  rcases map.entries.get? type with _ | fields | resolver
  · simp
  · exact get?_fields?_retainEntry document type field fields
  · simp only [Option.bind_some, retainEntry, ResolverEntry.fields?]
    split <;> simp [ResolverEntry.fields?]

theorem root?_retainPresent (map : ResolverMap R) (document : Document) (field : String) :
    (map.retainPresent document).value.1.root? field =
      if document.declaresOnRoot field then map.root? field else none := by
  have hentries : (map.retainPresent document).value.1.entries =
      map.entries.filterMap (retainEntry document) := by
    simp [retainPresent]
  rw [root?, root?, hentries, OrderedMap.get?_filterMap]
  rcases map.entries.get? field with _ | fields | resolver
  · simp
  · have hnone : (retainEntry document field (.type fields)).bind ResolverEntry.root? = none := by
      unfold retainEntry
      rcases document.membersOf? field with _ | members
      · rfl
      · dsimp only [Option.bind_eq_bind, Option.bind_some]
        split <;> rfl
    simpa [ResolverEntry.root?] using hnone
  · simp only [Option.bind_some, retainEntry]
    split <;> simp [ResolverEntry.root?]

end ResolverMap

/-! ## What stays declared -/

/-- A join declares what its left part declares, and what its right part does if the two have the same
kind of members. -/
theorem TypeBody.mem_declaredNames_joinWith (interfaces : List String → List String → List String)
    {members : ∀ {α : Type} [Named α], List α → List α → List α}
    (hmembers : ∀ {α : Type} [Named α] (left right : List α) (name : String),
      name ∈ namesOf (members left right) ↔ name ∈ namesOf left ∨ name ∈ namesOf right)
    {left right : TypeBody} {name : String} :
    name ∈ (left.joinWith interfaces members right).declaredNames ↔
      name ∈ left.declaredNames ∨
        left.collection = right.collection ∧ name ∈ right.declaredNames := by
  cases left <;> cases right <;>
    simp [joinWith, declaredNames, memberNames, collection, kind, TypeKind.collection, hmembers,
      outputFields, inputFields, enumValues]

namespace TypeDefinition

variable {left right : TypeDefinition} {name : String}

theorem mem_declaredNames_absorb :
    name ∈ (left.absorb right).body.declaredNames ↔ name ∈ left.body.declaredNames ∨
      left.body.collection = right.body.collection ∧ name ∈ right.body.declaredNames :=
  TypeBody.mem_declaredNames_joinWith _ fun _ _ _ => mem_namesOf_settleAll keepsName_first

theorem mem_declaredNames_override :
    name ∈ (left.override right).body.declaredNames ↔ name ∈ left.body.declaredNames ∨
      left.body.collection = right.body.collection ∧ name ∈ right.body.declaredNames :=
  TypeBody.mem_declaredNames_joinWith (fun names _ => names)
    fun _ _ _ => mem_namesOf_settleAll keepsName_last

@[simp] theorem collection_absorb : (left.absorb right).body.collection = left.body.collection :=
  congrArg TypeKind.collection (left.kind_absorb right)

@[simp] theorem collection_override :
    (left.override right).body.collection = left.body.collection :=
  congrArg TypeKind.collection (left.kind_override right)

/-- A gathered node declares what its pieces declare. -/
theorem mem_declaredNames_gather {later : List Definition} :
    name ∈ (left.gather later).body.declaredNames ↔ name ∈ left.body.declaredNames ∨
      ∃ definition ∈ later, ∃ piece, left.piece? definition = some piece ∧
        name ∈ piece.body.declaredNames := by
  induction later generalizing left with
  | nil => simp [gather]
  | cons definition rest ih =>
    rw [gather_cons]
    cases hpiece : left.piece? definition with
    | none => simp [gather, hpiece, ← ih]
    | some piece =>
      -- A piece is of the kind of the node, so their members are of one kind, too.
      have hkind : piece.kind = left.kind := by
        obtain ⟨-, hsame⟩ := Option.filter_eq_some_iff.mp hpiece
        simp only [decide_eq_true_eq] at hsame
        exact hsame.2
      have hcollection : left.body.collection = piece.body.collection :=
        congrArg TypeKind.collection hkind.symm
      have hstep : left.gather [definition] = left.absorb piece := by simp [gather, hpiece]
      rw [hstep, ih, mem_declaredNames_absorb, piece?_absorb]
      simp [hpiece, hcollection, or_assoc]

end TypeDefinition

/-- Some node of a type declares a field or enum value. -/
def DeclaredBy (nodes : List TypeDefinition) (name : String) : Prop :=
  ∃ node ∈ nodes, name ∈ node.body.declaredNames

theorem declaredBy_append {front back : List TypeDefinition} {name : String} :
    DeclaredBy (front ++ back) name ↔ DeclaredBy front name ∨ DeclaredBy back name := by
  simp [DeclaredBy, or_and_right, exists_or]

theorem declaredBy_cons {node : TypeDefinition} {rest : List TypeDefinition} {name : String} :
    DeclaredBy (node :: rest) name ↔ name ∈ node.body.declaredNames ∨ DeclaredBy rest name := by
  simp [DeclaredBy]

theorem Document.declares_iff {document : Document} {type field : String} :
    document.declares type field ↔ DeclaredBy (nodesOf type document.definitions) field := by
  -- A definition that counts for the type is one whose normalized form is a node of the type.
  have hnode : ∀ definition : Definition,
      (definition.typeName? = some type ∧
          field ∈ (definition.body?.map TypeBody.declaredNames).getD []) ↔
        ∃ node, definition.typeDefinition? = some node ∧ node.name = type ∧
          field ∈ node.body.declaredNames := by
    intro definition
    cases definition with
    | type node => simp [Definition.typeName?, Definition.body?, Definition.typeDefinition?]
    | extension node =>
      simp [Definition.typeName?, Definition.body?, Definition.typeDefinition?,
        TypeExtension.toDefinition]
    | schema definition => simp [Definition.typeName?, Definition.typeDefinition?]
    | directive definition => simp [Definition.typeName?, Definition.typeDefinition?]
  have hmembers : document.declares type field ↔ ∃ definition ∈ document.definitions,
      definition.typeName? = some type ∧
        field ∈ (definition.body?.map TypeBody.declaredNames).getD [] := by
    unfold declares membersOf?
    dsimp only
    split
    · next hnone =>
      rw [List.isEmpty_iff, List.filter_eq_nil_iff] at hnone
      simp only [Option.any_none, Bool.false_eq_true, false_iff]
      rintro ⟨definition, hmem, hname, -⟩
      exact hnone definition hmem (decide_eq_true hname)
    · simp [and_assoc]
  rw [hmembers]
  constructor
  · rintro ⟨definition, hmem, hdeclared⟩
    obtain ⟨node, hsome, hname, hfield⟩ := (hnode definition).mp hdeclared
    exact ⟨node, mem_nodesOf.mpr ⟨definition, hmem, hsome, hname⟩, hfield⟩
  · rintro ⟨node, hmem, hfield⟩
    obtain ⟨definition, hmem, hsome, hname⟩ := mem_nodesOf.mp hmem
    exact ⟨definition, hmem, (hnode definition).mpr ⟨node, hsome, hname, hfield⟩⟩

/-- What merging a source node does to the nodes of its type. -/
theorem nodesOf_mergeTypeInto (definitions : List Definition) (right : TypeDefinition) :
    let merged := nodesOf right.name (mergeTypeInto TypeDefinition.override definitions right)
    (nodesOf right.name definitions = [] ∧ merged = [right]) ∨
      ∃ left later, nodesOf right.name definitions = left :: nodesOf right.name later ∧
        merged = (left.gather later).override right ::
          nodesOf right.name (later.filter fun definition => (left.piece? definition).isNone) := by
  intro merged
  have hself : nodesOf right.name [.type right] = [right] := by
    have hright : (Definition.type right).typeDefinition? = some right := rfl
    rw [nodesOf_singleton hright, if_pos rfl]
  rcases exists_first ⟨.type, right.name⟩ definitions with
    habsent | ⟨front, first, later, rfl, hkey, hfront⟩
  · refine .inl ⟨nodesOf_eq_nil_of_absent habsent, ?_⟩
    show nodesOf _ (mergeTypeInto _ definitions right) = _
    rw [mergeTypeInto_of_absent habsent, nodesOf_append, nodesOf_eq_nil_of_absent habsent, hself,
      List.nil_append]
  · obtain ⟨left, hleft, hname⟩ := Definition.exists_typeDefinition? hkey
    refine .inr ⟨left, later, ?_, ?_⟩
    · exact nodesOf_of_split later hfront hleft hname
    · have hnode : (Definition.type ((left.gather later).override right)).typeDefinition? =
          some ((left.gather later).override right) := rfl
      show nodesOf _ (mergeTypeInto _ (front ++ first :: later) right) = _
      rw [mergeTypeInto, atFirst_of_split later hfront hkey, hleft]
      exact nodesOf_of_split _ hfront hnode (by simp [hname])

/-- The step: what a type declares stays declared. -/
theorem DeclaredBy.mergeInto {type field : String} {definitions : List Definition}
    (h : DeclaredBy (nodesOf type definitions) field) (right : Definition) :
    DeclaredBy (nodesOf type (mergeInto TypeDefinition.override definitions right)) field := by
  by_cases hkey : right.key = ⟨.type, type⟩
  · obtain ⟨node, hnode, rfl⟩ := Definition.exists_typeDefinition? hkey
    rw [mergeInto_of_typeDefinition? hnode]
    rcases nodesOf_mergeTypeInto definitions node with
      ⟨hnone, -⟩ | ⟨left, later, hnodes, hmerged⟩
    · rw [hnone] at h
      obtain ⟨_, hmem, -⟩ := h
      exact absurd hmem List.not_mem_nil
    · rw [hmerged, declaredBy_cons, TypeDefinition.mem_declaredNames_override,
        TypeDefinition.mem_declaredNames_gather]
      rw [hnodes, declaredBy_cons] at h
      rcases h with hleft | ⟨other, hother, hfield⟩
      · exact .inl (.inl (.inl hleft))
      · -- A later node is either gathered with the first one or left where it is.
        obtain ⟨definition, hmem, hsome, hname⟩ := mem_nodesOf.mp hother
        cases hpiece : left.piece? definition with
        | some piece =>
          have hsame : piece = other := by
            obtain ⟨hfound, -⟩ := Option.filter_eq_some_iff.mp hpiece
            exact Option.some.inj (hfound.symm.trans hsome)
          exact .inl (.inl (.inr ⟨definition, hmem, piece, hpiece, hsame ▸ hfield⟩))
        | none =>
          have hstays : definition ∈
              later.filter fun definition => (left.piece? definition).isNone :=
            List.mem_filter.mpr ⟨hmem, by rw [hpiece]; rfl⟩
          exact .inr ⟨other, mem_nodesOf.mpr ⟨definition, hstays, hsome, hname⟩, hfield⟩
  · have huntouched := carrying_mergeInto_of_ne TypeDefinition.name_override hkey definitions
    rw [nodesOf, huntouched]
    exact h

/-- The nodes of a type have one kind of members. -/
def OneCollection (collection : Collection) (nodes : List TypeDefinition) : Prop :=
  ∀ node ∈ nodes, node.body.collection = collection

/-- The step: merging nodes with one kind of members gives nodes with that kind of members, and what
the source node declares is declared. -/
theorem OneCollection.mergeInto {collection : Collection} {type : String}
    {definitions : List Definition} {right : Definition}
    (h : OneCollection collection (nodesOf type (definitions ++ [right]))) :
    OneCollection collection
        (nodesOf type (mergeInto TypeDefinition.override definitions right)) ∧
      ∀ field, DeclaredBy (nodesOf type [right]) field →
        DeclaredBy (nodesOf type (mergeInto TypeDefinition.override definitions right)) field := by
  rw [nodesOf_append] at h
  obtain ⟨hdefinitions, hright⟩ := List.forall_mem_append.mp h
  -- Only a definition with the key of the type does anything to its nodes.
  by_cases hkey : right.key = ⟨.type, type⟩
  · obtain ⟨node, hnode, rfl⟩ := Definition.exists_typeDefinition? hkey
    have hself : nodesOf node.name [right] = [node] := by rw [nodesOf_singleton hnode, if_pos rfl]
    rw [hself] at hright ⊢
    rw [mergeInto_of_typeDefinition? hnode]
    have hcollection := hright node (List.mem_singleton_self node)
    rcases nodesOf_mergeTypeInto definitions node with ⟨-, hmerged⟩ | ⟨left, later, hnodes, hmerged⟩
    · rw [hmerged]
      exact ⟨hright, fun _ h => h⟩
    · rw [hnodes] at hdefinitions
      obtain ⟨hleft, hlater⟩ := List.forall_mem_cons.mp hdefinitions
      have hgathered : (left.gather later).body.collection = collection :=
        (congrArg TypeKind.collection (left.kind_gather later)).trans hleft
      rw [hmerged]
      refine ⟨List.forall_mem_cons.mpr ⟨?_, ?_⟩, ?_⟩
      · rw [TypeDefinition.collection_override, hgathered]
      · intro other hother
        obtain ⟨definition, hmem, hsome⟩ := mem_nodesOf.mp hother
        exact hlater other (mem_nodesOf.mpr ⟨definition, (List.mem_filter.mp hmem).1, hsome⟩)
      · rintro field ⟨other, hother, hfield⟩
        rw [List.mem_singleton.mp hother] at hfield
        refine declaredBy_cons.mpr (.inl ?_)
        exact TypeDefinition.mem_declaredNames_override.mpr
          (.inr ⟨hgathered.trans hcollection.symm, hfield⟩)
  · have huntouched := carrying_mergeInto_of_ne TypeDefinition.name_override hkey definitions
    rw [nodesOf_singleton_of_ne hkey, nodesOf, huntouched]
    refine ⟨hdefinitions, ?_⟩
    rintro field ⟨_, hmem, -⟩
    exact absurd hmem List.not_mem_nil

/-- The run: what the target declares is declared in the end, and so is what the source declares, if
all nodes of the type have one kind of members. -/
theorem declaredBy_foldl_mergeInto {type field : String} {definitions source : List Definition}
    (h : DeclaredBy (nodesOf type definitions) field ∨
      DeclaredBy (nodesOf type source) field ∧
        ∃ collection, OneCollection collection (nodesOf type (definitions ++ source))) :
    DeclaredBy (nodesOf type (source.foldl (mergeInto TypeDefinition.override) definitions)) field := by
  induction source generalizing definitions with
  | nil =>
    rcases h with h | ⟨⟨_, hmem, -⟩, -⟩
    · exact h
    · exact absurd hmem List.not_mem_nil
  | cons right rest ih =>
    apply ih
    rcases h with h | ⟨hfield, collection, hall⟩
    · exact .inl (h.mergeInto right)
    · rw [← List.singleton_append, ← List.append_assoc, nodesOf_append] at hall
      obtain ⟨hfront, hrest⟩ := List.forall_mem_append.mp hall
      obtain ⟨hnext, hdeclared⟩ := OneCollection.mergeInto hfront
      rw [nodesOf_cons, declaredBy_append] at hfield
      rcases hfield with hfirst | hlater
      · exact .inl (hdeclared field hfirst)
      · refine .inr ⟨hlater, collection, ?_⟩
        rw [nodesOf_append]
        exact List.forall_mem_append.mpr ⟨hnext, hrest⟩

/-! ## The merged bundle -/

/-- The resolver of a field that the bundle's document declares. -/
def Bundle.fieldResolver? (bundle : Bundle R S) (type field : String) : Option R :=
  if bundle.document.declares type field then
    bundle.resolvers.resolver? type field (RootTypes.ofDocument bundle.document)
  else none

/-- A field that the source declares and has a resolver for is resolved by that one, and any other
field that the target declares and has a resolver for by the target's. -/
def ResolvesRightOverLeft (target source merged : Bundle R S) (type field : String) : Prop :=
  ∀ resolver, (source.fieldResolver? type field).or (target.fieldResolver? type field) =
      some resolver →
    merged.resolvers.resolver? type field (RootTypes.ofDocument merged.document) = some resolver

/-- Nothing stands in the way of a field's resolver. -/
structure Unobstructed (target source merged : Bundle R S) (type field : String) : Prop where
  /-- The two sides give the type members of one kind. -/
  oneCollection : ∃ collection, OneCollection collection
    (nodesOf type (target.document.definitions ++ source.document.definitions))
  /-- A root type of either side is one of the merged schema. -/
  rootsStay : (RootTypes.ofDocument target.document).contains type ∨
      (RootTypes.ofDocument source.document).contains type →
    (RootTypes.ofDocument merged.document).contains type
  /-- The target has no resolver in a type entry where the source has its own in a root field entry. -/
  notShadowed : source.resolvers.nested? type field = none →
    source.fieldResolver? type field ≠ none → target.resolvers.nested? type field = none
  /-- The source has no root field entry under the name of a type entry that the target needs. -/
  nestedStays : source.fieldResolver? type field = none →
    target.resolvers.nested? type field ≠ none → source.resolvers.hasRootField type = false
  /-- The source has no type entry under the name of a root field entry that the target needs. -/
  rootFieldStays : source.fieldResolver? type field = none →
    target.resolvers.nested? type field = none → source.resolvers.type? field = none
  /-- The source has no resolver for a field that it does not declare. -/
  inStep : source.fieldResolver? type field = none → source.resolvers.nested? type field = none ∧
    source.resolvers.root? field = none

/-- Looking up in the merged map: first among the type entries, then, for a root type, among the root
field entries; each time in the source before the target. -/
structure ResolvesInOrder (target source merged : Bundle R S) : Prop where
  lookup : ∀ type field,
    merged.resolvers.resolver? type field (RootTypes.ofDocument merged.document) =
      (if merged.document.keepsResolver type field then
          (source.resolvers.nested? type field).or
            (if source.resolvers.hasRootField type then none
              else target.resolvers.nested? type field)
        else none).or
      (if (RootTypes.ofDocument merged.document).contains type ∧
            merged.document.declaresOnRoot field then
          (source.resolvers.root? field).or
            (if (source.resolvers.type? field).isSome then none
              else target.resolvers.root? field)
        else none)
  rightOverLeft : ∀ type field, Unobstructed target source merged type field →
    ResolvesRightOverLeft target source merged type field

/-- Looking up in a merged bundle, whatever policy it was merged under. -/
theorem resolver?_mergeBundles (policy : Policy S) (target source : Bundle R S)
    (type field : String) :
    let merged := (mergeBundles policy target source).value
    let roots := RootTypes.ofDocument merged.document
    merged.resolvers.resolver? type field roots =
      (if merged.document.keepsResolver type field then
          (source.resolvers.nested? type field).or
            (if source.resolvers.hasRootField type then none
              else target.resolvers.nested? type field)
        else none).or
      (if roots.contains type ∧ merged.document.declaresOnRoot field then
          (source.resolvers.root? field).or
            (if (source.resolvers.type? field).isSome then none
              else target.resolvers.root? field)
        else none) := by
  intro merged roots
  have hresolvers : merged.resolvers =
      ((target.resolvers.merge source.resolvers).retainPresent merged.document).value.1 :=
    (mergeBundles_retains policy target source).1
  rw [hresolvers, ResolverMap.resolver?, ResolverMap.nested?_retainPresent,
    ResolverMap.root?_retainPresent, ResolverMap.nested?_merge, ResolverMap.root?_merge]
  congr 1
  by_cases hroot : roots.contains type <;> simp [hroot]

theorem Bundle.eq_of_fieldResolver? {bundle : Bundle R S} {type field : String} {resolver : R}
    (h : bundle.fieldResolver? type field = some resolver) :
    bundle.document.declares type field ∧
      (bundle.resolvers.nested? type field).or
        (if (RootTypes.ofDocument bundle.document).contains type then bundle.resolvers.root? field
          else none) = some resolver := by
  unfold fieldResolver? at h
  split at h
  · next hdeclares => exact ⟨hdeclares, h⟩
  · cases h

/-- A field of a root type is declared on a root type. -/
theorem Document.declaresOnRoot_of_declares {document : Document} {type field : String}
    (hroot : (RootTypes.ofDocument document).contains type)
    (hdeclares : document.declares type field) : document.declaresOnRoot field :=
  List.any_eq_true.mpr ⟨type, List.contains_iff_mem.mp hroot, hdeclares⟩

/-- If nothing stands in the way, the source wins, and the target comes next. -/
theorem resolvesRightOverLeft_mergeBundles {target source : Bundle R S} {type field : String}
    (h : Unobstructed target source (mergeBundles Policy.rightWins target source).value type field) :
    ResolvesRightOverLeft target source (mergeBundles Policy.rightWins target source).value
      type field := by
  intro resolver hresolver
  have hdeclared : DeclaredBy (nodesOf type target.document.definitions) field ∨
      DeclaredBy (nodesOf type source.document.definitions) field →
      (mergeBundles Policy.rightWins target source).value.document.declares type field := by
    intro hside
    rw [Document.declares_iff, definitions_mergeBundles_rightWins]
    exact declaredBy_foldl_mergeInto (hside.imp_right fun hsource => ⟨hsource, h.oneCollection⟩)
  rw [resolver?_mergeBundles]
  cases hsource : source.fieldResolver? type field with
  | some found =>
    rw [hsource, Option.some_or] at hresolver
    obtain rfl := Option.some.inj hresolver
    obtain ⟨hdeclares, hfound⟩ := Bundle.eq_of_fieldResolver? hsource
    have hmerged := hdeclared (.inr (Document.declares_iff.mp hdeclares))
    rw [if_pos (Document.keepsResolver_of_declares hmerged)]
    cases hnested : source.resolvers.nested? type field with
    | some nested =>
      rw [hnested, Option.some_or] at hfound
      rw [Option.some_or, Option.some_or, hfound]
    | none =>
      -- The source keeps the resolver in a root field entry, which only a type entry comes before.
      rw [hnested, Option.none_or] at hfound
      split at hfound
      · next hroot =>
        have hstays := h.rootsStay (.inr hroot)
        have hshadow := h.notShadowed hnested (by rw [hsource]; exact Option.some_ne_none _)
        have honRoot := Document.declaresOnRoot_of_declares hstays hmerged
        simp [hshadow, hstays, honRoot, hfound]
      · cases hfound
  | none =>
    rw [hsource, Option.none_or] at hresolver
    obtain ⟨hdeclares, hfound⟩ := Bundle.eq_of_fieldResolver? hresolver
    have hmerged := hdeclared (.inl (Document.declares_iff.mp hdeclares))
    obtain ⟨hnested, hroot⟩ := h.inStep hsource
    rw [if_pos (Document.keepsResolver_of_declares hmerged), hnested, hroot, Option.none_or,
      Option.none_or]
    cases htarget : target.resolvers.nested? type field with
    | some nested =>
      rw [htarget, Option.some_or] at hfound
      rw [h.nestedStays hsource (by rw [htarget]; exact Option.some_ne_none _), hfound]
      simp
    | none =>
      rw [htarget, Option.none_or] at hfound
      split at hfound
      · next hcontains =>
        have hstays := h.rootsStay (.inl hcontains)
        have honRoot := Document.declaresOnRoot_of_declares hstays hmerged
        simp [h.rootFieldStays hsource htarget, hstays, honRoot, hfound]
      · cases hfound

/-- The resolvers of a merge, for maps of any form: where each field is looked up, and that the source
wins where nothing stands in the way. -/
theorem merge_resolvesInOrder {target source : Source R S} {left right : Document}
    (hleft : (target.toDocument .merge .target).value = .ok left)
    (hright : (source.toDocument .merge .source).value = .ok right) :
    ∃ merged : Bundle R S, (merge Policy.rightWins target source).value = .ok merged ∧
      ResolvesInOrder ⟨left, target.resolvers, target.scalars⟩
        ⟨right, source.resolvers, source.scalars⟩ merged :=
  ⟨_, value_merge Policy.rightWins hleft hright, resolver?_mergeBundles Policy.rightWins _ _,
    fun _ _ h => resolvesRightOverLeft_mergeBundles h⟩

/-- Two flattened maps, each with a further type entry. -/
theorem merge_mixedMaps_resolvesInOrder :
    ∃ merged : Bundle Nat Unit,
      (merge Policy.rightWins
        (.bundle ⟨⟨[.type ⟨none, "Query", [], .object [] [⟨none, "a", [], .named "Int", []⟩]⟩]⟩,
          ⟨.ofList [("a", .rootField 1), ("Other", .type (.ofList [("b", 2)]))]⟩, ∅⟩)
        (.bundle ⟨⟨[.extension ⟨"Query", [], .object [] [⟨none, "b", [], .named "Int", []⟩]⟩]⟩,
          ⟨.ofList [("Query", .type (.ofList [("b", 3)])), ("a", .rootField 4)]⟩, ∅⟩)).value =
            .ok merged ∧
      ResolvesInOrder
        ⟨⟨[.type ⟨none, "Query", [], .object [] [⟨none, "a", [], .named "Int", []⟩]⟩]⟩,
          ⟨.ofList [("a", .rootField 1), ("Other", .type (.ofList [("b", 2)]))]⟩, ∅⟩
        ⟨⟨[.extension ⟨"Query", [], .object [] [⟨none, "b", [], .named "Int", []⟩]⟩]⟩,
          ⟨.ofList [("Query", .type (.ofList [("b", 3)])), ("a", .rootField 4)]⟩, ∅⟩ merged :=
  merge_resolvesInOrder (by decide +kernel) (by decide +kernel)

/-- A target that has a root field's resolver in a type entry keeps it against a source that has its own
in a root field entry. -/
theorem merge_flattenedSource_losesToNestedTarget :
    ∃ merged : Bundle Nat Unit,
      (merge Policy.rightWins
        (.bundle ⟨⟨[.type ⟨none, "Query", [], .object [] [⟨none, "a", [], .named "Int", []⟩]⟩]⟩,
          ⟨.ofList [("Query", .type (.ofList [("a", 1)]))]⟩, ∅⟩)
        (.bundle ⟨⟨[.type ⟨none, "Query", [], .object [] [⟨none, "a", [], .named "Int", []⟩]⟩]⟩,
          ⟨.ofList [("a", .rootField 2)]⟩, ∅⟩)).value = .ok merged ∧
      ¬ ResolvesRightOverLeft
        ⟨⟨[.type ⟨none, "Query", [], .object [] [⟨none, "a", [], .named "Int", []⟩]⟩]⟩,
          ⟨.ofList [("Query", .type (.ofList [("a", 1)]))]⟩, ∅⟩
        ⟨⟨[.type ⟨none, "Query", [], .object [] [⟨none, "a", [], .named "Int", []⟩]⟩]⟩,
          ⟨.ofList [("a", .rootField 2)]⟩, ∅⟩ merged "Query" "a" := by
  let query : Document :=
    ⟨[.type ⟨none, "Query", [], .object [] [⟨none, "a", [], .named "Int", []⟩]⟩]⟩
  let target : Bundle Nat Unit := ⟨query, ⟨.ofList [("Query", .type (.ofList [("a", 1)]))]⟩, ∅⟩
  let source : Bundle Nat Unit := ⟨query, ⟨.ofList [("a", .rootField 2)]⟩, ∅⟩
  have htarget : target.Readable := by decide +kernel
  have hsource : source.Readable := by decide +kernel
  refine ⟨_, value_merge Policy.rightWins (htarget.toDocument _ _) (hsource.toDocument _ _), ?_⟩
  intro h
  have hresolver : source.fieldResolver? "Query" "a" = some 2 := by decide +kernel
  have hsourceWins := h 2 (by rw [hresolver]; rfl)
  revert hsourceWins
  decide +kernel

end SchemaAlgebra
