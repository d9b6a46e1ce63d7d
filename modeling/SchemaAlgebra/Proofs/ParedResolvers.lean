import SchemaAlgebra.Proofs.CutMaps
import SchemaAlgebra.Proofs.MergedResolvers
import SchemaAlgebra.Proofs.Subtraction

/-!
# The resolvers of a pare

A pare takes resolvers away twice.  The fields and enum values that it has removed from the document are
removed from the map one after the other, and then the map is cut down to what the document declares.
What either pass does is a condition on the leaves of the map, and the leaves that are left keep their
order.

The second pass alone would keep every resolver about a type as a whole.  The first one makes the
difference for a field that is named like such a resolver and was removed.

## Main statements

* `leaves_removePath`, `leaves_retainPresent`: the leaves after each of the two passes.
* `mem_removed_iff_declaredBy`: what a pare removes is what was declared and is no more.
* `pare_cutsResolversDown`: the leaves of a pared bundle.
-/

namespace SchemaAlgebra

variable {R S : Type}

namespace ResolverMap

/-! ## Removing fields -/

/-- A leaf of a type entry is found there. -/
theorem hasField_of_mem_leaves {map : ResolverMap R} {type field : String} {resolver : R}
    (h : (some type, field, resolver) ∈ map.leaves) : map.hasField type field := by
  obtain ⟨⟨key, entry⟩, hitem, hleaf⟩ := List.mem_flatMap.mp h
  have hentry := OrderedMap.get?_of_mem hitem
  cases entry with
  | rootField other => simp at hleaf
  | type fields =>
    obtain ⟨item, hmem, heq⟩ := List.mem_map.mp hleaf
    cases heq
    simp [hasField, nested?, type?, hentry, ResolverEntry.fields?, OrderedMap.get?_of_mem hmem]

/-- Removing the resolver of a field takes one leaf away at most, and all others stay in order. -/
theorem leaves_removePath (document : Document) (map : ResolverMap R) (type field : String) :
    (removePath document map type field).value.1.leaves =
      map.leaves.filter fun leaf =>
        map.leafAt? document type field ≠ some (leaf.1, leaf.2.1) := by
  rw [value_removePath]
  exact leaves_cut _ map

/-- Many fields are removed one after the other. -/
theorem value_removeFields (map : ResolverMap R) (paths : List (String × String))
    (document : Document) :
    (map.removeFields paths document).value.1 =
      paths.foldl (fun map path => (removePath document map path.1 path.2).value.1) map := by
  -- The count goes along without having an influence on the map.
  rw [removeFields, Traced.value_foldlM]
  exact (List.foldl_hom Prod.fst fun _ _ => rfl).symm

end ResolverMap

/-! ## Cutting down to a document -/

/-- Whether a resolver is about something that the document has. -/
def Document.retains (document : Document) : Option String × String × R → Bool
  | (some type, field, _) => document.keepsResolver type field
  | (none, field, _) => document.declaresOnRoot field

namespace ResolverMap

/-- Of an entry that has leaves, the ones stay that are about something the document has. -/
theorem retainEntry_eq_cutEntry {document : Document} {key : String} {entry : ResolverEntry R}
    (h : leavesIn key entry ≠ []) :
    retainEntry document key entry = cutEntry document.retains key entry := by
  cases entry with
  | rootField resolver => rfl
  | type fields =>
    have hsome : fields.isEmpty = false :=
      List.isEmpty_eq_false_iff.mpr fun hnone => h (by rw [leavesIn, hnone]; rfl)
    unfold retainEntry
    cases hmembers : document.membersOf? key with
    | none =>
      rw [cutEntry_eq_none h]
      · rfl
      · intro leaf hleaf
        obtain ⟨item, -, rfl⟩ := List.mem_map.mp hleaf
        simp [Document.retains, Document.keepsResolver, hmembers]
    | some members =>
      simp [cutEntry, Document.retains, Document.keepsResolver, hmembers, hsome]

theorem leaves_retainPresent (map : ResolverMap R) (document : Document) :
    (map.retainPresent document).value.1.leaves = map.leaves.filter document.retains := by
  have hvalue : (map.retainPresent document).value.1 =
      ⟨map.entries.filterMap (retainEntry document)⟩ := by
    simp [retainPresent]
  rw [hvalue]
  apply leaves_filterMap
  intro key entry _
  by_cases hnone : leavesIn key entry = []
  · -- An entry without leaves is a type entry, and it goes.
    cases entry with
    | rootField resolver => cases hnone
    | type fields =>
      have hfields : fields.entries = [] := List.map_eq_nil_iff.mp hnone
      have hgone : retainEntry document key (.type fields) = none := by
        unfold retainEntry
        cases document.membersOf? key <;> simp [OrderedMap.isEmpty, OrderedMap.filter, hfields]
      rw [hgone, hnone]
      rfl
  · rw [retainEntry_eq_cutEntry hnone, leavesIn_cutEntry]

/-- Of the leaves that are about something the document has, the removal of a field takes away the one
in the entry of its type only. -/
theorem filter_retains_removePath (document : Document) (map : ResolverMap R) (type field : String) :
    (removePath document map type field).value.1.leaves.filter document.retains =
      (map.leaves.filter document.retains).filter fun leaf =>
        (leaf.1, leaf.2.1) ≠ (some type, field) := by
  rw [leaves_removePath, List.filter_filter, List.filter_filter]
  apply List.filter_congr
  rintro ⟨type?, name, resolver⟩ hleaf
  by_cases hretained : document.retains (type?, name, resolver)
  · have hsame : map.leafAt? document type field = some (type?, name) ↔
        (type?, name) = (some type, field) := by
      unfold leafAt?
      constructor
      · intro hfound
        split at hfound
        · exact (Option.some.inj hfound).symm
        · split at hfound
          · next hgone =>
            -- A root field entry goes only if no root type declares the field any more.
            obtain ⟨rfl, rfl⟩ := Prod.mk.inj (Option.some.inj hfound).symm
            exact absurd hretained hgone.2.2
          · cases hfound
      · intro haddress
        obtain ⟨rfl, rfl⟩ := Prod.mk.inj haddress
        exact if_pos (hasField_of_mem_leaves hleaf)
    simp only [hretained, Bool.and_true, Bool.true_and, ne_eq, hsame]
  · simp [hretained]

theorem filter_retains_removeFields (document : Document) (map : ResolverMap R)
    (paths : List (String × String)) :
    (map.removeFields paths document).value.1.leaves.filter document.retains =
      (map.leaves.filter document.retains).filter fun leaf =>
        ∀ path ∈ paths, (leaf.1, leaf.2.1) ≠ (some path.1, path.2) := by
  rw [value_removeFields]
  induction paths generalizing map with
  | nil => simp
  | cons path rest ih =>
    rw [List.foldl_cons, ih, filter_retains_removePath, List.filter_filter]
    apply List.filter_congr
    intro leaf _
    rw [← Bool.decide_and]
    apply decide_eq_decide.mpr
    rw [List.forall_mem_cons, and_comm]

end ResolverMap

/-! ## What a pare removes -/

/-- As long as a source does not carry a type, its nodes stay as they are. -/
theorem nodesOf_foldl_pare_of_absent (start : PareSummary S) {name : String}
    {source : List Definition} (h : nodesOf name source = []) :
    nodesOf name (source.foldl PareSummary.pare start).definitions =
      nodesOf name start.definitions := by
  rw [nodesOf, carrying_foldl_pare, h]
  rfl

/-- The normalized form of what is left of a type node. -/
theorem Definition.bind_typeDefinition?_pared? {definition : Definition} {left : TypeDefinition}
    (h : definition.typeDefinition? = some left) (right : TypeDefinition) :
    (definition.pared? right).bind typeDefinition? = left.pared? right := by
  rw [pared?, h]
  cases hpared : left.pared? right with
  | none => simp [hpared]
  | some node =>
    have hdescription : node.description = left.description := by
      rw [(TypeDefinition.eq_of_pared? hpared).2]
    simpa [hpared] using typeDefinition?_ofType h hdescription

/-- The nodes of a type that the source carries in one node. -/
theorem nodesOf_foldl_pare_of_single (start : PareSummary S) {name : String}
    {source : List Definition} {right : TypeDefinition} (h : nodesOf name source = [right])
    (hpresent : nodesOf name start.definitions ≠ []) :
    nodesOf name (source.foldl PareSummary.pare start).definitions =
      (nodesOf name start.definitions).filterMap (·.pared? right) := by
  have hsome : carrying ⟨.type, name⟩ start.definitions ≠ [] := by
    intro hnone
    rw [nodesOf, hnone] at hpresent
    exact hpresent rfl
  rw [nodesOf, carrying_foldl_pare, h, List.foldl_cons, List.foldl_nil, pareNodes, if_neg hsome,
    nodesOf, List.filterMap_filterMap, List.filterMap_filterMap]
  apply List.filterMap_congr
  intro definition hmem
  obtain ⟨left, hleft, -⟩ := Definition.exists_typeDefinition? (mem_carrying.mp hmem).2
  rw [Definition.bind_typeDefinition?_pared? hleft, hleft, Option.bind_some]

/-- A source that carries each type once takes from the target's nodes what its nodes name. -/
theorem removed_foldl_pare (start : PareSummary S) {source : List Definition}
    (honce : ((typeNodes source).map (·.name)).Nodup) :
    (source.foldl PareSummary.pare start).removed = start.removed ++
      (typeNodes source).flatMap fun right =>
        (nodesOf right.name start.definitions).flatMap (·.lostPaths right) := by
  induction source using List.reverseRecOn with
  | nil => exact (List.append_nil _).symm
  | append_singleton part right ih =>
    have hsplit : typeNodes (part ++ [right]) = typeNodes part ++ typeNodes [right] :=
      List.filterMap_append
    rw [hsplit, List.map_append, List.nodup_append] at honce
    rw [List.foldl_append, List.foldl_cons, List.foldl_nil, hsplit, List.flatMap_append,
      ← List.append_assoc, ← ih honce.1]
    cases hnode : right.typeDefinition? with
    | some node =>
      have hlast : typeNodes [right] = [node] := by simp [typeNodes, hnode]
      -- The node is the source's first one of its type, so it meets the target's own nodes.
      have habsent : nodesOf node.name part = [] := by
        rw [nodesOf_eq_filter, List.filter_eq_nil_iff]
        intro other hother hname
        refine honce.2.2 other.name (List.mem_map_of_mem hother) node.name ?_ (by simpa using hname)
        rw [hlast]
        exact List.mem_singleton_self _
      rw [PareSummary.pare_of_typeDefinition? hnode, hlast, List.flatMap_singleton,
        ← nodesOf_foldl_pare_of_absent start habsent]
      unfold PareSummary.pareType
      dsimp only
      split
      · next hnone => rw [hnone, List.flatMap_nil, List.append_nil]
      · rfl
    | none =>
      have hlast : typeNodes [right] = [] := by simp [typeNodes, hnode]
      rw [hlast, List.flatMap_nil, List.append_nil]
      cases right with
      | type node => cases hnode
      | extension node => cases hnode
      | schema right => rfl
      | directive right =>
        unfold PareSummary.pare
        dsimp only
        split <;> rfl

theorem TypeBody.kind_eq_union_iff {body : TypeBody} :
    body.kind = .union ↔ body.collection = .unionMembers := by
  cases body <;> simp [kind, collection, TypeKind.collection]

/-- Of a body that is no union, all members are declared. -/
theorem TypeBody.declaredNames_eq {body : TypeBody} (h : body.kind ≠ .union) :
    body.declaredNames = body.memberNames := by
  cases body <;> first | rfl | exact absurd rfl h

/-- Scalars and unions declare nothing. -/
theorem TypeBody.declaredNames_eq_nil {body : TypeBody} (h : body.kind = .scalar ∨ body.kind = .union) :
    body.declaredNames = [] := by
  cases body <;> first | rfl | simp [kind] at h

/-- A node loses what it and the source node declare, if they have the same kind of members. -/
theorem TypeDefinition.mem_lostPaths {left right : TypeDefinition} {type field : String} :
    (type, field) ∈ left.lostPaths right ↔ right.name = type ∧
      left.body.collection = right.body.collection ∧
        field ∈ left.body.declaredNames ∧ field ∈ right.body.declaredNames := by
  unfold lostPaths
  split
  · next hnothing =>
    constructor
    · intro hmem
      cases hmem
    · rintro ⟨-, hcollection, hfield, -⟩
      rw [← or_assoc] at hnothing
      rcases hnothing with hnone | hother
      · rw [TypeBody.declaredNames_eq_nil hnone] at hfield
        cases hfield
      · exact absurd hcollection hother
  · next hsome =>
    simp only [not_or, not_not] at hsome
    obtain ⟨-, hunion, hcollection⟩ := hsome
    have hright : right.body.kind ≠ .union := by
      rw [Ne, TypeBody.kind_eq_union_iff, ← hcollection, ← TypeBody.kind_eq_union_iff]
      exact hunion
    rw [TypeBody.declaredNames_eq hunion, TypeBody.declaredNames_eq hright]
    simp [hcollection, and_comm]

/-- What is left of a node declares what the node declared, less what the source node declares if it
has the same kind of members. -/
theorem TypeDefinition.mem_declaredNames_pared? {left right : TypeDefinition} {field : String} :
    (∃ pared, left.pared? right = some pared ∧ field ∈ pared.body.declaredNames) ↔
      field ∈ left.body.declaredNames ∧
        (left.body.collection = right.body.collection → field ∉ right.body.declaredNames) := by
  by_cases hnothing : left.body.kind = .scalar ∨ left.body.kind = .union
  · -- A node that declares nothing is left with nothing to declare.
    rw [TypeBody.declaredNames_eq_nil hnothing]
    refine ⟨?_, fun h => absurd h.1 List.not_mem_nil⟩
    rintro ⟨pared, hpared, hfield⟩
    have hsame : pared.body.kind = left.body.kind := by
      rw [(eq_of_pared? hpared).2, TypeBody.kind_without]
    rw [TypeBody.declaredNames_eq_nil (hsame ▸ hnothing)] at hfield
    exact absurd hfield List.not_mem_nil
  obtain ⟨hscalar, hunion⟩ := not_or.mp hnothing
  by_cases hcollection : left.body.collection = right.body.collection
  case neg => simp [pared?, kind, hscalar, hcollection]
  have hright : right.body.kind ≠ .union := by
    rw [Ne, TypeBody.kind_eq_union_iff, ← hcollection, ← TypeBody.kind_eq_union_iff]
    exact hunion
  have hwithout : (left.body.without right.body.memberNames).declaredNames =
      left.body.memberNames.filter (· ∉ right.body.memberNames) := by
    rw [TypeBody.declaredNames_eq (by rwa [TypeBody.kind_without]), TypeBody.memberNames_without]
  rw [TypeBody.declaredNames_eq hunion, TypeBody.declaredNames_eq hright]
  have hpared : left.pared? right =
      if left.body.memberNames ≠ [] ∧ left.body.memberNames.filter (· ∉ right.body.memberNames) = []
        then none else some { left with body := left.body.without right.body.memberNames } := by
    rw [pared?, kind, if_neg hscalar, if_neg (not_not_intro hcollection)]
    simp only [TypeBody.memberNames_without]
  rw [hpared]
  constructor
  · rintro ⟨pared, hsome, hfield⟩
    split at hsome
    · cases hsome
    · obtain rfl := Option.some.inj hsome
      rw [hwithout, List.mem_filter] at hfield
      exact ⟨hfield.1, fun _ => by simpa using hfield.2⟩
  · rintro ⟨hfield, hkept⟩
    have hmem : field ∈ left.body.memberNames.filter (· ∉ right.body.memberNames) :=
      List.mem_filter.mpr ⟨hfield, by simpa using hkept hcollection⟩
    -- The field is left, so the node is not emptied.
    rw [if_neg fun h => List.ne_nil_of_mem hmem h.2]
    exact ⟨_, rfl, hwithout ▸ hmem⟩

/-- A field or enum value is removed from a type if some node of the type in the target loses it. -/
theorem mem_removed_iff (start : PareSummary S) {source : List Definition}
    (hstart : start.removed = []) (honce : ((typeNodes source).map (·.name)).Nodup)
    {type field : String} :
    (type, field) ∈ (source.foldl PareSummary.pare start).removed ↔
      ∃ right ∈ nodesOf type source, ∃ left ∈ nodesOf type start.definitions,
        left.body.collection = right.body.collection ∧
        field ∈ left.body.declaredNames ∧ field ∈ right.body.declaredNames := by
  rw [removed_foldl_pare start honce, hstart, List.nil_append, nodesOf_eq_filter type source]
  simp only [List.mem_flatMap, List.mem_filter, decide_eq_true_eq, TypeDefinition.mem_lostPaths]
  constructor
  · rintro ⟨right, hright, left, hleft, rfl, hlost⟩
    exact ⟨right, ⟨hright, rfl⟩, left, hleft, hlost⟩
  · rintro ⟨right, ⟨hright, rfl⟩, left, hleft, hlost⟩
    exact ⟨right, hright, left, hleft, rfl, hlost⟩

/-- If the nodes of a type are of one kind, a field or enum value is removed from it exactly if the type
declared it and does so no more. -/
theorem mem_removed_iff_declaredBy (start : PareSummary S) {source : List Definition}
    (hstart : start.removed = []) (honce : ((typeNodes source).map (·.name)).Nodup)
    (hkind : OneKind start.definitions) {type field : String} :
    (type, field) ∈ (source.foldl PareSummary.pare start).removed ↔
      DeclaredBy (nodesOf type start.definitions) field ∧
        ¬ DeclaredBy (nodesOf type (source.foldl PareSummary.pare start).definitions) field := by
  rw [mem_removed_iff start hstart honce]
  rcases nodesOf_eq_nil_or_singleton honce type with hnone | ⟨right, hone⟩
  · rw [nodesOf_foldl_pare_of_absent start hnone, hnone]
    simp
  by_cases hpresent : nodesOf type start.definitions = []
  · simp [hpresent, DeclaredBy]
  -- What is still declared is what some node is left with.
  have hleft : DeclaredBy (nodesOf type (source.foldl PareSummary.pare start).definitions) field ↔
      ∃ left ∈ nodesOf type start.definitions, field ∈ left.body.declaredNames ∧
        (left.body.collection = right.body.collection → field ∉ right.body.declaredNames) := by
    rw [nodesOf_foldl_pare_of_single start hone hpresent]
    simp only [DeclaredBy, List.mem_filterMap, ← TypeDefinition.mem_declaredNames_pared?]
    constructor
    · rintro ⟨pared, ⟨left, hmem, hpared⟩, hfield⟩
      exact ⟨left, hmem, pared, hpared, hfield⟩
    · rintro ⟨left, hmem, pared, hpared, hfield⟩
      exact ⟨pared, ⟨left, hmem, hpared⟩, hfield⟩
  rw [hleft, hone]
  constructor
  · rintro ⟨other, hother, left, hmem, hcollection, hfield, htaken⟩
    obtain rfl := List.mem_singleton.mp hother
    refine ⟨⟨left, hmem, hfield⟩, ?_⟩
    rintro ⟨kept, hkept, -, hnot⟩
    -- All nodes of the type have the same kind of members, so each of them loses the field.
    have hsame : kept.body.collection = left.body.collection :=
      congrArg TypeKind.collection (hkind.sameKind type kept hkept left hmem)
    exact hnot (hsame.trans hcollection) htaken
  · rintro ⟨⟨left, hmem, hfield⟩, hnot⟩
    refine ⟨right, List.mem_singleton_self _, left, hmem, ?_⟩
    by_contra hkept
    refine hnot ⟨left, hmem, hfield, fun hcollection htaken => ?_⟩
    exact hkept ⟨hcollection, hfield, htaken⟩

/-! ## The resolvers that stay -/

namespace Document

/-- A field or enum value was removed from a type: one document declares it and the other does not. -/
def WasRemoved (before after : Document) (type field : String) : Prop :=
  before.declares type field ∧ ¬ after.declares type field

instance (before after : Document) (type field : String) :
    Decidable (WasRemoved before after type field) :=
  inferInstanceAs (Decidable (_ ∧ _))

/-- Whether a resolver stays when a document is cut down to another one.  In a type entry those stay
whose type is still there, if the type declares the field, or if the resolver is about the type as a
whole and no field of that name was removed.  In a root field entry those stay whose field is declared by
a root type. -/
def KeepsLeaf (before after : Document) : Option String × String × R → Prop
  | (some type, field, _) => nodesOf type after.definitions ≠ [] ∧
      (after.declares type field ∨ ResolverMap.isMeta field ∧ ¬ WasRemoved before after type field)
  | (none, field, _) => after.declaresOnRoot field

instance (before after : Document) (leaf : Option String × String × R) :
    Decidable (KeepsLeaf before after leaf) :=
  match leaf with
  | (some _, _, _) => inferInstanceAs (Decidable (_ ∧ (_ ∨ _ ∧ _)))
  | (none, field, _) => inferInstanceAs (Decidable (after.declaresOnRoot field = true))

end Document

/-- The resolvers of a map that stay when its document is cut down to another one, in their order and in
the entries that they stood in. -/
structure ResolverMap.CutsDown (map : ResolverMap R) (before after : Document)
    (cut : ResolverMap R) : Prop where
  leaves : cut.leaves = map.leaves.filter fun leaf => before.KeepsLeaf after leaf
  noneEmpty : ∀ type fields, cut.type? type = some fields → fields.keys ≠ []

/-- After a pare the resolvers are those of the target that are about something still there.  No resolver
comes from the source. -/
theorem pare_cutsResolversDown {target source : Source R S} {left right : Document}
    (hleft : (target.toDocument .pare .target).value = .ok left)
    (hright : (source.toDocument .pare .source).value = .ok right)
    (hkind : OneKind left.definitions)
    (honce : ((typeNodes right.definitions).map (·.name)).Nodup) :
    ∃ pared : Bundle R S, (pare target source).value = .ok pared ∧
      target.resolvers.CutsDown left pared.document pared.resolvers := by
  refine ⟨_, value_pare hleft hright, ?_⟩
  rw [value_pareBundles]
  let start : PareSummary S := ⟨left.definitions, [], target.scalars⟩
  let summary := right.definitions.foldl PareSummary.pare start
  let document : Document := ⟨summary.definitions⟩
  let remaining := (target.resolvers.removeFields summary.removed document).value.1
  show target.resolvers.CutsDown left document (remaining.retainPresent document).value.1
  refine ⟨?_, ?_⟩
  · rw [ResolverMap.leaves_retainPresent, ResolverMap.filter_retains_removeFields,
      List.filter_filter]
    apply List.filter_congr
    rintro ⟨type?, field, resolver⟩ -
    rw [Bool.eq_iff_iff, Bool.and_eq_true, decide_eq_true_iff, decide_eq_true_iff]
    cases type? with
    | none => simp [Document.retains, Document.KeepsLeaf]
    | some type =>
      have hremoved : (type, field) ∈ summary.removed ↔ left.WasRemoved document type field := by
        rw [mem_removed_iff_declaredBy start rfl honce hkind, Document.WasRemoved,
          Document.declares_iff, Document.declares_iff]
      have hpaths : (∀ path ∈ summary.removed, ((some type, field) : Option String × String) ≠
          (some path.1, path.2)) ↔ ¬ left.WasRemoved document type field := by
        rw [← hremoved]
        constructor
        · exact fun h hmem => h _ hmem rfl
        · rintro h ⟨other, name⟩ hmem heq
          cases heq
          exact h hmem
      rw [hpaths]
      show _ ∧ document.keepsResolver type field = true ↔ _ ∧ (_ ∨ _ ∧ _)
      rw [Document.keepsResolver_iff]
      -- What is declared was not removed.
      have hdeclared : document.declares type field → ¬ left.WasRemoved document type field :=
        fun h hgone => hgone.2 h
      tauto
  · intro type fields hfields
    obtain ⟨entry, hentry, hsome⟩ := Option.bind_eq_some_iff.mp hfields
    cases entry with
    | rootField resolver => cases hsome
    | type kept =>
      obtain rfl := Option.some.inj hsome
      exact (ResolverMap.retainPresent_inStep remaining document _
        (OrderedMap.mem_of_get? hentry)).1

/-- A root field that another root type still has, and a field that is named like a resolver about a type
as a whole. -/
theorem pare_twoRoots_cutsResolversDown :
    ∃ pared : Bundle Nat Unit,
      (pare (.bundle ⟨⟨[.type ⟨none, "Query", [], .object [] [⟨none, "a", [], .named "Int", []⟩,
            ⟨none, "b", [], .named "Int", []⟩]⟩,
          .type ⟨none, "Mutation", [], .object [] [⟨none, "a", [], .named "Int", []⟩]⟩,
          .type ⟨none, "User", [], .object [] [⟨none, "__x", [], .named "Int", []⟩]⟩,
          .extension ⟨"User", [], .object [] [⟨none, "name", [], .named "Int", []⟩]⟩]⟩,
          ⟨.ofList [("Query", .type (.ofList [("a", 1), ("b", 2)])), ("a", .rootField 3),
            ("User", .type (.ofList [("__x", 4), ("__isTypeOf", 5), ("name", 6)]))]⟩, ∅⟩)
        (.sdl "type Query { a: Int } type User { __x: Int }")).value = .ok pared ∧
      ResolverMap.CutsDown
        ⟨.ofList [("Query", .type (.ofList [("a", 1), ("b", 2)])), ("a", .rootField 3),
          ("User", .type (.ofList [("__x", 4), ("__isTypeOf", 5), ("name", 6)]))]⟩
        ⟨[.type ⟨none, "Query", [], .object [] [⟨none, "a", [], .named "Int", []⟩,
            ⟨none, "b", [], .named "Int", []⟩]⟩,
          .type ⟨none, "Mutation", [], .object [] [⟨none, "a", [], .named "Int", []⟩]⟩,
          .type ⟨none, "User", [], .object [] [⟨none, "__x", [], .named "Int", []⟩]⟩,
          .extension ⟨"User", [], .object [] [⟨none, "name", [], .named "Int", []⟩]⟩]⟩
        pared.document pared.resolvers := by
  let target : Bundle Nat Unit :=
    ⟨⟨[.type ⟨none, "Query", [], .object [] [⟨none, "a", [], .named "Int", []⟩,
          ⟨none, "b", [], .named "Int", []⟩]⟩,
        .type ⟨none, "Mutation", [], .object [] [⟨none, "a", [], .named "Int", []⟩]⟩,
        .type ⟨none, "User", [], .object [] [⟨none, "__x", [], .named "Int", []⟩]⟩,
        .extension ⟨"User", [], .object [] [⟨none, "name", [], .named "Int", []⟩]⟩]⟩,
      ⟨.ofList [("Query", .type (.ofList [("a", 1), ("b", 2)])), ("a", .rootField 3),
        ("User", .type (.ofList [("__x", 4), ("__isTypeOf", 5), ("name", 6)]))]⟩, ∅⟩
  have htarget : target.Readable := by decide +kernel
  have hright : ((.sdl "type Query { a: Int } type User { __x: Int }" :
      Source Nat Unit).toDocument .pare .source).value =
        .ok ⟨[.type ⟨none, "Query", [], .object [] [⟨none, "a", [], .named "Int", []⟩]⟩,
          .type ⟨none, "User", [], .object [] [⟨none, "__x", [], .named "Int", []⟩]⟩]⟩ := by
    decide +kernel
  exact pare_cutsResolversDown (htarget.toDocument _ _) hright (by decide +kernel)
    (by decide +kernel)

end SchemaAlgebra
