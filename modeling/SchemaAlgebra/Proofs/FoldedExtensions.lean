import SchemaAlgebra.Proofs.Consistency
import SchemaAlgebra.Proofs.MergedResolvers

/-!
# Extensions in the target and in the source

An extension reaches a type in two ways.  One that stands in the target is gathered with the type's
definition (`TypeDefinition.absorb`); one that a source brings is merged into it
(`TypeDefinition.override`).  A further source is merged into either result.

The two ways agree on directives and members, unless the extension repeats a name.  They do not agree
on interfaces: only gathering adds those of the extension.

## Main statements

* `lastWins_firstWins_eq_iff`: when two collections may be joined in either way before a third one is
  merged into them.
* `carrying_foldl_mergeInto`: the one definition that a source makes of a type.
* `merge_extension_agrees_iff`: when the two ways give the same type.
-/

namespace SchemaAlgebra

variable {R S : Type}

/-! ## Collections -/

section Collections

variable {α : Type} [Named α]

theorem settle_append (resolve : α → α → α) (right : α) (left more : List α) :
    settle resolve right (left ++ more) =
      if Named.name right ∈ namesOf left then settle resolve right left ++ more
      else left ++ settle resolve right more := by
  induction left with
  | nil => simp
  | cons node rest ih =>
    by_cases hnode : Named.name node = Named.name right
    · simp [settle, hnode]
    · have hother : ¬ Named.name right = Named.name node := fun e => hnode e.symm
      simp only [List.cons_append, settle, hnode, if_false, ih, namesOf_cons, List.mem_cons, hother,
        false_or]
      split <;> rfl

/-- Of two collections in a row, the second one is settled with the nodes that are new to the first. -/
theorem settleAll_append_left {resolve : α → α → α} (hkeeps : KeepsName resolve)
    (left more right : List α) :
    settleAll resolve (left ++ more) right =
      settleAll resolve left (right.filter (Named.name · ∈ namesOf left)) ++
        settleAll resolve more (right.filter (Named.name · ∉ namesOf left)) := by
  induction right generalizing left more with
  | nil => rfl
  | cons node rest ih =>
    have hstep : settleAll resolve (left ++ more) (node :: rest) =
        settleAll resolve (settle resolve node (left ++ more)) rest := rfl
    rw [hstep, settle_append]
    by_cases hnode : Named.name node ∈ namesOf left
    · have hsame : namesOf (settle resolve node left) = namesOf left := by
        rw [namesOf_settle hkeeps, if_pos hnode]
      rw [if_pos hnode, ih, hsame, List.filter_cons_of_pos (by simpa using hnode),
        List.filter_cons_of_neg (by simpa using hnode)]
      rfl
    · rw [if_neg hnode, ih, List.filter_cons_of_neg (by simpa using hnode),
        List.filter_cons_of_pos (by simpa using hnode)]
      rfl

/-- Further nodes that share no name with a collection are merged among themselves and put behind it. -/
theorem settleAll_of_disjoint {resolve : α → α → α} (hkeeps : KeepsName resolve) {base more : List α}
    (h : ∀ name ∈ namesOf more, name ∉ namesOf base) :
    settleAll resolve base more = base ++ settleAll resolve [] more := by
  have hold : more.filter (Named.name · ∈ namesOf base) = [] := by
    rw [List.filter_eq_nil_iff]
    intro node hnode
    simpa using h _ (List.mem_map_of_mem hnode)
  have hnew : more.filter (Named.name · ∉ namesOf base) = more := by
    rw [List.filter_eq_self]
    intro node hnode
    simpa using h _ (List.mem_map_of_mem hnode)
  have hsplit := settleAll_append_left hkeeps base [] more
  rwa [List.append_nil, hold, hnew] at hsplit

/-- A collection without repeated names is known by its names and the node under each. -/
theorem eq_of_findSibling {left right : List α} (hnames : namesOf left = namesOf right)
    (hnodup : (namesOf left).Nodup)
    (h : ∀ name ∈ namesOf left, findSibling left name = findSibling right name) : left = right := by
  induction left generalizing right with
  | nil => exact (List.map_eq_nil_iff.mp hnames.symm).symm
  | cons first rest ih =>
    cases right with
    | nil => cases hnames
    | cons other others =>
      obtain ⟨hname, hrest⟩ := List.cons.inj hnames
      obtain ⟨hfresh, hnodup⟩ := List.nodup_cons.mp hnodup
      have hfirst := h (Named.name first) List.mem_cons_self
      rw [findSibling_cons, if_pos rfl, findSibling_cons, if_pos hname.symm] at hfirst
      have hlater : ∀ name ∈ namesOf rest, findSibling rest name = findSibling others name := by
        intro name hmem
        have hne : Named.name first ≠ name := fun e => hfresh (e ▸ hmem)
        have hboth := h name (List.mem_cons_of_mem _ hmem)
        rwa [findSibling_cons, if_neg hne, findSibling_cons, if_neg (hname ▸ hne)] at hboth
      rw [Option.some.inj hfirst, ih hrest hnodup hlater]

/-- A name that nodes repeat has the same first and last node, or it is overwritten anyway. -/
def RepeatsAgree (nodes cover : List α) : Prop :=
  ∀ name ∈ namesOf nodes, name ∉ namesOf cover → findSibling nodes name = findSibling nodes.reverse name

instance [DecidableEq α] (nodes cover : List α) : Decidable (RepeatsAgree nodes cover) :=
  inferInstanceAs (Decidable (∀ name ∈ namesOf nodes, _ → _))

/-- Whether the first or the last of further nodes is kept shows in the end only where they repeat a
name that is not overwritten. -/
theorem lastWins_firstWins_eq_iff {base more : List α} (cover : List α)
    (hdisjoint : ∀ name ∈ namesOf more, name ∉ namesOf base) :
    lastWins (firstWins base more) cover = lastWins (lastWins base more) cover ↔
      RepeatsAgree more cover := by
  let later := cover.filter (Named.name · ∉ namesOf base)
  have hlater : ∀ name ∈ namesOf more, (name ∈ namesOf later ↔ name ∈ namesOf cover) := by
    intro name hmem
    have hnew := hdisjoint name hmem
    simp only [later, namesOf, List.mem_map, List.mem_filter, decide_eq_true_eq]
    constructor
    · rintro ⟨node, ⟨hnode, -⟩, hname⟩
      exact ⟨node, hnode, hname⟩
    · rintro ⟨node, hnode, rfl⟩
      exact ⟨node, ⟨hnode, by simpa [namesOf] using hnew⟩, rfl⟩
  -- What is settled with the base is the same on both sides.
  have hreduce : lastWins (firstWins base more) cover = lastWins (lastWins base more) cover ↔
      lastWins (firstWins [] more) later = lastWins (lastWins [] more) later := by
    rw [firstWins, settleAll_of_disjoint keepsName_first hdisjoint, lastWins, lastWins, lastWins,
      settleAll_of_disjoint keepsName_last hdisjoint, settleAll_append_left keepsName_last,
      settleAll_append_left keepsName_last, List.append_cancel_left_eq]
    rfl
  have hfirst : ∀ name, findSibling (lastWins (firstWins [] more) later) name =
      (findSibling later.reverse name).or (findSibling more name) := by
    intro name
    rw [findSibling_lastWins, findSibling_firstWins]
    rfl
  have hlast : ∀ name, findSibling (lastWins (lastWins [] more) later) name =
      (findSibling later.reverse name).or (findSibling more.reverse name) := by
    intro name
    rw [findSibling_lastWins, findSibling_lastWins [] more]
    simp [findSibling]
  have hoverwritten : ∀ name, findSibling later.reverse name = none ↔ name ∉ namesOf later := by
    intro name
    rw [findSibling_eq_none_iff]
    simp [namesOf]
  rw [hreduce]
  constructor
  · intro hequal name hmem hkept
    have hnone := (hoverwritten name).mpr (mt (hlater name hmem).mp hkept)
    have hboth := hfirst name
    rw [hequal, hlast, hnone, Option.none_or, Option.none_or] at hboth
    exact hboth.symm
  · intro hagree
    have hnames : namesOf (lastWins (firstWins [] more) later) =
        namesOf (lastWins (lastWins [] more) later) := by
      simp only [lastWins, firstWins, namesOf_settleAll keepsName_last,
        namesOf_settleAll keepsName_first]
    have hnodup : (namesOf (lastWins (firstWins [] more) later)).Nodup :=
      nodup_settleAll keepsName_last _ (nodup_settleAll keepsName_first _ List.nodup_nil)
    refine eq_of_findSibling hnames hnodup fun name _ => ?_
    rw [hfirst, hlast]
    cases hover : findSibling later.reverse name with
    | some node => rfl
    | none =>
      rw [Option.none_or, Option.none_or]
      by_cases hmem : name ∈ namesOf more
      · exact hagree name hmem (mt (hlater name hmem).mpr ((hoverwritten name).mp hover))
      · have hreverse : name ∉ namesOf more.reverse := by simpa [namesOf] using hmem
        rw [findSibling_eq_none_iff.mpr hmem, findSibling_eq_none_iff.mpr hreverse]

end Collections

/-! ## Interfaces -/

/-- A union adds nothing exactly if there is nothing new. -/
theorem unionNames_eq_left_iff {left right : List String} :
    unionNames left right = left ↔ ∀ name ∈ right, name ∈ left := by
  constructor
  · intro hsame name hname
    rw [← hsame]
    exact mem_unionNames.mpr (.inr hname)
  · intro hall
    unfold unionNames
    induction right with
    | nil => rfl
    | cons first rest ih =>
      obtain ⟨hfirst, hrest⟩ := List.forall_mem_cons.mp hall
      rw [List.foldl_cons, if_pos (List.contains_iff_mem.mpr hfirst)]
      exact ih hrest

/-! ## Members -/

/-- A sort of members, whatever kinds of types have it. -/
structure MemberSort (α : Type) [Named α] where
  nodes : TypeBody → List α
  collection : Collection
  absent : ∀ body, body.collection ≠ collection → nodes body = []
  names : ∀ body, body.collection = collection → namesOf (nodes body) = body.memberNames
  joined : ∀ (interfaces : List String → List String → List String)
    (join : ∀ {β : Type} [Named β], List β → List β → List β) (left right : TypeBody),
    left.collection = collection →
      nodes (left.joinWith interfaces join right) = join (nodes left) (nodes right)

namespace MemberSort

/-- The fields of an object or an interface. -/
def outputFields : MemberSort Field where
  nodes := TypeBody.outputFields
  collection := .outputFields
  absent body h := by cases body <;> first | rfl | exact absurd rfl h
  names body h := by cases body <;> first | rfl | cases h
  joined _ _ left _ h := by cases left <;> first | rfl | cases h

/-- The fields of an input object. -/
def inputFields : MemberSort InputValue where
  nodes := TypeBody.inputFields
  collection := .inputFields
  absent body h := by cases body <;> first | rfl | exact absurd rfl h
  names body h := by cases body <;> first | rfl | cases h
  joined _ _ left _ h := by cases left <;> first | rfl | cases h

/-- The values of an enum. -/
def enumValues : MemberSort EnumValue where
  nodes := TypeBody.enumValues
  collection := .enumValues
  absent body h := by cases body <;> first | rfl | exact absurd rfl h
  names body h := by cases body <;> first | rfl | cases h
  joined _ _ left _ h := by cases left <;> first | rfl | cases h

/-- The members of a union. -/
def unionMembers : MemberSort String where
  nodes := TypeBody.unionMembers
  collection := .unionMembers
  absent body h := by cases body <;> first | rfl | exact absurd rfl h
  names body h := by cases body <;> first | exact namesOf_self _ | cases h
  joined _ _ left _ h := by cases left <;> first | rfl | cases h

end MemberSort

/-! ## Merging all nodes of a source -/

namespace TypeDefinition

variable (left : TypeDefinition) (nodes : List TypeDefinition)

theorem kind_foldl_override : (nodes.foldl override left).kind = left.kind := by
  induction nodes generalizing left with
  | nil => rfl
  | cons node rest ih => exact (ih (left.override node)).trans (left.kind_override node)

theorem directives_foldl_override : (nodes.foldl override left).directives =
    lastWins left.directives (nodes.flatMap directives) := by
  induction nodes generalizing left with
  | nil => rfl
  | cons node rest ih =>
    rw [List.foldl_cons, ih, List.flatMap_cons]
    exact (settleAll_append ..).symm

theorem interfaces_override (right : TypeDefinition) :
    (left.override right).body.interfaces = left.body.interfaces := by
  unfold override
  cases left.body <;> rfl

/-- The interfaces of a type are never changed by a source. -/
theorem interfaces_foldl_override :
    (nodes.foldl override left).body.interfaces = left.body.interfaces := by
  induction nodes generalizing left with
  | nil => rfl
  | cons node rest ih => exact (ih (left.override node)).trans (left.interfaces_override node)

theorem interfaces_absorb {piece : TypeDefinition} (h : left.kind = piece.kind) :
    (left.absorb piece).body.interfaces =
      unionNames left.body.interfaces piece.body.interfaces := by
  obtain ⟨description, name, directives, body⟩ := left
  obtain ⟨otherDescription, otherName, otherDirectives, other⟩ := piece
  cases body <;> cases other <;> first | rfl | cases h

theorem members_foldl_override {α : Type} [Named α] (sort : MemberSort α)
    (h : left.body.collection = sort.collection) :
    sort.nodes (nodes.foldl override left).body =
      lastWins (sort.nodes left.body) (nodes.flatMap (sort.nodes ·.body)) := by
  induction nodes generalizing left with
  | nil => rfl
  | cons node rest ih =>
    have hnext : (left.override node).body.collection = sort.collection := by
      rw [collection_override, h]
    have hjoined : sort.nodes (left.override node).body =
        lastWins (sort.nodes left.body) (sort.nodes node.body) :=
      sort.joined (fun names _ => names) lastWins left.body node.body h
    rw [List.foldl_cons, ih _ hnext, hjoined, List.flatMap_cons]
    exact (settleAll_append ..).symm

end TypeDefinition

open TypeDefinition (SameKind)

/-- A source that carries a type makes one definition of its nodes, if the target's are of one kind. -/
theorem carrying_foldl_mergeInto {name : String} {definitions source : List Definition}
    {first : TypeDefinition} {later : List TypeDefinition}
    (hnodes : nodesOf name definitions = first :: later) (hsame : SameKind (first :: later))
    (hcarries : nodesOf name source ≠ []) :
    carrying ⟨.type, name⟩ (source.foldl (mergeInto TypeDefinition.override) definitions) =
      [.type ((nodesOf name source).foldl TypeDefinition.override
        (later.foldl TypeDefinition.absorb first))] := by
  obtain ⟨right, rest, hsource⟩ := List.exists_cons_of_ne_nil hcarries
  rw [carrying_foldl_mergeInto_unite source (hnodes ▸ hsame), hnodes, hsource]
  rfl

/-! ## The two ways -/

/-- Two nodes have the same directives, members and interfaces. -/
structure TypeDefinition.SameContent (one other : TypeDefinition) : Prop where
  directives : one.directives = other.directives
  interfaces : one.body.interfaces = other.body.interfaces
  outputFields : one.body.outputFields = other.body.outputFields
  inputFields : one.body.inputFields = other.body.inputFields
  enumValues : one.body.enumValues = other.body.enumValues
  unionMembers : one.body.unionMembers = other.body.unionMembers

/-- What it takes for an extension to count the same in both ways, for a type that further nodes are
merged into: it brings no new interface, and where it repeats a name, the nodes of that name are the
same or overwritten. -/
structure TypeDefinition.CountsTheSame (first extension : TypeDefinition)
    (sources : List TypeDefinition) : Prop where
  interfaces : ∀ interface ∈ extension.body.interfaces, interface ∈ first.body.interfaces
  directives : RepeatsAgree extension.directives (sources.flatMap (·.directives))
  outputFields : RepeatsAgree extension.body.outputFields (sources.flatMap (·.body.outputFields))
  inputFields : RepeatsAgree extension.body.inputFields (sources.flatMap (·.body.inputFields))
  enumValues : RepeatsAgree extension.body.enumValues (sources.flatMap (·.body.enumValues))
  unionMembers : RepeatsAgree extension.body.unionMembers (sources.flatMap (·.body.unionMembers))

/-- An extension of a type, of its kind and without a directive or member of the same name. -/
structure TypeDefinition.Extends (extension first : TypeDefinition) : Prop where
  name : extension.name = first.name
  kind : extension.kind = first.kind
  directives : ∀ name ∈ namesOf extension.directives, name ∉ namesOf first.directives
  members : ∀ name ∈ extension.body.memberNames, name ∉ first.body.memberNames

namespace TypeDefinition

variable {first extension : TypeDefinition}

/-- Members of one sort, in the two ways. -/
theorem Extends.members_eq_iff (h : extension.Extends first) (sources : List TypeDefinition)
    {α : Type} [Named α] (sort : MemberSort α) :
    sort.nodes (sources.foldl override (first.absorb extension)).body =
        sort.nodes (sources.foldl override (first.override extension)).body ↔
      RepeatsAgree (sort.nodes extension.body) (sources.flatMap (sort.nodes ·.body)) := by
  have hcollection : extension.body.collection = first.body.collection :=
    congrArg TypeKind.collection h.kind
  by_cases hsort : first.body.collection = sort.collection
  · have habsorbed : sort.nodes (first.absorb extension).body =
        firstWins (sort.nodes first.body) (sort.nodes extension.body) :=
      sort.joined unionNames firstWins first.body extension.body hsort
    have hoverridden : sort.nodes (first.override extension).body =
        lastWins (sort.nodes first.body) (sort.nodes extension.body) :=
      sort.joined (fun names _ => names) lastWins first.body extension.body hsort
    have hdisjoint : ∀ name ∈ namesOf (sort.nodes extension.body),
        name ∉ namesOf (sort.nodes first.body) := by
      rw [sort.names _ (hcollection.trans hsort), sort.names _ hsort]
      exact h.members
    rw [members_foldl_override _ _ sort (by rw [collection_absorb, hsort]),
      members_foldl_override _ _ sort (by rw [collection_override, hsort]), habsorbed, hoverridden,
      lastWins_firstWins_eq_iff _ hdisjoint]
  · -- No node of this kind has such members, whatever the source brings.
    have hnone : ∀ node : TypeDefinition, node.kind = first.kind → sort.nodes node.body = [] := by
      intro node hkind
      exact sort.absent _ fun e => hsort ((congrArg TypeKind.collection hkind).symm.trans e)
    rw [hnone _ ((kind_foldl_override _ _).trans (kind_absorb _ _)),
      hnone _ ((kind_foldl_override _ _).trans (kind_override _ _)), hnone _ h.kind]
    exact iff_of_true rfl fun name hname => absurd hname List.not_mem_nil

/-- When the two ways give the same content. -/
theorem Extends.sameContent_iff (h : extension.Extends first) (sources : List TypeDefinition) :
    SameContent (sources.foldl override (first.absorb extension))
        (sources.foldl override (first.override extension)) ↔
      CountsTheSame first extension sources := by
  have hdirectives : (sources.foldl override (first.absorb extension)).directives =
      (sources.foldl override (first.override extension)).directives ↔
        RepeatsAgree extension.directives (sources.flatMap (·.directives)) := by
    rw [directives_foldl_override, directives_foldl_override]
    exact lastWins_firstWins_eq_iff _ h.directives
  have hinterfaces : (sources.foldl override (first.absorb extension)).body.interfaces =
      (sources.foldl override (first.override extension)).body.interfaces ↔
        ∀ interface ∈ extension.body.interfaces, interface ∈ first.body.interfaces := by
    rw [interfaces_foldl_override, interfaces_foldl_override, interfaces_absorb _ h.kind.symm,
      interfaces_override, unionNames_eq_left_iff]
  have houtput := h.members_eq_iff sources .outputFields
  have hinput := h.members_eq_iff sources .inputFields
  have hvalues := h.members_eq_iff sources .enumValues
  have hunion := h.members_eq_iff sources .unionMembers
  constructor
  · intro hsame
    exact ⟨hinterfaces.mp hsame.interfaces, hdirectives.mp hsame.directives,
      houtput.mp hsame.outputFields, hinput.mp hsame.inputFields, hvalues.mp hsame.enumValues,
      hunion.mp hsame.unionMembers⟩
  · intro hcounts
    exact ⟨hdirectives.mpr hcounts.directives, hinterfaces.mpr hcounts.interfaces,
      houtput.mpr hcounts.outputFields, hinput.mpr hcounts.inputFields,
      hvalues.mpr hcounts.enumValues, hunion.mpr hcounts.unionMembers⟩

end TypeDefinition

/-- An extension behind a document with one definition of its type, merged with a further source; and
the same document merged with the extension first and then with that source.  Both ways the type ends up
as one definition.  The first has the interfaces of definition and extension, the second those of the
definition only, and otherwise they have the same content if the extension repeats no name. -/
theorem merge_extension_agrees_iff {extended base piece source : Source R S}
    {definitions further : List Definition} {extension : TypeExtension} {first : TypeDefinition}
    (hextended : (extended.toDocument .merge .target).value =
      .ok ⟨definitions ++ [.extension extension]⟩)
    (hbase : (base.toDocument .merge .target).value = .ok ⟨definitions⟩)
    (hpiece : (piece.toDocument .merge .source).value = .ok ⟨[.extension extension]⟩)
    (hsource : (source.toDocument .merge .source).value = .ok ⟨further⟩)
    (hfirst : carrying ⟨.type, first.name⟩ definitions = [.type first])
    (hextends : extension.toDefinition.Extends first)
    (hcarries : nodesOf first.name further ≠ [])
    (hreadable : ∀ middle : Bundle R S,
      (merge Policy.rightWins base piece).value = .ok middle → middle.Readable) :
    ∃ folded middle merged : Bundle R S,
      (merge Policy.rightWins extended source).value = .ok folded ∧
      (merge Policy.rightWins base piece).value = .ok middle ∧
      (merge Policy.rightWins (.bundle middle) source).value = .ok merged ∧
      ∃ one other : TypeDefinition,
        carrying ⟨.type, first.name⟩ folded.document.definitions = [.type one] ∧
        carrying ⟨.type, first.name⟩ merged.document.definitions = [.type other] ∧
        one.body.interfaces = unionNames first.body.interfaces extension.body.interfaces ∧
        other.body.interfaces = first.body.interfaces ∧
        (one.SameContent other ↔
          TypeDefinition.CountsTheSame first extension.toDefinition (nodesOf first.name further)) := by
  have hmiddle := value_merge Policy.rightWins hbase hpiece
  have hnodes : nodesOf first.name definitions = [first] := by
    rw [nodesOf, hfirst]
    rfl
  have hpieceNodes : nodesOf first.name [.extension extension] = [extension.toDefinition] := by
    have hnode : (Definition.extension extension).typeDefinition? = some extension.toDefinition := rfl
    rw [nodesOf_singleton hnode, if_pos hextends.name]
  have hpieceCarries : nodesOf first.name [.extension extension] ≠ [] := by
    rw [hpieceNodes]
    exact List.cons_ne_nil _ _
  have hsingle : ∀ node : TypeDefinition, SameKind [node] := by
    intro node one hone other hother
    rw [List.mem_singleton.mp hone, List.mem_singleton.mp hother]
  have hboth : SameKind [first, extension.toDefinition] := by
    intro one hone other hother
    have hkind : ∀ node ∈ [first, extension.toDefinition], node.kind = first.kind := by
      simp [hextends.kind]
    rw [hkind one hone, hkind other hother]
  have hextendedNodes : nodesOf first.name (definitions ++ [.extension extension]) =
      [first, extension.toDefinition] := by
    rw [nodesOf_append, hnodes, hpieceNodes]
    rfl
  have hmiddleNodes : nodesOf first.name
      ([.extension extension].foldl (mergeInto TypeDefinition.override) definitions) =
        [first.override extension.toDefinition] := by
    rw [nodesOf, carrying_foldl_mergeInto hnodes (hsingle first) hpieceCarries, hpieceNodes]
    rfl
  refine ⟨_, _, _, value_merge Policy.rightWins hextended hsource, hmiddle,
    value_merge Policy.rightWins ((hreadable _ hmiddle).toDocument _ _) hsource, _, _, ?_, ?_,
    ?_, ?_, hextends.sameContent_iff (nodesOf first.name further)⟩
  · rw [definitions_mergeBundles_rightWins]
    exact carrying_foldl_mergeInto hextendedNodes hboth hcarries
  · rw [definitions_mergeBundles_rightWins, definitions_mergeBundles_rightWins]
    exact carrying_foldl_mergeInto hmiddleNodes (hsingle _) hcarries
  · rw [TypeDefinition.interfaces_foldl_override,
      TypeDefinition.interfaces_absorb _ hextends.kind.symm]
    rfl
  · rw [TypeDefinition.interfaces_foldl_override, TypeDefinition.interfaces_override]

/-- An extension with a field that a further source overwrites. -/
theorem merge_extendedObject_agrees :
    ∃ folded middle merged : Bundle Unit Unit,
      (merge Policy.rightWins (.sdl "type A { a: Int } extend type A { b: Int }")
        (.sdl "type A { b: ID }")).value = .ok folded ∧
      (merge Policy.rightWins (.sdl "type A { a: Int }") (.sdl "extend type A { b: Int }")).value =
        .ok middle ∧
      (merge Policy.rightWins (.bundle middle) (.sdl "type A { b: ID }")).value = .ok merged ∧
      ∃ one other : TypeDefinition,
        carrying ⟨.type, "A"⟩ folded.document.definitions = [.type one] ∧
        carrying ⟨.type, "A"⟩ merged.document.definitions = [.type other] ∧
        one.body.interfaces = unionNames [] [] ∧ other.body.interfaces = [] ∧
        (one.SameContent other ↔ TypeDefinition.CountsTheSame
          ⟨none, "A", [], .object [] [⟨none, "a", [], .named "Int", []⟩]⟩
          ⟨none, "A", [], .object [] [⟨none, "b", [], .named "Int", []⟩]⟩
          (nodesOf "A" [.type ⟨none, "A", [], .object [] [⟨none, "b", [], .named "ID", []⟩]⟩])) := by
  let first : TypeDefinition := ⟨none, "A", [], .object [] [⟨none, "a", [], .named "Int", []⟩]⟩
  let extension : TypeExtension := ⟨"A", [], .object [] [⟨none, "b", [], .named "Int", []⟩]⟩
  let further : Document :=
    ⟨[.type ⟨none, "A", [], .object [] [⟨none, "b", [], .named "ID", []⟩]⟩]⟩
  have hextended : ((.sdl "type A { a: Int } extend type A { b: Int }" :
      Source Unit Unit).toDocument .merge .target).value =
        .ok ⟨[.type first] ++ [.extension extension]⟩ := by decide +kernel
  have hbase : ((.sdl "type A { a: Int }" : Source Unit Unit).toDocument .merge .target).value =
      .ok ⟨[.type first]⟩ := by decide +kernel
  have hpiece : ((.sdl "extend type A { b: Int }" :
      Source Unit Unit).toDocument .merge .source).value = .ok ⟨[.extension extension]⟩ := by
    decide +kernel
  have hsource : ((.sdl "type A { b: ID }" : Source Unit Unit).toDocument .merge .source).value =
      .ok further := by decide +kernel
  have hfirst : carrying ⟨.type, first.name⟩ [.type first] = [.type first] := by decide +kernel
  have hextends : extension.toDefinition.Extends first :=
    ⟨rfl, rfl, by decide +kernel, by decide +kernel⟩
  refine merge_extension_agrees_iff hextended hbase hpiece hsource hfirst hextends
    (by decide +kernel) ?_
  intro middle hmiddle
  rw [value_merge Policy.rightWins hbase hpiece] at hmiddle
  obtain rfl := Except.ok.inj hmiddle
  decide +kernel

/-- An interface that an extension in the target brings is there after the merge, and one that the same
extension brings as a source is not. -/
theorem merge_extensionAsSource_losesInterface :
    ∃ folded middle merged : Bundle Unit Unit,
      (merge Policy.rightWins (.sdl "type A { a: Int } extend type A implements I")
        (.sdl "type A { b: Int }")).value = .ok folded ∧
      (merge Policy.rightWins (.sdl "type A { a: Int }")
        (.sdl "extend type A implements I")).value = .ok middle ∧
      middle.Readable ∧
      (merge Policy.rightWins (.bundle middle) (.sdl "type A { b: Int }")).value = .ok merged ∧
      ∃ one other : TypeDefinition,
        carrying ⟨.type, "A"⟩ folded.document.definitions = [.type one] ∧
        carrying ⟨.type, "A"⟩ merged.document.definitions = [.type other] ∧
        ¬ one.SameContent other := by
  let first : Definition :=
    .type ⟨none, "A", [], .object [] [⟨none, "a", [], .named "Int", []⟩]⟩
  let extension : Definition := .extension ⟨"A", [], .object ["I"] []⟩
  let further : Definition :=
    .type ⟨none, "A", [], .object [] [⟨none, "b", [], .named "Int", []⟩]⟩
  have hextended : ((.sdl "type A { a: Int } extend type A implements I" :
      Source Unit Unit).toDocument .merge .target).value = .ok ⟨[first, extension]⟩ := by
    decide +kernel
  have hbase : ((.sdl "type A { a: Int }" : Source Unit Unit).toDocument .merge .target).value =
      .ok ⟨[first]⟩ := by decide +kernel
  have hpiece : ((.sdl "extend type A implements I" :
      Source Unit Unit).toDocument .merge .source).value = .ok ⟨[extension]⟩ := by decide +kernel
  have hsource : ((.sdl "type A { b: Int }" : Source Unit Unit).toDocument .merge .source).value =
      .ok ⟨[further]⟩ := by decide +kernel
  have hmiddle : (mergeBundles Policy.rightWins (⟨⟨[first]⟩, ∅, ∅⟩ : Bundle Unit Unit)
      ⟨⟨[extension]⟩, ∅, ∅⟩).value.Readable := by decide +kernel
  let fields : List Field :=
    [⟨none, "a", [], .named "Int", []⟩, ⟨none, "b", [], .named "Int", []⟩]
  refine ⟨_, _, _, value_merge _ hextended hsource, value_merge _ hbase hpiece, hmiddle,
    value_merge _ (hmiddle.toDocument _ _) hsource, ⟨none, "A", [], .object ["I"] fields⟩,
    ⟨none, "A", [], .object [] fields⟩, ?_, ?_, ?_⟩
  · decide +kernel
  · decide +kernel
  · intro hsame
    exact absurd hsame.interfaces (List.cons_ne_nil "I" [])

end SchemaAlgebra
