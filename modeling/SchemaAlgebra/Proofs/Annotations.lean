import SchemaAlgebra.Proofs.Collisions
import SchemaAlgebra.Proofs.RepeatedMerge

/-!
# Descriptions and directives of merged types

A source that carries a type puts its nodes into the target's first node of the type, together with the
target's later nodes.  What the first node says about itself decides what the merged type says.

Descriptions are not gathered.  The description of the first node stays, whatever the other nodes have, so a
type whose extension stands before its definition loses the description of the definition as soon as a
source touches it.

Directives are gathered, with one place for each name.  Of several applications of a directive that one node
of the source has, each takes the place of the one before, and the last one is left.

## Main statements

* `merge_describes_iff`: which descriptions of the target are there after a merge.
* `merge_keepsLastApplications`: which directives of a source node are there after a merge.
-/

namespace SchemaAlgebra

variable {R S : Type}

/-! ## Descriptions -/

/-- Some node of a type has a description. -/
def DescribedAs (definitions : List Definition) (name description : String) : Prop :=
  ∃ node ∈ nodesOf name definitions, node.description = some description

instance (definitions : List Definition) (name description : String) :
    Decidable (DescribedAs definitions name description) :=
  inferInstanceAs (Decidable (∃ node ∈ nodesOf name definitions, node.description = some description))

/-- The description of the first node of a type. -/
def leadingDescription? (name : String) (definitions : List Definition) : Option String :=
  (nodesOf name definitions).head?.bind (·.description)

theorem TypeDefinition.description_foldl_absorb (first : TypeDefinition) (later : List TypeDefinition) :
    (later.foldl absorb first).description = first.description := by
  refine List.foldlRecOn (motive := fun gathered : TypeDefinition =>
    gathered.description = first.description) later _ rfl ?_
  exact fun _ hgathered _ _ => hgathered

section Definitions

variable {target source : List Definition} {name : String}

/-- A type that the source does not carry keeps its nodes. -/
theorem nodesOf_foldl_into_of_absent (h : nodesOf name source = []) :
    nodesOf name (source.foldl (Operation.into .merge) target) = nodesOf name target := by
  have hnone : carrying ⟨.type, name⟩ source = [] := carrying_eq_nil.mpr (nodesOf_eq_nil_iff.mp h)
  rw [nodesOf, Operation.carrying_foldl_into, hnone]
  rfl

/-- A type that both sides carry has one node after a merge, with the description of its first one. -/
theorem exists_nodesOf_foldl_into {first : TypeDefinition} {later : List TypeDefinition}
    (hnodes : nodesOf name target = first :: later) (hkind : OneKind target)
    (hcarries : nodesOf name source ≠ []) :
    ∃ merged, nodesOf name (source.foldl (Operation.into .merge) target) = [merged] ∧
      merged.description = first.description := by
  have hsame := hkind.sameKind name
  rw [hnodes] at hsame
  let merged := (nodesOf name source).foldl TypeDefinition.override
    (later.foldl TypeDefinition.absorb first)
  have hmerged : carrying ⟨.type, name⟩ (source.foldl (Operation.into .merge) target) =
      [.type merged] := carrying_foldl_mergeInto hnodes hsame hcarries
  refine ⟨merged, ?_, ?_⟩
  · rw [nodesOf, hmerged]
    rfl
  · exact (TypeDefinition.name_description_foldl_override _ _).2.trans
      (first.description_foldl_absorb later)

/-- The descriptions that a type of the target has after a merge are those that it had, if the source does
not carry the type, and the one of its first node otherwise. -/
theorem describedAs_foldl_into_iff (hkind : OneKind target) (hcarries : nodesOf name target ≠ [])
    (description : String) :
    DescribedAs (source.foldl (Operation.into .merge) target) name description ↔
      DescribedAs target name description ∧
        (nodesOf name source = [] ∨ leadingDescription? name target = some description) := by
  -- Without the source's nodes nothing is folded, and all nodes of the type stay as they are.
  by_cases hnone : nodesOf name source = []
  · rw [DescribedAs, nodesOf_foldl_into_of_absent hnone, and_iff_left (.inl hnone)]
    rfl
  · obtain ⟨first, later, hnodes⟩ := List.exists_cons_of_ne_nil hcarries
    obtain ⟨merged, hmerged, hdescription⟩ := exists_nodesOf_foldl_into hnodes hkind hnone
    have hleading : leadingDescription? name target = first.description := by
      rw [leadingDescription?, hnodes]
      rfl
    rw [DescribedAs, hmerged, hleading, or_iff_right hnone]
    constructor
    · rintro ⟨node, hnode, hhas⟩
      obtain rfl := List.mem_singleton.mp hnode
      rw [hdescription] at hhas
      exact ⟨⟨first, hnodes ▸ List.mem_cons_self, hhas⟩, hhas⟩
    · rintro ⟨-, hhas⟩
      exact ⟨merged, List.mem_singleton_self merged, hdescription.trans hhas⟩

end Definitions

/-- After a merge a type of the target has the descriptions that it had, but those of a type that the source
carries only if they are on its first node. -/
theorem merge_describes_iff {target source : Source R S} {left right : Document}
    (hleft : (target.toDocument .merge .target).value = .ok left)
    (hright : (source.toDocument .merge .source).value = .ok right)
    (hkind : OneKind left.definitions) :
    ∃ merged : Bundle R S, (merge Policy.rightWins target source).value = .ok merged ∧
      ∀ name description, nodesOf name left.definitions ≠ [] →
        (DescribedAs merged.document.definitions name description ↔
          DescribedAs left.definitions name description ∧
            (nodesOf name right.definitions = [] ∨
              leadingDescription? name left.definitions = some description)) := by
  obtain ⟨merged, hmerged, hdefinitions⟩ := merge_eq_foldl_into hleft hright
  refine ⟨merged, hmerged, fun name description hcarries => ?_⟩
  rw [hdefinitions]
  exact describedAs_foldl_into_iff hkind hcarries description

/-- Types with their definition before and behind an extension, of which the source carries the first. -/
theorem merge_extendedTypes_describes_iff :
    ∃ merged : Bundle Unit Unit,
      (merge Policy.rightWins
        (.sdl "\"d\" type A { a: Int } extend type A { b: Int } extend type B { x: Int } \"e\" type B { y: Int }")
        (.sdl "\"s\" type A { c: Int }")).value = .ok merged ∧
      DescribedAs merged.document.definitions "A" "d" ∧
      ¬ DescribedAs merged.document.definitions "A" "s" ∧
      DescribedAs merged.document.definitions "B" "e" := by
  let left : Document := ⟨[
    .type ⟨some "d", "A", [], .object [] [⟨none, "a", [], .named "Int", []⟩]⟩,
    .extension ⟨"A", [], .object [] [⟨none, "b", [], .named "Int", []⟩]⟩,
    .extension ⟨"B", [], .object [] [⟨none, "x", [], .named "Int", []⟩]⟩,
    .type ⟨some "e", "B", [], .object [] [⟨none, "y", [], .named "Int", []⟩]⟩]⟩
  let right : Document :=
    ⟨[.type ⟨some "s", "A", [], .object [] [⟨none, "c", [], .named "Int", []⟩]⟩]⟩
  have hleft : ((.sdl
      "\"d\" type A { a: Int } extend type A { b: Int } extend type B { x: Int } \"e\" type B { y: Int }" :
      Source Unit Unit).toDocument .merge .target).value = .ok left := by decide +kernel
  have hright : ((.sdl "\"s\" type A { c: Int }" : Source Unit Unit).toDocument .merge .source).value =
      .ok right := by decide +kernel
  have hkind : OneKind left.definitions := by decide
  obtain ⟨merged, hmerged, hdescribed⟩ := merge_describes_iff hleft hright hkind
  exact ⟨merged, hmerged, (hdescribed "A" "d" (by decide)).mpr (by decide),
    mt (hdescribed "A" "s" (by decide)).mp (by decide), (hdescribed "B" "e" (by decide)).mpr (by decide)⟩

/-- A type whose extension stands before its definition loses its description, however small the part is
that a source brings. -/
theorem merge_extensionFirst_losesDescription :
    ∃ (left : Document) (merged : Bundle Unit Unit),
      ((.sdl "extend type A { a: Int } \"d\" type A { b: Int }" :
        Source Unit Unit).toDocument .merge .target).value = .ok left ∧
      (merge Policy.rightWins (.sdl "extend type A { a: Int } \"d\" type A { b: Int }")
        (.sdl "type A { c: Int }")).value = .ok merged ∧
      OneKind left.definitions ∧
      (nodesOf "A" left.definitions).filterMap (·.description) = ["d"] ∧
      ¬ DescribedAs merged.document.definitions "A" "d" := by
  let left : Document := ⟨[
    .extension ⟨"A", [], .object [] [⟨none, "a", [], .named "Int", []⟩]⟩,
    .type ⟨some "d", "A", [], .object [] [⟨none, "b", [], .named "Int", []⟩]⟩]⟩
  let right : Document := ⟨[.type ⟨none, "A", [], .object [] [⟨none, "c", [], .named "Int", []⟩]⟩]⟩
  have hleft : ((.sdl "extend type A { a: Int } \"d\" type A { b: Int }" :
      Source Unit Unit).toDocument .merge .target).value = .ok left := by decide +kernel
  have hright : ((.sdl "type A { c: Int }" : Source Unit Unit).toDocument .merge .source).value =
      .ok right := by decide +kernel
  refine ⟨left, _, hleft, value_merge Policy.rightWins hleft hright, by decide, by decide, ?_⟩
  decide +kernel

/-! ## Directives -/

/-- What a source node's directives leave on a merged type: the last application of each directive, and so
each application of a directive that is applied once. -/
structure KeepsLastApplications (applied merged : List Directive) : Prop where
  last : ∀ directive, findSibling applied.reverse directive.name = some directive → directive ∈ merged
  alone : ∀ directive, (namesOf applied).count directive.name = 1 →
    applied.count directive ≤ merged.count directive

/-- A node without another one of its name is the last one of it. -/
theorem findSibling_reverse_of_count_eq_one {α : Type} [Named α] {nodes : List α} {node : α}
    (h : (namesOf nodes).count (Named.name node) = 1) (hmem : node ∈ nodes) :
    findSibling nodes.reverse (Named.name node) = some node := by
  obtain ⟨front, back, rfl⟩ := List.append_of_mem hmem
  have hfresh : Named.name node ∉ namesOf back.reverse := by
    intro hlater
    have hagain : 0 < (namesOf back).count (Named.name node) :=
      List.count_pos_iff.mpr (by simpa [namesOf] using hlater)
    rw [namesOf_append, namesOf_cons, List.count_append, List.count_cons_self] at h
    omega
  rw [List.reverse_append, List.reverse_cons, List.append_assoc, List.singleton_append]
  exact findSibling_of_split front.reverse hfresh

/-- The source's directives in a merged collection. -/
theorem keepsLastApplications_lastWins (left applied : List Directive) :
    KeepsLastApplications applied (lastWins left applied) := by
  have hlast : ∀ directive, findSibling applied.reverse directive.name = some directive →
      directive ∈ lastWins left applied := by
    intro directive hfound
    have hmerged : findSibling (lastWins left applied) directive.name = some directive := by
      rw [findSibling_lastWins, hfound, Option.some_or]
    exact List.mem_of_find?_eq_some hmerged
  refine ⟨hlast, fun directive hone => ?_⟩
  by_cases hmem : directive ∈ applied
  · -- The directive is there once in the source and at least once after the merge.
    calc applied.count directive
        ≤ (namesOf applied).count directive.name := List.count_le_count_map ..
      _ = 1 := hone
      _ ≤ (lastWins left applied).count directive :=
        List.one_le_count_iff.mpr (hlast directive (findSibling_reverse_of_count_eq_one hone hmem))
  · rw [List.count_eq_zero_of_not_mem hmem]
    exact Nat.zero_le _

/-- The last application of each directive on a source's only node of a type is there after a merge. -/
theorem merge_keepsLastApplications {target source : Source R S} {left right : Document}
    (hleft : (target.toDocument .merge .target).value = .ok left)
    (hright : (source.toDocument .merge .source).value = .ok right) :
    ∃ merged : Bundle R S, (merge Policy.rightWins target source).value = .ok merged ∧
      ∀ name node, nodesOf name right.definitions = [node] → nodesOf name left.definitions ≠ [] →
        ∃ definition others,
          carrying ⟨.type, name⟩ merged.document.definitions = .type definition :: others ∧
            KeepsLastApplications node.directives definition.directives := by
  obtain ⟨merged, hmerged, hdefinitions⟩ := merge_eq_foldl_into hleft hright
  refine ⟨merged, hmerged, fun name node hone hcarries => ?_⟩
  let own := carrying ⟨.type, name⟩ left.definitions
  let rights := carrying ⟨.type, name⟩ right.definitions
  have hnodes : typeNodes rights = [node] := hone
  have hown : own ≠ [] := fun hnone => hcarries (congrArg typeNodes hnone)
  have hrights : rights ≠ [] := by
    intro hnone
    rw [hnone] at hnodes
    cases hnodes
  have hkeys : ∀ definition ∈ own ++ rights, definition.key = ⟨.type, name⟩ := by
    intro definition hmem
    rw [← carrying_append] at hmem
    exact (mem_carrying.mp hmem).2
  -- The type may have nodes of other kinds behind the merged one.
  obtain ⟨head, others, hleads, hkey, hrun, -⟩ := exists_leads_foldl_into hown hrights hkeys
  obtain ⟨leading, rfl⟩ := Definition.exists_type hleads.written hkey
  rw [Definition.overrideAll_type, hnodes] at hrun
  refine ⟨leading.override node, others, ?_, keepsLastApplications_lastWins _ _⟩
  rw [hdefinitions, Operation.carrying_foldl_into]
  exact hrun

/-- A source node with one directive between two applications of another one, for a type that has the latter
and a further one. -/
theorem merge_extension_keepsLastApplications :
    ∃ (merged : Bundle Unit Unit) (definition : TypeDefinition) (others : List Definition),
      (merge Policy.rightWins (.sdl "type A @key(fields: \"a\") @x { a: Int }")
        (.sdl "extend type A @key(fields: \"b\") @y @key(fields: \"c\")")).value = .ok merged ∧
      carrying ⟨.type, "A"⟩ merged.document.definitions = .type definition :: others ∧
      KeepsLastApplications [⟨"key", [("fields", .string "b")]⟩, ⟨"y", []⟩,
        ⟨"key", [("fields", .string "c")]⟩] definition.directives := by
  let left : Document := ⟨[.type ⟨none, "A", [⟨"key", [("fields", .string "a")]⟩, ⟨"x", []⟩],
    .object [] [⟨none, "a", [], .named "Int", []⟩]⟩]⟩
  let right : Document := ⟨[.extension ⟨"A", [⟨"key", [("fields", .string "b")]⟩, ⟨"y", []⟩,
    ⟨"key", [("fields", .string "c")]⟩], .object [] []⟩]⟩
  have hleft : ((.sdl "type A @key(fields: \"a\") @x { a: Int }" :
      Source Unit Unit).toDocument .merge .target).value = .ok left := by decide +kernel
  have hright : ((.sdl "extend type A @key(fields: \"b\") @y @key(fields: \"c\")" :
      Source Unit Unit).toDocument .merge .source).value = .ok right := by decide +kernel
  obtain ⟨merged, hmerged, hkept⟩ := merge_keepsLastApplications hleft hright
  obtain ⟨definition, others, hcarried, happlied⟩ := hkept "A" _ rfl (List.cons_ne_nil _ _)
  exact ⟨merged, definition, others, hmerged, hcarried, happlied⟩

/-- Of two applications of one directive in the source, the first one is gone after a merge. -/
theorem merge_repeatedDirective_losesApplication :
    ∃ (left right : Document) (merged : Bundle Unit Unit),
      ((.sdl "type A @key(fields: \"a\") { a: Int }" :
        Source Unit Unit).toDocument .merge .target).value = .ok left ∧
      ((.sdl "type A @key(fields: \"b\") @key(fields: \"c\")" :
        Source Unit Unit).toDocument .merge .source).value = .ok right ∧
      (merge Policy.rightWins (.sdl "type A @key(fields: \"a\") { a: Int }")
        (.sdl "type A @key(fields: \"b\") @key(fields: \"c\")")).value = .ok merged ∧
      nodesOf "A" left.definitions ≠ [] ∧
      (nodesOf "A" right.definitions).map (·.directives) =
        [[⟨"key", [("fields", .string "b")]⟩, ⟨"key", [("fields", .string "c")]⟩]] ∧
      (nodesOf "A" merged.document.definitions).map (·.directives) =
        [[⟨"key", [("fields", .string "c")]⟩]] := by
  let left : Document := ⟨[.type ⟨none, "A", [⟨"key", [("fields", .string "a")]⟩],
    .object [] [⟨none, "a", [], .named "Int", []⟩]⟩]⟩
  let right : Document := ⟨[.type ⟨none, "A", [⟨"key", [("fields", .string "b")]⟩,
    ⟨"key", [("fields", .string "c")]⟩], .object [] []⟩]⟩
  have hleft : ((.sdl "type A @key(fields: \"a\") { a: Int }" :
      Source Unit Unit).toDocument .merge .target).value = .ok left := by decide +kernel
  have hright : ((.sdl "type A @key(fields: \"b\") @key(fields: \"c\")" :
      Source Unit Unit).toDocument .merge .source).value = .ok right := by decide +kernel
  refine ⟨left, right, _, hleft, hright, value_merge Policy.rightWins hleft hright, ?_, rfl, ?_⟩
  · exact List.cons_ne_nil _ _
  · decide +kernel

end SchemaAlgebra
