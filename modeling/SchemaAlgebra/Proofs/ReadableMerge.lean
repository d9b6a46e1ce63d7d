import SchemaAlgebra.Proofs.Legibility
import SchemaAlgebra.Proofs.MergedDocument

/-!
# Merged schemas can be read

Each step of `mergeAll` prints the schema that the steps before it gave and reads it again, so a
definition that no text stands for would make the next step fail.  There is none if the source wins:
every node of the merged document has its name, its description and its members from nodes of the
documents that are merged, in places of the same sort, and so it is legible if these are.

The grammar asks more of an extension than of a definition, namely that it adds something.  The
merge turns extensions into definitions and never the other way round.

## Main statements

* `TypeDefinition.Legible.absorb`, `TypeDefinition.Legible.override`,
  `SchemaDefinition.Legible.override`: nodes that are put together.
* `carriesOver_legible`: so merging keeps all definitions legible.
* `mergeAll_readsBack`: a list of texts is merged, and the merged text is read back as it was.
-/

namespace SchemaAlgebra

variable {R S : Type}

/-! ## Nodes that are put together -/

/-- A body that draws from legible ones is legible, whatever kinds they have. -/
theorem TypeBody.DrawsFrom.legible {body left right : TypeBody} (h : body.DrawsFrom left right)
    (hleft : left.Legible) (hright : right.Legible) : body.Legible where
  interfaces name hname :=
    List.forall_mem_append.mpr ⟨hleft.interfaces, hright.interfaces⟩ name (h.interfaces hname)
  outputFields field hfield :=
    List.forall_mem_append.mpr ⟨hleft.outputFields, hright.outputFields⟩ field
      (h.outputFields hfield)
  unionMembers name hname :=
    List.forall_mem_append.mpr ⟨hleft.unionMembers, hright.unionMembers⟩ name
      (h.unionMembers hname)
  enumValues value hvalue :=
    List.forall_mem_append.mpr ⟨hleft.enumValues, hright.enumValues⟩ value (h.enumValues hvalue)
  inputFields field hfield :=
    List.forall_mem_append.mpr ⟨hleft.inputFields, hright.inputFields⟩ field (h.inputFields hfield)

namespace TypeDefinition

/-- Nodes of a type are gathered in the first one. -/
theorem Legible.absorb {into piece : TypeDefinition} (hinto : into.Legible) (hpiece : piece.Legible) :
    (into.absorb piece).Legible where
  description := hinto.description
  node := {
    name := hinto.node.name
    directives := fun directive hmem =>
      List.forall_mem_append.mpr ⟨hinto.node.directives, hpiece.node.directives⟩ directive
        (firstWins_subset _ _ hmem)
    body := (into.drawsFrom_absorb piece).legible hinto.node.body hpiece.node.body }

/-- A node of the source is merged into a node of the target. -/
theorem Legible.override {left right : TypeDefinition} (hleft : left.Legible)
    (hright : right.Legible) : (left.override right).Legible where
  description := hleft.description
  node := {
    name := hleft.node.name
    directives := fun directive hmem =>
      List.forall_mem_append.mpr ⟨hleft.node.directives, hright.node.directives⟩ directive
        (lastWins_subset _ _ hmem)
    body := (left.drawsFrom_override right).legible hleft.node.body hright.node.body }

end TypeDefinition

/-- Operations of both sides are put together. -/
theorem SchemaDefinition.Legible.override {left right : SchemaDefinition} (hleft : left.Legible)
    (hright : right.Legible) : (left.override right).Legible := by
  -- The type of each operation is that of one of the two sides.
  have heither : ∀ {l r : Option String}, (∀ type ∈ l, isName type) → (∀ type ∈ r, isName type) →
      ∀ type ∈ r.or l, isName type := by
    intro l r hl hr type hmem
    rcases Option.or_eq_some_iff.mp hmem with hright | ⟨-, hleft⟩
    · exact hr type hright
    · exact hl type hleft
  obtain ⟨hlquery, hlmutation, hlsubscription⟩ := forall_operations_iff.mp hleft.operations
  obtain ⟨hrquery, hrmutation, hrsubscription⟩ := forall_operations_iff.mp hright.operations
  exact {
    directives := fun directive hmem =>
      List.forall_mem_append.mpr ⟨hleft.directives, hright.directives⟩ directive
        (lastWins_subset _ _ hmem)
    operations := forall_operations_iff.mpr ⟨heither hlquery hrquery,
      heither hlmutation hrmutation, heither hlsubscription hrsubscription⟩ }

/-! ## Documents -/

/-- Legible definitions stay legible when they are put together. -/
theorem carriesOver_legible : CarriesOver Definition.Legible TypeDefinition.override where
  node hnode hlegible := Definition.legible_type_iff.mpr (hlegible.typeDefinition? hnode)
  absorb hinto hpiece := Definition.legible_type_iff.mpr
    ((Definition.legible_type_iff.mp hinto).absorb (Definition.legible_type_iff.mp hpiece))
  join hleft hright := Definition.legible_type_iff.mpr
    ((Definition.legible_type_iff.mp hleft).override (Definition.legible_type_iff.mp hright))
  schema hleft hright := Definition.legible_schema_iff.mpr
    ((Definition.legible_schema_iff.mp hleft).override (Definition.legible_schema_iff.mp hright))

/-- Merging legible documents gives a legible one. -/
theorem legible_mergeBundles {target source : Bundle R S}
    (htarget : ∀ definition ∈ target.document.definitions, definition.Legible)
    (hsource : ∀ definition ∈ source.document.definitions, definition.Legible) :
    ∀ definition ∈ (mergeBundles Policy.rightWins target source).value.document.definitions,
      definition.Legible := by
  rw [definitions_mergeBundles_rightWins]
  exact carriesOver_legible.foldl_mergeInto htarget hsource

/-! ## Lists of schemas -/

/-- A source whose text stands for a legible document. -/
def Source.Legible (source : Source R S) : Prop :=
  ∃ document, (source.toDocument .merge .source).value = .ok document ∧
    ∀ definition ∈ document.definitions, definition.Legible

/-- A merge that gave a legible document so far. -/
def MergesLegibly (merged : Except SourceError (Bundle R S)) : Prop :=
  ∃ bundle, merged = .ok bundle ∧ ∀ definition ∈ bundle.document.definitions, definition.Legible

/-- The next source is merged, because what was merged before it can be read again. -/
theorem mergesLegibly_mergeNext {merged : Except SourceError (Bundle R S)} (h : MergesLegibly merged)
    {source : Source R S} (hsource : source.Legible) :
    MergesLegibly (mergeNext Policy.rightWins merged source).value := by
  obtain ⟨bundle, rfl, hbundle⟩ := h
  obtain ⟨document, hread, hdocument⟩ := hsource
  -- The text of the bundle is read back as its document, so this step starts where the last one ended.
  have htarget : ((Source.bundle bundle).toDocument .merge .target).value = .ok bundle.document := by
    simp [Source.toDocument, Source.toText, Bundle.print, Document.parse_print_iff.mpr hbundle]
  exact ⟨_, value_merge Policy.rightWins htarget hread, legible_mergeBundles hbundle hdocument⟩

/-- A whole list of sources is merged. -/
theorem mergesLegibly_mergeAll {sources : List (Source R S)} (h : ∀ source ∈ sources, source.Legible) :
    MergesLegibly (mergeAll Policy.rightWins sources).value := by
  have hempty : MergesLegibly (.ok (∅ : Bundle R S)) :=
    ⟨∅, rfl, List.forall_mem_nil _⟩
  unfold mergeAll
  rw [Traced.value_foldlM]
  exact List.foldlRecOn _ _ hempty fun merged hmerged source hmem =>
    mergesLegibly_mergeNext hmerged (h source hmem)

/-- Texts of documents that are read back as they are can be merged in any number and order: no step
fails, and the text of the merged schema is read back as it is. -/
theorem mergeAll_readsBack (texts : List String)
    (h : ∀ text ∈ texts, ∃ document, Document.parse text = .ok document ∧
      Document.parse document.print = .ok document) :
    ∃ merged : Bundle R S,
      (mergeAll Policy.rightWins (texts.map Source.sdl)).value = .ok merged ∧
        Document.parse merged.print = .ok merged.document := by
  have hsources : ∀ source ∈ texts.map (Source.sdl : String → Source R S), source.Legible := by
    intro source hmem
    obtain ⟨text, htext, rfl⟩ := List.mem_map.mp hmem
    obtain ⟨document, hread, hback⟩ := h text htext
    refine ⟨document, ?_, Document.parse_print_iff.mp hback⟩
    simp [Source.toDocument, Source.toText, hread]
  obtain ⟨merged, hmerged, hlegible⟩ := mergesLegibly_mergeAll hsources
  exact ⟨merged, hmerged, Document.parse_print_iff.mpr hlegible⟩

/-- Two extensions, one of which adds an interface only, are merged into definitions. -/
theorem mergeAll_extensions_readsBack :
    ∃ merged : Bundle Unit Unit,
      (mergeAll Policy.rightWins (["extend type A implements I", "type A { a(x: Int = 1): [Int!] }",
        "extend type A @b(c: \"d\") { e: E }"].map Source.sdl)).value = .ok merged ∧
        Document.parse merged.print = .ok merged.document := by
  refine mergeAll_readsBack _ fun text hmem => ?_
  simp only [List.mem_cons, List.not_mem_nil, or_false] at hmem
  rcases hmem with rfl | rfl | rfl
  · exact ⟨⟨[.extension ⟨"A", [], .object ["I"] []⟩]⟩, by decide +kernel⟩
  · exact ⟨⟨[.type ⟨none, "A", [], .object [] [⟨none, "a",
      [⟨none, "x", .named "Int", some (.int 1), []⟩], .list (.nonNull (.named "Int")), []⟩]⟩]⟩,
      by decide +kernel⟩
  · exact ⟨⟨[.extension ⟨"A", [⟨"b", [("c", .string "d")]⟩],
      .object [] [⟨none, "e", [], .named "E", []⟩]⟩]⟩, by decide +kernel⟩

end SchemaAlgebra
