import Mathlib.Data.List.Forall2
import SchemaAlgebra.Proofs.Overlays

/-!
# The bracketing of a list of schemas

A list of schemas is merged from the front, one after the other.  It may as well be cut anywhere, each
half merged on its own, and the two results merged with each other.  This holds if the documents are
plain, repeat no names and agree on the kinds of their types: then every merge lays one document over
another one, and laying over is associative.

The document is the same to the letter, in the order of its definitions and of everything inside them.

## Main statements

* `Regular.overlay_assoc`: three documents of this sort may be laid over each other from either side.
* `foldlM_mergeNext_eq_overlay`: what a list of schemas makes of a start.
* `mergeAll_append_eq_merge`: a list that is cut in two.
-/

namespace SchemaAlgebra

variable {R S : Type} {kinds : String → TypeKind}

/-! ## Regular documents -/

/-- A definition, not an extension, that repeats no name; if it is a type, it has the kind of its name. -/
structure Definition.Regular (kinds : String → TypeKind) (definition : Definition) : Prop where
  written : definition.isExtension = false
  namesDistinct : definition.NamesDistinct
  kind : ∀ node, definition.typeDefinition? = some node → node.kind = kinds node.name

namespace Definition

theorem Regular.override {left right : Definition} (h : left.Regular kinds) :
    (left.override right).Regular kinds where
  written := isExtension_override h.written
  namesDistinct := namesDistinct_override h.namesDistinct
  kind := by
    intro node hnode
    cases left <;> cases right <;> try exact h.kind node hnode
    case type.type left right =>
      obtain rfl := Option.some.inj hnode
      rw [TypeDefinition.kind_override]
      exact h.kind left rfl

/-- Three definitions of one key may be merged from either side. -/
theorem override_assoc {left middle right : Definition} (hleft : left.Regular kinds)
    (hmiddle : middle.Regular kinds) (hright : right.Regular kinds) (hkey : left.key = middle.key)
    (hother : middle.key = right.key) :
    (left.override middle).override right = left.override (middle.override right) := by
  cases left with
  | type left =>
    obtain ⟨middle, rfl⟩ := exists_type hmiddle.written hkey.symm
    obtain ⟨right, rfl⟩ := exists_type hright.written (hkey.trans hother).symm
    have hkindOf : ∀ {one other : TypeDefinition}, (type one).Regular kinds → (type other).Regular kinds →
        (type one).key = (type other).key → one.kind = other.kind := by
      intro one other hone hother hsame
      rw [hone.kind one rfl, hother.kind other rfl, show one.name = other.name from
        congrArg DefinitionKey.name hsame]
    exact congrArg type (TypeDefinition.override_assoc (hkindOf hleft hmiddle hkey)
      (hkindOf hmiddle hright hother) hleft.namesDistinct hmiddle.namesDistinct hright.namesDistinct)
  | extension node => cases hleft.written
  | schema left =>
    obtain ⟨middle, rfl⟩ := exists_schema hkey.symm
    obtain ⟨right, rfl⟩ := exists_schema (hkey.trans hother).symm
    exact congrArg schema (SchemaDefinition.override_assoc hleft.namesDistinct hmiddle.namesDistinct
      hright.namesDistinct)
  | directive left =>
    obtain ⟨middle, rfl⟩ := exists_directive hkey.symm
    obtain ⟨right, rfl⟩ := exists_directive (hkey.trans hother).symm
    rfl

end Definition

/-- A plain document that repeats no name and gives every type the kind of its name. -/
structure Regular (kinds : String → TypeKind) (definitions : List Definition) : Prop where
  each : ∀ definition ∈ definitions, definition.Regular kinds
  once : (keysOf definitions).Nodup

theorem regular_nil : Regular kinds [] := ⟨List.forall_mem_nil _, List.nodup_nil⟩

/-- Documents that agree on the kinds of their types give each name a kind. -/
theorem OneKind.exists_kinds {definitions : List Definition} (h : OneKind definitions) :
    ∃ kinds : String → TypeKind, ∀ node ∈ typeNodes definitions, node.kind = kinds node.name := by
  -- The kind of the first node of the name; where there is none, any kind will do.
  refine ⟨fun name => ((nodesOf name definitions).head?.map (·.kind)).getD .scalar, ?_⟩
  intro node hnode
  have hmem : node ∈ nodesOf node.name definitions := by simp [nodesOf_eq_filter, hnode]
  obtain ⟨first, rest, hnodes⟩ := List.exists_cons_of_ne_nil (List.ne_nil_of_mem hmem)
  have hfirst : first ∈ nodesOf node.name definitions := hnodes ▸ List.mem_cons_self
  simpa [hnodes] using h.sameKind node.name node hmem first hfirst

namespace Regular

variable {base middle top : List Definition}

theorem plain (h : Regular kinds base) : IsPlain base :=
  ⟨fun definition hmem => (h.each definition hmem).written, h.once⟩

theorem overlay (hbase : Regular kinds base) (htop : Regular kinds top) :
    Regular kinds (overlay Definition.key Definition.override base top) where
  each := forall_mem_overlay (fun _ _ => Definition.Regular.override) hbase.each htop.each
  once := (hbase.plain.overlay htop.plain).once

theorem overlay_assoc (hbase : Regular kinds base) (hmiddle : Regular kinds middle)
    (htop : Regular kinds top) :
    SchemaAlgebra.overlay Definition.key Definition.override
        (SchemaAlgebra.overlay Definition.key Definition.override base middle) top =
      SchemaAlgebra.overlay Definition.key Definition.override base
        (SchemaAlgebra.overlay Definition.key Definition.override middle top) :=
  SchemaAlgebra.overlay_assoc Definition.keepsKey_override
    fun a ha b hb c hc => Definition.override_assoc (hbase.each a ha) (hmiddle.each b hb) (htop.each c hc)

end Regular

/-! ## Laying a list of documents over each other -/

/-- Lays documents over a start, one after the other. -/
def overlayAll (start : List Definition) (documents : List Document) : List Definition :=
  documents.foldl (fun base document => overlay Definition.key Definition.override base
    document.definitions) start

theorem Regular.overlayAll {start : List Definition} {documents : List Document}
    (hstart : Regular kinds start) (h : ∀ document ∈ documents, Regular kinds document.definitions) :
    Regular kinds (overlayAll start documents) :=
  List.foldlRecOn (motive := fun base => Regular kinds base) documents _ hstart
    fun _ hbase document hmem => hbase.overlay (h document hmem)

/-- Documents may be laid over each other before they are laid over the start. -/
theorem overlayAll_eq_overlay {start : List Definition} {documents : List Document}
    (hstart : Regular kinds start) (h : ∀ document ∈ documents, Regular kinds document.definitions) :
    overlayAll start documents =
      overlay Definition.key Definition.override start (overlayAll [] documents) := by
  -- From the end of the list, because the last document is the one that is laid over last.
  induction documents using List.reverseRecOn with
  | nil => exact (overlay_nil_right start).symm
  | append_singleton part last ih =>
    obtain ⟨hpart, hlast⟩ := List.forall_mem_append.mp h
    have hsnoc : ∀ base, overlayAll base (part ++ [last]) =
        overlay Definition.key Definition.override (overlayAll base part) last.definitions :=
      fun base => List.foldl_append
    rw [hsnoc, hsnoc, ih hpart,
      hstart.overlay_assoc (regular_nil.overlayAll hpart) (hlast last List.mem_cons_self)]

/-! ## Merging a list of schemas -/

/-- A source stands for a document, as the next one of a list. -/
def Source.Reads (source : Source R S) (document : Document) : Prop :=
  (source.toDocument .merge .source).value = .ok document

instance (source : Source R S) (document : Document) : Decidable (source.Reads document) :=
  inferInstanceAs (Decidable (_ = _))

/-- The bundles that are handed on when a list of schemas is merged: each step starts from one of them. -/
def handedOn (merged : Bundle R S) : List (Source R S) → List (Bundle R S)
  | [] => []
  | source :: rest =>
    merged ::
      match (merge Policy.rightWins (.bundle merged) source).value with
      | .error _ => []
      | .ok next => handedOn next rest

/-- Merging the schemas of a list into a start lays their documents over it. -/
theorem foldlM_mergeNext_eq_overlay {sources : List (Source R S)} {documents : List Document}
    (hreads : List.Forall₂ Source.Reads sources documents)
    (hdocuments : ∀ document ∈ documents, Regular kinds document.definitions) {start : Bundle R S}
    (hstart : Regular kinds start.document.definitions)
    (hreadable : ∀ bundle ∈ handedOn start sources, bundle.Readable) :
    ∃ merged : Bundle R S,
      (sources.foldlM (mergeNext Policy.rightWins) (.ok start)).value = .ok merged ∧
      merged.document.definitions = overlayAll start.document.definitions documents := by
  induction hreads generalizing start with
  | nil => exact ⟨start, rfl, rfl⟩
  | @cons source document rest later hread _ ih =>
    obtain ⟨hfirst, hlater⟩ := List.forall_mem_cons.mp hdocuments
    obtain ⟨hstartText, hrestText⟩ := List.forall_mem_cons.mp hreadable
    obtain ⟨next, hnext, hdefinitions⟩ :=
      definitions_merge_eq_overlay (hstartText.toDocument _ _) hread hstart.plain hfirst.plain
    rw [hnext] at hrestText
    obtain ⟨merged, hmerged, hall⟩ :=
      ih hlater (hdefinitions ▸ hstart.overlay hfirst) hrestText
    refine ⟨merged, ?_, ?_⟩
    · have hstep : (mergeNext Policy.rightWins (.ok start) source).value = .ok next := hnext
      rw [List.foldlM_cons, Traced.value_bind, hstep, hmerged]
    · rw [hall, hdefinitions]
      rfl

theorem mergeAll_eq_overlayAll {sources : List (Source R S)} {documents : List Document}
    (hreads : List.Forall₂ Source.Reads sources documents)
    (hdocuments : ∀ document ∈ documents, Regular kinds document.definitions)
    (hreadable : ∀ bundle ∈ handedOn ∅ sources, bundle.Readable) :
    ∃ merged : Bundle R S, (mergeAll Policy.rightWins sources).value = .ok merged ∧
      merged.document.definitions = overlayAll [] documents :=
  foldlM_mergeNext_eq_overlay hreads hdocuments regular_nil hreadable

/-- A list of schemas is merged into the same document whether it is merged from the front or cut in two
and put together from the two halves. -/
theorem mergeAll_append_eq_merge {front back : List (Source R S)} {first second : List Document}
    (hfront : List.Forall₂ Source.Reads front first)
    (hback : List.Forall₂ Source.Reads back second)
    (hplain : ∀ document ∈ first ++ second, IsPlain document.definitions)
    (hdistinct : ∀ document ∈ first ++ second, AllDistinct document.definitions)
    (hkind : OneKind ((first ++ second).flatMap Document.definitions))
    (hsteps : ∀ bundle ∈ handedOn ∅ (front ++ back) ++ handedOn ∅ front ++ handedOn ∅ back,
      bundle.Readable)
    (hhalves : ∀ half : Bundle R S, (mergeAll Policy.rightWins front).value = .ok half ∨
      (mergeAll Policy.rightWins back).value = .ok half → half.Readable) :
    ∃ all left right joined : Bundle R S,
      (mergeAll Policy.rightWins (front ++ back)).value = .ok all ∧
      (mergeAll Policy.rightWins front).value = .ok left ∧
      (mergeAll Policy.rightWins back).value = .ok right ∧
      (merge Policy.rightWins (.bundle left) (.bundle right)).value = .ok joined ∧
      all.document = joined.document := by
  obtain ⟨kinds, hkinds⟩ := hkind.exists_kinds
  have hregular : ∀ document ∈ first ++ second, Regular kinds document.definitions := by
    intro document hmem
    refine ⟨fun definition hdefinition => ?_, (hplain document hmem).once⟩
    refine ⟨(hplain document hmem).written definition hdefinition,
      hdistinct document hmem definition hdefinition, fun node hnode => hkinds node ?_⟩
    exact List.mem_filterMap.mpr ⟨definition, List.mem_flatMap.mpr ⟨document, hmem, hdefinition⟩, hnode⟩
  obtain ⟨hfirst, hsecond⟩ := List.forall_mem_append.mp hregular
  obtain ⟨hboth, hbackText⟩ := List.forall_mem_append.mp hsteps
  obtain ⟨hallText, hfrontText⟩ := List.forall_mem_append.mp hboth
  obtain ⟨all, hall, hallDefinitions⟩ :=
    mergeAll_eq_overlayAll (List.rel_append hfront hback) hregular hallText
  obtain ⟨left, hleft, hleftDefinitions⟩ := mergeAll_eq_overlayAll hfront hfirst hfrontText
  obtain ⟨right, hright, hrightDefinitions⟩ := mergeAll_eq_overlayAll hback hsecond hbackText
  have hleftRegular : Regular kinds left.document.definitions :=
    hleftDefinitions ▸ regular_nil.overlayAll hfirst
  have hrightRegular : Regular kinds right.document.definitions :=
    hrightDefinitions ▸ regular_nil.overlayAll hsecond
  obtain ⟨joined, hjoined, hjoinedDefinitions⟩ :=
    definitions_merge_eq_overlay ((hhalves left (.inl hleft)).toDocument _ _)
      ((hhalves right (.inr hright)).toDocument _ _) hleftRegular.plain hrightRegular.plain
  refine ⟨all, left, right, joined, hall, hleft, hright, hjoined, ?_⟩
  have hsame : all.document.definitions = joined.document.definitions :=
    calc all.document.definitions
        = overlayAll (overlayAll [] first) second :=
          hallDefinitions.trans List.foldl_append
      _ = overlay Definition.key Definition.override (overlayAll [] first) (overlayAll [] second) :=
          overlayAll_eq_overlay (regular_nil.overlayAll hfirst) hsecond
      _ = joined.document.definitions := by
          rw [hjoinedDefinitions, hleftDefinitions, hrightDefinitions]
  exact congrArg Document.mk hsame

/-- A type, a directive and a schema definition that several schemas of a list have. -/
theorem mergeAll_threeTexts_eq_merge :
    ∃ all left right joined : Bundle Unit Unit,
      (mergeAll Policy.rightWins ([.sdl "type Q @a { x: Int } schema { query: Q }",
        .sdl "directive @a on ENUM type Q { y: Int }"] ++
        [.sdl "schema { query: R } type Q { y: ID x: ID }"])).value = .ok all ∧
      (mergeAll Policy.rightWins [.sdl "type Q @a { x: Int } schema { query: Q }",
        .sdl "directive @a on ENUM type Q { y: Int }"]).value = .ok left ∧
      (mergeAll Policy.rightWins [.sdl "schema { query: R } type Q { y: ID x: ID }"]).value =
        .ok right ∧
      (merge Policy.rightWins (.bundle left) (.bundle right)).value = .ok joined ∧
      all.document = joined.document := by
  let one : Document := ⟨[
    .type ⟨none, "Q", [⟨"a", []⟩], .object [] [⟨none, "x", [], .named "Int", []⟩]⟩,
    .schema ⟨[], some "Q", none, none⟩]⟩
  let two : Document := ⟨[.directive ⟨none, "a", [], false, [.enum]⟩,
    .type ⟨none, "Q", [], .object [] [⟨none, "y", [], .named "Int", []⟩]⟩]⟩
  let three : Document := ⟨[.schema ⟨[], some "R", none, none⟩,
    .type ⟨none, "Q", [], .object [] [⟨none, "y", [], .named "ID", []⟩,
      ⟨none, "x", [], .named "ID", []⟩]⟩]⟩
  have hfront : List.Forall₂ Source.Reads
      ([.sdl "type Q @a { x: Int } schema { query: Q }",
        .sdl "directive @a on ENUM type Q { y: Int }"] : List (Source Unit Unit)) [one, two] :=
    .cons (by decide +kernel) (.cons (by decide +kernel) .nil)
  have hback : List.Forall₂ Source.Reads
      ([.sdl "schema { query: R } type Q { y: ID x: ID }"] : List (Source Unit Unit)) [three] :=
    .cons (by decide +kernel) .nil
  refine mergeAll_append_eq_merge hfront hback (by decide +kernel) (by decide +kernel)
    (by decide +kernel) (by decide +kernel) ?_
  have hfrontText : ((mergeAll Policy.rightWins
      ([.sdl "type Q @a { x: Int } schema { query: Q }",
        .sdl "directive @a on ENUM type Q { y: Int }"] : List (Source Unit Unit))).value.toOption.all
      fun half => half.Readable) = true := by decide +kernel
  have hbackText : ((mergeAll Policy.rightWins
      ([.sdl "schema { query: R } type Q { y: ID x: ID }"] : List (Source Unit Unit))).value.toOption.all
      fun half => half.Readable) = true := by decide +kernel
  rintro half (hhalf | hhalf)
  · rw [hhalf] at hfrontText
    exact of_decide_eq_true hfrontText
  · rw [hhalf] at hbackText
    exact of_decide_eq_true hbackText

end SchemaAlgebra
