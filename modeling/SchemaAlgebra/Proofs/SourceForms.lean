import SchemaAlgebra.Proofs.KeyedSteps
import SchemaAlgebra.Proofs.SettledNodes

/-!
# Forms of a source

A schema text can be handed over as it is, as the document that it stands for, as a bundle around this
document, or as a built schema that prints the text or the bundle.  Documents and bundles are printed
and read again, and so the form makes a difference exactly if something of the document gets lost on
the way: a string that holds a character the printer escapes wrongly, a floating-point number that is
written like an integer, a directive definition without locations.

An operation looks at the documents of its two sides and at what comes with them.  What comes with
them has no bearing on the document that it gives.

## Main statements

* `Operation.resultDocument_congr`: an operation's document depends on the documents that it reads.
* `sourceForms_agree_iff`: the forms of a text agree, and merges and pares with them, exactly if nothing
  of its document gets lost.
-/

namespace SchemaAlgebra

variable {R S : Type}

/-! ## Documents of operations -/

namespace Operation

/-- The document that an operation gives, or why it gives none. -/
def resultDocument (policy : Policy S) (target source : Source R S) :
    Operation → Except SourceError Document
  | .merge => (SchemaAlgebra.merge policy target source).value.map Bundle.document
  | .pare => (SchemaAlgebra.pare target source).value.map Bundle.document

end Operation

/-- What a policy is told about scalar configs has no bearing on a merged type. -/
theorem fst_mergeType (policy : Policy S) (sides others : ScalarSides S) (left right : TypeDefinition) :
    (mergeType policy sides left right).value.1 = (mergeType policy others left right).value.1 := by
  simp only [mergeType, Traced.value_bind]
  -- The reported difference of kinds and the answer about scalars leave the type as it is.
  split
  · simp only [Traced.value_bind]
    split <;> rfl
  · split <;> rfl

/-- Resolvers and scalar configs have no bearing on a merged document. -/
theorem document_mergeBundles_congr (policy : Policy S) {target target' source source' : Bundle R S}
    (htarget : target.document = target'.document) (hsource : source.document = source'.document) :
    (mergeBundles policy target source).value.document =
      (mergeBundles policy target' source').value.document := by
  obtain ⟨sides, hfirst⟩ := definitions_mergeBundles policy target source
  obtain ⟨others, hsecond⟩ := definitions_mergeBundles policy target' source'
  have hjoin : (fun left right => (mergeType policy sides left right).value.1) =
      fun left right => (mergeType policy others left right).value.1 :=
    funext fun left => funext fun right => fst_mergeType policy sides others left right
  rw [htarget, hsource, hjoin, ← hsecond] at hfirst
  exact congrArg Document.mk hfirst

/-- Resolvers and scalar configs have no bearing on a pared document. -/
theorem document_pareBundles_congr {target target' source source' : Bundle R S}
    (htarget : target.document = target'.document) (hsource : source.document = source'.document) :
    (pareBundles target source).value.document = (pareBundles target' source').value.document := by
  rw [value_pareBundles, value_pareBundles]
  refine congrArg Document.mk ?_
  rw [paredSummary, paredSummary, PareSummary.definitions_foldl, PareSummary.definitions_foldl, htarget,
    hsource]

namespace Operation

/-- An operation gives the same document, or fails in the same way, where it reads the same two
documents. -/
theorem resultDocument_congr (policy : Policy S) (operation : Operation)
    {target target' source source' : Source R S}
    (htarget : (target.toDocument operation .target).value =
      (target'.toDocument operation .target).value)
    (hsource : (source.toDocument operation .source).value =
      (source'.toDocument operation .source).value) :
    operation.resultDocument policy target source =
      operation.resultDocument policy target' source' := by
  cases operation with
  | merge =>
    cases hleft : (target'.toDocument .merge .target).value with
    | error cause => simp [resultDocument, SchemaAlgebra.merge, Source.toBundle, htarget, hleft]
    | ok left =>
      cases hright : (source'.toDocument .merge .source).value with
      | error cause =>
        simp [resultDocument, SchemaAlgebra.merge, Source.toBundle, htarget, hleft, hsource, hright]
      | ok right =>
        simp only [resultDocument]
        rw [value_merge policy (htarget.trans hleft) (hsource.trans hright),
          value_merge policy hleft hright]
        exact congrArg Except.ok (document_mergeBundles_congr policy rfl rfl)
  | pare =>
    cases hleft : (target'.toDocument .pare .target).value with
    | error cause => simp [resultDocument, SchemaAlgebra.pare, Source.toBundle, htarget, hleft]
    | ok left =>
      cases hright : (source'.toDocument .pare .source).value with
      | error cause =>
        simp [resultDocument, SchemaAlgebra.pare, Source.toBundle, htarget, hleft, hsource, hright]
      | ok right =>
        simp only [resultDocument]
        rw [value_pare (htarget.trans hleft) (hsource.trans hright), value_pare hleft hright]
        exact congrArg Except.ok (document_pareBundles_congr rfl rfl)

/-- Merging a blank text into a target gives the document that the target stands for. -/
theorem resultDocument_merge_blank (policy : Policy S) (target : Source R S) :
    Operation.merge.resultDocument policy target (.sdl "") =
      (target.toDocument .merge .target).value := by
  cases hleft : (target.toDocument .merge .target).value with
  | error cause => simp [resultDocument, SchemaAlgebra.merge, Source.toBundle, hleft, Except.map]
  | ok left =>
    have hright : ((Source.sdl "" : Source R S).toDocument .merge .source).value = .ok ∅ := rfl
    rw [resultDocument, value_merge policy hleft hright]
    obtain ⟨sides, hdefinitions⟩ := definitions_mergeBundles policy
      ⟨left, target.resolvers, target.scalars⟩ (⟨∅, ∅, ∅⟩ : Bundle R S)
    exact congrArg Except.ok (congrArg Document.mk hdefinitions)

end Operation

/-! ## Forms of a text -/

namespace Source

/-- The forms that a schema text can be handed over in. -/
inductive IsFormOf (text : String) (document : Document) : Source R S → Prop
  | sdl : IsFormOf text document (.sdl text)
  | document : IsFormOf text document (.document document)
  | bundle (resolvers : ResolverMap R) (scalars : OrderedMap String S) :
    IsFormOf text document (.bundle ⟨document, resolvers, scalars⟩)
  | built (label : String) : IsFormOf text document (.built ⟨label, some text⟩)
  | builtBundle (resolvers : ResolverMap R) (scalars : OrderedMap String S) (label : String) :
    IsFormOf text document (.built (Bundle.toPrintable ⟨document, resolvers, scalars⟩ label))

variable {text : String} {document : Document}

/-- Every form of a text stands for the same document if that is read back from its own text. -/
theorem IsFormOf.value_toDocument {source : Source R S} (hform : source.IsFormOf text document)
    (h : Document.parse text = .ok document) (hback : Document.parse document.print = .ok document)
    (operation : Operation) (side : Side) :
    (source.toDocument operation side).value = .ok document := by
  cases hform <;> simp [toDocument, toText, Bundle.toPrintable, Bundle.print, h, hback]

end Source

/-- The forms of a text stand for the same document exactly if nothing of this document gets lost when
it is printed and read again, and then and only then the form does not matter to merges and pares. -/
theorem sourceForms_agree_iff {text : String} {document : Document}
    (h : Document.parse text = .ok document) :
    (document.Faithful ↔ ∀ source : Source R S, source.IsFormOf text document →
      ∀ operation side, (source.toDocument operation side).value = .ok document) ∧
    (document.Faithful ↔ ∀ source : Source R S, source.IsFormOf text document →
      ∀ (operation : Operation) (policy : Policy S) (other : Source R S),
        operation.resultDocument policy source other =
            operation.resultDocument policy (.sdl text) other ∧
          operation.resultDocument policy other source =
            operation.resultDocument policy other (.sdl text)) := by
  rw [← Document.parse_print_iff_faithful h]
  have htext : ∀ operation side, ((Source.sdl text : Source R S).toDocument operation side).value =
      .ok document := fun operation side => by simp [Source.toDocument, Source.toText, h]
  -- A document that is handed over as such is read from its printed form.
  have hdocument : ((Source.document document : Source R S).toDocument .merge .target).value =
      .ok document → Document.parse document.print = .ok document := by
    intro hread
    simp only [Source.toDocument, Source.toText, Traced.value_bind, Traced.value_pure] at hread
    cases hparse : Document.parse document.print with
    | error cause => simp [hparse] at hread
    | ok found => simpa [hparse] using hread
  constructor
  · exact ⟨fun hback source hform => hform.value_toDocument h hback,
      fun hforms => hdocument (hforms _ .document .merge .target)⟩
  · constructor
    · intro hback source hform operation policy other
      have hsame := fun side => (hform.value_toDocument h hback operation side).trans
        (htext operation side).symm
      exact ⟨operation.resultDocument_congr policy (hsame .target) rfl,
        operation.resultDocument_congr policy rfl (hsame .source)⟩
    · intro hforms
      -- Merging nothing into the two forms shows the documents that they stand for.
      have hmerged := (hforms _ .document .merge Policy.rightWins (.sdl "")).1
      rw [Operation.resultDocument_merge_blank, Operation.resultDocument_merge_blank, htext] at hmerged
      exact hdocument hmerged

/-- Nothing gets lost of a block string, a number with a fraction, a default value and an extension. -/
theorem sourceForms_agree_describedScalar :
    let text := "\"\"\"\n  A date.\n    In UTC.\n\"\"\"\nscalar Date @span(days: [1.5, \"a\\nb\"])\n" ++
      "extend type T { at(day: In = { n: -1 }): [Date!] }"
    let document : Document := ⟨[
      .type ⟨some "A date.\n  In UTC.", "Date",
        [⟨"span", [("days", .list [.float (.ofDecimal false ⟨15, -1⟩), .string "a\nb"])]⟩], .scalar⟩,
      .extension ⟨"T", [], .object [] [⟨none, "at",
        [⟨none, "day", .named "In", some (.object [("n", .int (-1))]), []⟩],
        .list (.nonNull (.named "Date")), []⟩]⟩]⟩
    Document.parse text = .ok document ∧ document.Faithful ∧
      ∀ source : Source Unit Unit, source.IsFormOf text document →
        (∀ operation side, (source.toDocument operation side).value = .ok document) ∧
          ∀ (operation : Operation) (policy : Policy Unit) (other : Source Unit Unit),
            operation.resultDocument policy source other =
                operation.resultDocument policy (.sdl text) other ∧
              operation.resultDocument policy other source =
                operation.resultDocument policy other (.sdl text) := by
  intro text document
  have hread : Document.parse text = .ok document := by decide +kernel
  have hfaithful : document.Faithful := by decide +kernel
  have hagree := sourceForms_agree_iff (R := Unit) (S := Unit) hread
  exact ⟨hread, hfaithful, fun source hform =>
    ⟨hagree.1.mp hfaithful source hform, hagree.2.mp hfaithful source hform⟩⟩

/-- A character beyond the sixteen bits of an escape is printed as an escape of five digits or more, and
read back as another character with digits behind it. -/
theorem sourceForms_disagree_longEscape :
    let document : Document := ⟨[.type ⟨some "😀", "A", [], .scalar⟩]⟩
    let changed : Document := ⟨[.type ⟨some "\u128512", "A", [], .scalar⟩]⟩
    Document.parse "\"😀\" scalar A" = .ok document ∧ changed ≠ document ∧
      ∀ operation side,
        ((Source.sdl "\"😀\" scalar A" : Source Unit Unit).toDocument operation side).value =
            .ok document ∧
          ((Source.document document : Source Unit Unit).toDocument operation side).value =
            .ok changed := by
  intro document changed
  refine ⟨by decide +kernel, by decide +kernel, fun operation side => ?_⟩
  cases operation <;> cases side <;> decide +kernel

end SchemaAlgebra
