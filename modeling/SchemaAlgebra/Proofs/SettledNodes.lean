import SchemaAlgebra.Proofs.KeptNodes

/-!
# Nodes that stand in a text

Three things are known of a node because it was read from a text.  Its integers and its
floating-point numbers were tokens, so they are numbers that can be read.  Its brackets stood in the
text, so they do not nest deeper than a text may.  And an extension adds something to its type.  With
them, the leaves of a node decide whether it comes back.

`Settles depth reader property` says that whatever a reader gives satisfies a property if it starts
where the brackets around it nest to some depth, and that it ends at the same depth.

## Main statements

* `Settles.valueUpTo`, `Settles.field`, `Settles.definition`, …: nodes that are read rest on their
  leaves.
* `Document.settled_of_parse`: a definition of a document that was read comes back exactly if it is
  faithful.
-/

namespace SchemaAlgebra

/-! ## Tokens of a text -/

/-- The numbers among tokens are those that texts can stand for. -/
def Token.Sound : Token → Prop
  | .int number => intFits number
  | .float number => number.IsRead
  | _ => True

theorem Token.sound_of_scan {text rest : List Char} {lexeme : Lexeme}
    (h : scan text = some (lexeme, rest)) : lexeme.token.Sound := by
  rcases of_scan h with ⟨mark, hmark⟩ | htext | ⟨name, -, hname⟩ | hnumber
  · exact hmark ▸ trivial
  · cases htoken : lexeme.token with
    | string _ => exact trivial
    | block _ => exact trivial
    | _ =>
      rw [htoken] at htext
      cases htext
  · exact hname ▸ trivial
  · rcases of_number? hnumber with ⟨number, hfits, htoken⟩ | ⟨negative, d, htoken⟩
    · exact htoken ▸ hfits
    · rw [htoken]
      exact ⟨negative, d, rfl⟩

namespace Stream

/-- The numbers in a stream are read from a text, and its brackets do not nest too deep if the first
token stands at some depth. -/
structure Open (depth : Nat) (stream : Stream) : Prop where
  sound : ∀ entry ∈ stream.tokens, entry.2.Sound
  nests : (nest depth stream.words).isSome

/-- The first token of a stream leads to the depth of the next one. -/
theorem Open.tail {depth : Nat} {stream : Stream} {place : Position} {token : Token}
    {rest : List (Position × Token)} (h : stream.Open depth)
    (htokens : stream.tokens = (place, token) :: rest) :
    token.Sound ∧ ∃ inner, depthAfter depth token = some inner ∧ (stream.drop 1).Open inner := by
  have hrest : (stream.drop 1).tokens = rest := by
    rw [tokens_drop, htokens, List.drop_one, List.tail_cons]
  have hnest := h.nests
  rw [words, htokens, List.map_cons, nest] at hnest
  obtain ⟨last, hlast⟩ := Option.isSome_iff_exists.mp hnest
  obtain ⟨inner, hinner, hbehind⟩ := Option.bind_eq_some_iff.mp hlast
  refine ⟨h.sound _ (htokens ▸ List.mem_cons_self), inner, hinner, ?_, ?_⟩
  · rw [hrest]
    exact fun entry hmem => h.sound entry (htokens ▸ List.mem_cons_of_mem _ hmem)
  · rw [words, hrest, hbehind]
    rfl

end Stream

/-- A reader gives what satisfies a property, and ends at the depth where it starts. -/
abbrev Settles {α : Type} (depth : Nat) (reader : Reader α) (property : α → Prop) : Prop :=
  Ensures (Stream.Open depth) reader property (Stream.Open depth)

namespace Settles

variable {α : Type} {depth : Nat} {reader : Reader α} {property : α → Prop}
  {opening closing : Punctuator}

/-! ## Single tokens -/

/-- A token that opens and closes nothing. -/
theorem take {accepts : Token → Option α}
    (h : ∀ token value, accepts token = some value → token.isBracket = false ∧
      (token.Sound → property value)) :
    Settles depth (Reader.take accepts) property := by
  refine Ensures.take fun stream place token rest value htokens hopen haccepted => ?_
  obtain ⟨hplain, hvalue⟩ := h token value haccepted
  obtain ⟨hsound, inner, hinner, hrest⟩ := hopen.tail htokens
  rw [depthAfter_of_isBracket_eq_false hplain] at hinner
  cases hinner
  exact ⟨hvalue hsound, hrest⟩

theorem take_plain {accepts : Token → Option α}
    (h : ∀ token value, accepts token = some value → token.isBracket = false) :
    Settles depth (Reader.take accepts) fun _ => True :=
  take fun token value haccepted => ⟨h token value haccepted, fun _ => trivial⟩

theorem token_of_mark {expected : Punctuator} {token : Token} {value : Unit}
    (h : (if Reader.isMark expected token then some () else none) = some value) :
    token = .punctuator expected := by
  obtain ⟨hmark, -⟩ := Option.ite_none_right_eq_some.mp h
  exact of_decide_eq_true hmark

theorem mark {expected : Punctuator} (h : (Token.punctuator expected).isBracket = false) :
    Settles depth (Reader.mark expected) fun _ => True :=
  take_plain fun _ _ haccepted => token_of_mark haccepted ▸ h

/-- An opening bracket does not nest too deep. -/
theorem openBracket (hpaired : Paired opening closing) :
    Ensures (Stream.Open depth) (Reader.mark opening) (fun _ => depth < Stream.maxDepth)
      (Stream.Open (depth + 1)) := by
  refine Ensures.take fun stream place token rest value htokens hopen haccepted => ?_
  obtain ⟨-, inner, hinner, hrest⟩ := hopen.tail htokens
  rw [token_of_mark haccepted, hpaired.1] at hinner
  obtain ⟨hdepth, heq⟩ := Option.ite_none_right_eq_some.mp hinner
  cases heq
  exact ⟨hdepth, hrest⟩

theorem closeBracket (hpaired : Paired opening closing) :
    Ensures (Stream.Open (depth + 1)) (Reader.mark closing) (fun _ => True) (Stream.Open depth) := by
  refine Ensures.take fun stream place token rest value htokens hopen haccepted => ?_
  obtain ⟨-, inner, hinner, hrest⟩ := hopen.tail htokens
  rw [token_of_mark haccepted, hpaired.2] at hinner
  cases hinner
  exact ⟨trivial, hrest⟩

theorem keyword (word : String) : Settles depth (Reader.keyword word) fun _ => True := by
  refine take_plain fun token value haccepted => ?_
  obtain ⟨hword, -⟩ := Option.ite_none_right_eq_some.mp haccepted
  exact of_decide_eq_true hword ▸ rfl

theorem name : Settles depth Reader.name fun _ => True := by
  refine take_plain fun token value haccepted => ?_
  cases token with
  | name _ => rfl
  | _ => cases haccepted

theorem text : Settles depth Reader.text fun _ => True := by
  refine Ensures.text fun accepts htext => take_plain fun token value haccepted => ?_
  have hsort := htext token value haccepted
  cases token with
  | string _ => rfl
  | block _ => rfl
  | _ => cases hsort

theorem kind : Settles depth (Reader.take Reader.kindOf) fun _ => True := by
  refine take_plain fun token value haccepted => ?_
  cases token with
  | name _ => rfl
  | _ => cases haccepted

theorem location : Settles depth (Reader.take Reader.locationOf) fun _ => True := by
  refine take_plain fun token value haccepted => ?_
  cases token with
  | name _ => rfl
  | _ => cases haccepted

/-- Items between brackets stand one deeper. -/
theorem enclosed? (hpaired : Paired opening closing) (h : Settles (depth + 1) reader property) :
    Settles depth (Reader.enclosed? opening closing reader)
      fun items => ∀ item ∈ items, depth < Stream.maxDepth ∧ property item := by
  have hitem : depth < Stream.maxDepth → Settles (depth + 1) reader
      fun item => depth < Stream.maxDepth ∧ property item :=
    fun hdepth => h.mono fun _ hitem => ⟨hdepth, hitem⟩
  exact .optional (List.forall_mem_nil _) (.enclosed (openBracket hpaired) hitem (closeBracket hpaired))

/-! ## Values and types -/

theorem valueUpTo (constant : Bool) (column fuel : Nat) :
    Settles depth (Reader.valueUpTo constant fuel) (Value.RestsOnLeaves constant column depth) := by
  induction fuel generalizing depth with
  | zero => exact .refuse
  | succ fuel ih =>
    have hliteral : Settles depth (Reader.take Token.literal?)
        (Value.RestsOnLeaves constant column depth) := by
      refine take fun token value haccepted => ?_
      cases token with
      | name word =>
        cases haccepted
        exact ⟨rfl, fun _ => Value.restsOn_namedValue word⟩
      | int number =>
        cases haccepted
        exact ⟨rfl, Value.restsOn_int⟩
      | float number =>
        cases haccepted
        exact ⟨rfl, Value.restsOn_float⟩
      | _ => cases haccepted
    have htext : Settles depth (do return Value.string (← Reader.text))
        (Value.RestsOnLeaves constant column depth) :=
      text.map fun text _ => Value.restsOn_string text
    refine Ensures.peek.bind fun token _ => ?_
    split
    next =>
      -- A variable, unless the value has to be constant.
      cases constant with
      | true =>
        have hrefuse : Settles depth (Reader.refuse : Reader Unit) fun _ => False := .refuse
        exact hrefuse.bind fun _ h => h.elim
      | false => exact (mark rfl).bind fun _ _ => name.map fun name _ => Value.restsOn_var name
    next =>
      have hitems : Settles (depth + 1) (Reader.many (!Reader.isMark .bracketClose ·)
          (Reader.valueUpTo constant fuel))
          fun items => ∀ item ∈ items, Value.RestsOnLeaves constant column (depth + 1) item := ih.many
      refine (openBracket paired_brackets).bind fun _ hdepth => hitems.bind fun items hitems => ?_
      exact (closeBracket paired_brackets).map fun _ _ => Value.restsOn_list hdepth hitems
    next =>
      have hfield : Settles (depth + 1) (do
          let key ← Reader.name
          Reader.mark .colon
          return (key, ← Reader.valueUpTo constant fuel))
          fun field => Value.RestsOnLeaves constant column (depth + 1) field.2 :=
        name.bind fun key _ => (mark rfl).bind fun _ _ => ih.map fun value hvalue => hvalue
      refine (openBracket paired_braces).bind fun _ hdepth => hfield.many.bind fun fields hfields => ?_
      exact (closeBracket paired_braces).map fun _ _ => Value.restsOn_ofFields hdepth hfields
    next => exact htext
    next => exact htext
    next => exact hliteral

theorem value (constant : Bool) (column : Nat) :
    Settles depth (Reader.value constant) (Value.RestsOnLeaves constant column depth) :=
  Ensures.remaining.bind fun fuel _ => valueUpTo constant column fuel

theorem typeRefUpTo (fuel : Nat) :
    Settles depth (Reader.typeRefUpTo fuel) fun reference => Fits depth reference.words := by
  induction fuel generalizing depth with
  | zero => exact .refuse
  | succ fuel ih =>
    have hbare : Settles depth (TypeRef.bare fuel) fun reference => Fits depth reference.words := by
      refine (Ensures.next _).bind fun _ _ => .ite ?_ ?_
      · refine (openBracket paired_brackets).bind fun _ hdepth => ih.bind fun element helement => ?_
        refine (closeBracket paired_brackets).map fun _ _ => ?_
        exact (Balanced.fits_enclose_iff paired_brackets hdepth element.balanced).mpr helement
      · exact name.map fun name _ => (fits_cons rfl).mpr (fits_nil depth)
    rw [TypeRef.typeRefUpTo_succ]
    refine hbare.bind fun reference hreference => .optional hreference ?_
    refine (mark rfl).map fun _ _ => reference.balanced.fits_append_iff.mpr ⟨hreference, ?_⟩
    exact (fits_cons rfl).mpr (fits_nil depth)

theorem typeRef : Settles depth Reader.typeRef fun reference => Fits depth reference.words :=
  Ensures.remaining.bind fun fuel _ => typeRefUpTo fuel

/-! ## Nodes -/

theorem description : Settles depth Reader.description fun _ => True := by
  have hsome : (some <$> Reader.text : Reader (Option String)) =
      (do return some (← Reader.text)) := map_eq_pure_bind _ _
  rw [Reader.description, hsome]
  exact .optional trivial (text.map fun _ _ => trivial)

theorem directive (column : Nat) : Settles depth Reader.directive
    ((Directive.form column).RestsOn Directive.leaves depth) := by
  have hargument : Settles (depth + 1) Reader.argument
      fun argument => Value.RestsOnLeaves false column (depth + 1) argument.2 :=
    name.bind fun _ _ => (mark rfl).bind fun _ _ => (value false column).map fun _ hvalue => hvalue
  exact (mark rfl).bind fun _ _ => name.bind fun _ _ =>
    (enclosed? paired_parens hargument).map fun _ harguments => Directive.restsOn harguments

theorem directives (column : Nat) : Settles depth Reader.directives
    fun directives => ∀ directive ∈ directives,
      (Directive.form column).RestsOn Directive.leaves depth directive :=
  (directive column).many

theorem inputValue (column : Nat) : Settles depth Reader.inputValue
    ((InputValue.form column).RestsOn InputValue.leaves depth) := by
  have hdefault : Settles depth (Reader.optional (Reader.isMark .equals) none do
      Reader.mark .equals
      return some (← Reader.value true))
      fun given => ∀ value ∈ given, Value.RestsOnLeaves true column depth value := by
    refine .optional (fun _ h => nomatch h) ((mark rfl).bind fun _ _ => (value true column).map ?_)
    rintro given hgiven _ ⟨⟩
    exact hgiven
  refine description.bind fun description _ => name.bind fun name _ => ?_
  refine (mark rfl).bind fun _ _ => typeRef.bind fun type htype => ?_
  exact hdefault.bind fun defaultValue hvalue => (directives column).map fun directives hdirectives =>
    InputValue.restsOn htype hvalue hdirectives

theorem field (column : Nat) : Settles depth Reader.field
    ((Field.form column).RestsOn Field.leaves depth) := by
  refine description.bind fun description _ => name.bind fun name _ => ?_
  refine (enclosed? paired_parens (inputValue column)).bind fun arguments harguments => ?_
  refine (mark rfl).bind fun _ _ => typeRef.bind fun type htype => ?_
  exact (directives column).map fun directives hdirectives =>
    Field.restsOn htype harguments hdirectives

theorem enumValue (column : Nat) : Settles depth Reader.enumValue
    ((EnumValue.form column).RestsOn EnumValue.leaves depth) :=
  description.bind fun _ _ => name.bind fun _ _ =>
    (directives column).map fun _ hdirectives => EnumValue.restsOn hdirectives

theorem names {separator : Punctuator} (h : (Token.punctuator separator).isBracket = false) :
    Settles depth (Reader.separated separator Reader.name) fun _ => True :=
  (Ensures.separated (mark h) name).mono fun _ _ => trivial

theorem interfaces : Settles depth Reader.interfaces fun _ => True :=
  .optional trivial ((keyword "implements").bind fun _ _ => names rfl)

theorem typeNode : Settles 0 Reader.typeNode (TypeExtension.form.RestsOn TypeExtension.leaves 0) := by
  have hnothing : ∀ {α : Type} {property : α → Prop}, ∀ item ∈ ([] : List α), property item :=
    List.forall_mem_nil _
  have hinside : ∀ {α : Type} {reader : Reader α} {property : α → Prop}, Settles 1 reader property →
      Settles 0 (Reader.enclosed? .braceOpen .braceClose reader)
        fun items => ∀ item ∈ items, property item := fun h =>
    (enclosed? paired_braces h).mono fun _ hitems item hmem => (hitems item hmem).2
  refine kind.bind fun kind _ => name.bind fun name _ => ?_
  cases kind with
  | scalar =>
    exact (directives 0).map fun directives hdirectives =>
      TypeExtension.restsOn hdirectives (TypeBody.restsOn hnothing hnothing hnothing)
  | object =>
    exact interfaces.bind fun names _ => (directives 0).bind fun directives hdirectives =>
      (hinside (field indentWidth)).map fun fields hfields =>
        TypeExtension.restsOn hdirectives (TypeBody.restsOn hfields hnothing hnothing)
  | interface =>
    exact interfaces.bind fun names _ => (directives 0).bind fun directives hdirectives =>
      (hinside (field indentWidth)).map fun fields hfields =>
        TypeExtension.restsOn hdirectives (TypeBody.restsOn hfields hnothing hnothing)
  | union =>
    have hmembers : Settles 0 (Reader.optional (Reader.isMark .equals) [] do
        Reader.mark .equals
        Reader.separated .pipe Reader.name) fun _ => True :=
      .optional trivial ((mark rfl).bind fun _ _ => names rfl)
    exact (directives 0).bind fun directives hdirectives => hmembers.map fun members _ =>
      TypeExtension.restsOn hdirectives (TypeBody.restsOn hnothing hnothing hnothing)
  | enum =>
    exact (directives 0).bind fun directives hdirectives =>
      (hinside (enumValue indentWidth)).map fun values hvalues =>
        TypeExtension.restsOn hdirectives (TypeBody.restsOn hnothing hvalues hnothing)
  | inputObject =>
    exact (directives 0).bind fun directives hdirectives =>
      (hinside (inputValue indentWidth)).map fun fields hfields =>
        TypeExtension.restsOn hdirectives (TypeBody.restsOn hnothing hnothing hfields)

/-! ## Definitions -/

theorem typeExtension :
    Settles 0 Reader.typeExtension fun node => Definition.Settled (.extension node) := by
  refine (keyword "extend").bind fun _ _ => Ensures.position.bind fun _ _ => ?_
  refine typeNode.bind fun node hnode => ?_
  split
  next hadds => exact .pure (Definition.settled_extension hadds hnode)
  next => exact .throw _

theorem directiveDefinition (description : Option String) :
    Settles 0 (Reader.directiveDefinition description)
      fun definition => Definition.Settled (.directive definition) := by
  have hrepeatable : Settles 0 (Reader.optional (Reader.isKeyword "repeatable") false do
      Reader.keyword "repeatable"
      return true) fun _ => True :=
    .optional trivial ((keyword "repeatable").map fun _ _ => trivial)
  have hlocations : Settles 0 (Reader.optional Reader.startsLocation []
      (Reader.separated .pipe (Reader.take Reader.locationOf))) fun _ => True :=
    .optional trivial ((Ensures.separated (mark rfl) location).mono fun _ _ => trivial)
  refine (keyword "directive").bind fun _ _ => (mark rfl).bind fun _ _ => name.bind fun name _ => ?_
  refine (enclosed? paired_parens (inputValue 0)).bind fun arguments harguments => ?_
  refine hrepeatable.bind fun repeatable _ => (keyword "on").bind fun _ _ => ?_
  exact hlocations.map fun locations _ =>
    Definition.settled_directive fun argument hmem => (harguments argument hmem).2

/-- Operations that are put into a schema definition leave its directives as they are. -/
theorem directives_foldlM_addOperation {given : List (String × String)}
    {schema made : SchemaDefinition} (h : given.foldlM Reader.addOperation schema = some made) :
    made.directives = schema.directives := by
  induction given generalizing schema with
  | nil =>
    cases h
    rfl
  | cons operation rest ih =>
    rw [List.foldlM_cons] at h
    obtain ⟨next, hnext, hmade⟩ := Option.bind_eq_some_iff.mp h
    rw [ih hmade]
    unfold Reader.addOperation at hnext
    split at hnext
    next =>
      obtain ⟨-, heq⟩ := Option.ite_none_right_eq_some.mp hnext
      cases heq
      rfl
    next =>
      obtain ⟨-, heq⟩ := Option.ite_none_right_eq_some.mp hnext
      cases heq
      rfl
    next =>
      obtain ⟨-, heq⟩ := Option.ite_none_right_eq_some.mp hnext
      cases heq
      rfl
    next => cases hnext

theorem schemaDefinition :
    Settles 0 Reader.schemaDefinition fun schema => Definition.Settled (.schema schema) := by
  have hoperation : Settles 1 (do
      let operation ← Reader.name
      Reader.mark .colon
      return (operation, ← Reader.name)) fun _ => True :=
    name.bind fun _ _ => (mark rfl).bind fun _ _ => name.map fun _ _ => trivial
  refine Ensures.position.bind fun _ _ => (keyword "schema").bind fun _ _ => ?_
  refine (directives 0).bind fun directives hdirectives => ?_
  refine (openBracket paired_braces).bind fun _ _ => ?_
  refine hoperation.many.bind fun operations _ => (closeBracket paired_braces).bind fun _ _ => ?_
  dsimp only
  split
  next schema hschema =>
    refine .pure (Definition.settled_schema ?_)
    rw [directives_foldlM_addOperation hschema]
    exact hdirectives
  next => exact .throw _

theorem definition : Settles 0 Reader.definition Definition.Settled := by
  refine (Ensures.next _).bind fun _ _ => .ite (schemaDefinition.map fun _ h => h) ?_
  refine (Ensures.next _).bind fun _ _ => .ite (typeExtension.map fun _ h => h) ?_
  refine description.bind fun description _ => (Ensures.next _).bind fun _ _ => ?_
  refine .ite ((directiveDefinition description).map fun _ h => h) (typeNode.map fun node hnode => ?_)
  exact Definition.settled_type hnode

end Settles

/-! ## Documents -/

namespace Stream

theorem open_scanAll (fuel depth : Nat) (p : Position) (text : List Char) :
    (scanAll fuel depth p text).Open depth := by
  refine scanAll_induction (motive := Open)
    (fun _ _ _ => ⟨List.forall_mem_nil _, rfl⟩) ?_ fuel depth p text
  intro depth inner _ stream text rest lexeme hscan hinner hstream
  refine ⟨List.forall_mem_cons.mpr ⟨Token.sound_of_scan hscan, hstream.sound⟩, ?_⟩
  show (nest depth (some lexeme.token :: stream.words)).isSome
  rw [nest, hinner]
  exact hstream.nests

end Stream

namespace Document

/-- A definition of a document that was read comes back exactly if it is faithful. -/
theorem settled_of_parse {text : String} {document : Document} (h : parse text = .ok document) :
    ∀ definition ∈ document.definitions, definition.Settled := by
  have hread : Settles 0 Reader.definitions
      fun definitions => ∀ definition ∈ definitions, definition.Settled :=
    Settles.definition.bind fun first hfirst => Settles.definition.many.map fun rest hrest =>
      List.forall_mem_cons.mpr ⟨hfirst, hrest⟩
  rcases exists_run_of_parse h with rfl | ⟨found, hfound, -, rfl⟩
  · exact List.forall_mem_nil _
  · exact (hread _ (Stream.open_scanAll _ _ _ _) found hfound).1

/-- A document that was read is read back from its printed form exactly if nothing in it gets lost. -/
theorem parse_print_iff_faithful {text : String} {document : Document} (h : parse text = .ok document) :
    parse document.print = .ok document ↔ document.Faithful := by
  rw [parse_print_iff]
  refine forall₂_congr fun definition hmem => ?_
  have hlegible : definition.Legible ↔ definition.WellFormed ∧ Definition.form.Returns 0 definition :=
    Form.legible_iff_returns
  rw [hlegible, and_iff_right ((of_parse h).1 definition hmem)]
  exact settled_of_parse h definition hmem

end Document

end SchemaAlgebra
