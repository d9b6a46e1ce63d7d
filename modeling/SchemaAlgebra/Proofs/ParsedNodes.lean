import SchemaAlgebra.Proofs.ReaderInvariants
import SchemaAlgebra.Proofs.RereadDefinitions

/-!
# What reading gives

Every name in a document that was read is the text of a name, because it was a token of the text.
`Gives complete reader property` says that whatever a reader gives satisfies a property if all names
among the tokens are names.  A reader takes tokens off the front of the stream and does nothing else to
it, so a stream that breaks off still breaks off when the reader is done with it.

## Main statements

* `Gives.valueUpTo`, `Gives.typeNode`, `Gives.definition`, …: nodes that are read are well formed.
* `Stream.hasNames_scanAll`: names are cut from a text as names.
* `Document.of_parse`: the definitions of a document that was read are well formed, and the stream of
  its text did not break off.
-/

namespace SchemaAlgebra

/-- The names among the tokens of a stream are names. -/
def Stream.HasNames (stream : Stream) : Prop :=
  ∀ entry ∈ stream.tokens, ∀ text, entry.2 = .name text → isName text

theorem Stream.HasNames.drop {stream : Stream} (h : stream.HasNames) (count : Nat) :
    (stream.drop count).HasNames := fun entry hentry => h entry (List.mem_of_mem_drop hentry)

/-- The names among the tokens of a stream are names, and the stream is complete or not. -/
def Stream.Named (complete : Bool) (stream : Stream) : Prop :=
  stream.HasNames ∧ stream.complete = complete

/-- A reader gives what satisfies a property, and leaves names and the end of the stream as they are. -/
abbrev Gives {α : Type} (complete : Bool) (reader : Reader α) (property : α → Prop) : Prop :=
  Ensures (Stream.Named complete) reader property (Stream.Named complete)

namespace Gives

variable {α : Type} {complete : Bool} {property : α → Prop}

theorem take {accepts : Token → Option α}
    (h : ∀ token value, accepts token = some value →
      (∀ text, token = .name text → isName text) → property value) :
    Gives complete (Reader.take accepts) property := by
  refine Ensures.take fun stream place token rest value htokens hnamed haccepted => ?_
  have hmem : (place, token) ∈ stream.tokens := htokens ▸ List.mem_cons_self
  exact ⟨h token value haccepted (hnamed.1 _ hmem), hnamed.1.drop 1, hnamed.2⟩

theorem take_any (accepts : Token → Option α) : Gives complete (Reader.take accepts) fun _ => True :=
  take fun _ _ _ _ => trivial

theorem name : Gives complete Reader.name (isName ·) := by
  refine take fun token text haccepted hname => ?_
  cases token with
  | name _ =>
    cases haccepted
    exact hname _ rfl
  | _ => cases haccepted

theorem mark (expected : Punctuator) : Gives complete (Reader.mark expected) fun _ => True := take_any _

theorem keyword (word : String) : Gives complete (Reader.keyword word) fun _ => True := take_any _

theorem text : Gives complete Reader.text fun _ => True :=
  Ensures.text fun accepts _ => take_any accepts

theorem enclosed? {reader : Reader α} {opening closing : Punctuator}
    (h : Gives complete reader property) :
    Gives complete (Reader.enclosed? opening closing reader)
      fun items => ∀ item ∈ items, property item :=
  .optional (List.forall_mem_nil _) (.enclosed (mark opening) (fun _ => h) (mark closing))

end Gives

/-! ## Values and types -/

/-- A field of an object is put in its place among well-formed ones. -/
theorem Value.forall_mem_insertField {property : String × Value → Prop} {key : String}
    {value : Value} (h : property (key, value)) {fields : List (String × Value)}
    (hfields : ∀ field ∈ fields, property field) :
    ∀ field ∈ insertField key value fields, property field := by
  induction fields with
  | nil => simpa [insertField] using h
  | cons first rest ih =>
    obtain ⟨hfirst, hrest⟩ := List.forall_mem_cons.mp hfields
    unfold insertField
    split_ifs
    · exact List.forall_mem_cons.mpr ⟨h, hfields⟩
    · exact List.forall_mem_cons.mpr ⟨h, hrest⟩
    · exact List.forall_mem_cons.mpr ⟨hfirst, ih hrest⟩

theorem Value.wellFormed_ofFields {fields : List (String × Value)}
    (h : ∀ field ∈ fields, isName field.1 ∧ field.2.WellFormed) : (ofFields fields).WellFormed := by
  have hall : ∀ sorted : List (String × Value),
      (∀ field ∈ sorted, isName field.1 ∧ field.2.WellFormed) →
      ∀ field ∈ fields.foldl (fun acc field => insertField field.1 field.2 acc) sorted,
        isName field.1 ∧ field.2.WellFormed := by
    induction fields with
    | nil => exact fun _ hsorted => hsorted
    | cons first rest ih =>
      obtain ⟨hfirst, hrest⟩ := List.forall_mem_cons.mp h
      exact fun sorted hsorted => ih hrest _ (forall_mem_insertField hfirst hsorted)
  exact fieldsWellFormed_iff.mpr (hall [] (List.forall_mem_nil _))

theorem Value.wellFormed_namedValue {name : String} (h : isName name) :
    (Reader.namedValue name).WellFormed := by
  unfold Reader.namedValue
  split
  · exact trivial
  · exact trivial
  · exact trivial
  · exact h

namespace Gives

variable {complete : Bool}

theorem valueUpTo (constant : Bool) (fuel : Nat) :
    Gives complete (Reader.valueUpTo constant fuel) Value.WellFormed := by
  induction fuel with
  | zero => exact .refuse
  | succ fuel ih =>
    have hliteral : Gives complete (Reader.take Token.literal?) Value.WellFormed := by
      refine take fun token value haccepted hname => ?_
      cases token with
      | name word =>
        cases haccepted
        exact Value.wellFormed_namedValue (hname word rfl)
      | int number =>
        cases haccepted
        exact trivial
      | float number =>
        cases haccepted
        exact trivial
      | _ => cases haccepted
    have htext : Gives complete (do return Value.string (← Reader.text)) Value.WellFormed :=
      text.map fun _ _ => trivial
    refine Ensures.peek.bind fun token _ => ?_
    split
    next =>
      -- A variable, unless the value has to be constant.
      have hrefuse : Gives complete (Reader.refuse : Reader Unit) fun _ => False := .refuse
      have hvariable : Gives complete (do
          Reader.mark .dollar
          return Value.var (← Reader.name)) Value.WellFormed :=
        (mark .dollar).bind fun _ _ => name.map fun _ hname => hname
      exact .ite (hrefuse.bind fun _ h => h.elim) hvariable
    next =>
      refine (mark .bracketOpen).bind fun _ _ => ih.many.bind fun items hitems => ?_
      exact (mark .bracketClose).map fun _ _ => Value.itemsWellFormed_iff.mpr hitems
    next =>
      have hfield : Gives complete (do
          let key ← Reader.name
          Reader.mark .colon
          return (key, ← Reader.valueUpTo constant fuel))
          fun field => isName field.1 ∧ field.2.WellFormed :=
        name.bind fun key hkey => (mark .colon).bind fun _ _ =>
          ih.map fun value hvalue => ⟨hkey, hvalue⟩
      refine (mark .braceOpen).bind fun _ _ => hfield.many.bind fun fields hfields => ?_
      exact (mark .braceClose).map fun _ _ => Value.wellFormed_ofFields hfields
    next => exact htext
    next => exact htext
    next => exact hliteral

theorem value (constant : Bool) : Gives complete (Reader.value constant) Value.WellFormed :=
  Ensures.remaining.bind fun fuel _ => valueUpTo constant fuel

theorem typeRefUpTo (fuel : Nat) : Gives complete (Reader.typeRefUpTo fuel) TypeRef.WellFormed := by
  induction fuel with
  | zero => exact .refuse
  | succ fuel ih =>
    -- A reference in front of a mark has none of its own.
    have hbare : Gives complete (TypeRef.bare fuel) fun reference =>
        reference.isNonNull = false ∧ reference.WellFormed := by
      refine (Ensures.next _).bind fun _ _ => .ite ?_ (name.map fun name hname => ⟨rfl, hname⟩)
      refine (mark .bracketOpen).bind fun _ _ => ih.bind fun element helement => ?_
      exact (mark .bracketClose).map fun _ _ => ⟨rfl, helement⟩
    rw [TypeRef.typeRefUpTo_succ]
    refine hbare.bind fun reference hreference => .optional hreference.2 ?_
    exact (mark .bang).map fun _ _ => hreference

theorem typeRef : Gives complete Reader.typeRef TypeRef.WellFormed :=
  Ensures.remaining.bind fun fuel _ => typeRefUpTo fuel

/-! ## Nodes -/

theorem description : Gives complete Reader.description fun _ => True := by
  have hsome : (some <$> Reader.text : Reader (Option String)) =
      (do return some (← Reader.text)) := map_eq_pure_bind _ _
  rw [Reader.description, hsome]
  exact .optional trivial (text.map fun _ _ => trivial)

theorem argument :
    Gives complete Reader.argument fun argument => isName argument.1 ∧ argument.2.WellFormed :=
  name.bind fun _ hkey => (mark .colon).bind fun _ _ =>
    (value false).map fun _ hvalue => ⟨hkey, hvalue⟩

theorem directive : Gives complete Reader.directive Directive.WellFormed :=
  (mark .atSign).bind fun _ _ => name.bind fun _ hname =>
    argument.enclosed?.map fun _ harguments => ⟨hname, harguments⟩

theorem directives :
    Gives complete Reader.directives fun directives => ∀ directive ∈ directives, directive.WellFormed :=
  directive.many

theorem inputValue : Gives complete Reader.inputValue InputValue.WellFormed := by
  have hdefault : Gives complete (Reader.optional (Reader.isMark .equals) none do
      Reader.mark .equals
      return some (← Reader.value true))
      fun given => ∀ value, given = some value → value.WellFormed := by
    refine .optional (fun _ h => nomatch h) ((mark .equals).bind fun _ _ => (value true).map ?_)
    rintro given hgiven _ ⟨⟩
    exact hgiven
  refine description.bind fun description _ => name.bind fun name hname => ?_
  refine (mark .colon).bind fun _ _ => typeRef.bind fun type htype => ?_
  exact hdefault.bind fun defaultValue hvalue => directives.map fun directives hdirectives =>
    ⟨hname, htype, hvalue, hdirectives⟩

theorem field : Gives complete Reader.field Field.WellFormed := by
  refine description.bind fun description _ => name.bind fun name hname => ?_
  refine inputValue.enclosed?.bind fun arguments harguments => (mark .colon).bind fun _ _ => ?_
  exact typeRef.bind fun type htype => directives.map fun directives hdirectives =>
    ⟨hname, harguments, htype, hdirectives⟩

theorem enumValue : Gives complete Reader.enumValue EnumValue.WellFormed :=
  description.bind fun _ _ => name.bind fun _ hname =>
    directives.map fun _ hdirectives => ⟨hname, hdirectives⟩

theorem interfaces : Gives complete Reader.interfaces fun names => ∀ name ∈ names, isName name :=
  .optional (List.forall_mem_nil _)
    ((keyword "implements").bind fun _ _ => .separated (mark _) name)

theorem typeNode : Gives complete Reader.typeNode TypeExtension.WellFormed := by
  have hnothing : ∀ {α : Type} {property : α → Prop}, ∀ item ∈ ([] : List α), property item :=
    List.forall_mem_nil _
  refine (take_any _).bind fun kind _ => name.bind fun name hname => ?_
  cases kind with
  | scalar =>
    exact directives.map fun directives hdirectives =>
      ⟨hname, hdirectives, ⟨hnothing, hnothing, hnothing, hnothing, hnothing⟩⟩
  | object =>
    exact interfaces.bind fun names hnames => directives.bind fun directives hdirectives =>
      field.enclosed?.map fun fields hfields =>
        ⟨hname, hdirectives, ⟨hnames, hfields, hnothing, hnothing, hnothing⟩⟩
  | interface =>
    exact interfaces.bind fun names hnames => directives.bind fun directives hdirectives =>
      field.enclosed?.map fun fields hfields =>
        ⟨hname, hdirectives, ⟨hnames, hfields, hnothing, hnothing, hnothing⟩⟩
  | union =>
    have hmembers : Gives complete (Reader.optional (Reader.isMark .equals) [] do
        Reader.mark .equals
        Reader.separated .pipe Reader.name) fun members => ∀ member ∈ members, isName member :=
      .optional hnothing ((mark .equals).bind fun _ _ => .separated (mark _) Gives.name)
    exact directives.bind fun directives hdirectives => hmembers.map fun members hmembers =>
      ⟨hname, hdirectives, ⟨hnothing, hnothing, hmembers, hnothing, hnothing⟩⟩
  | enum =>
    exact directives.bind fun directives hdirectives =>
      enumValue.enclosed?.map fun values hvalues =>
        ⟨hname, hdirectives, ⟨hnothing, hnothing, hnothing, hvalues, hnothing⟩⟩
  | inputObject =>
    exact directives.bind fun directives hdirectives =>
      inputValue.enclosed?.map fun fields hfields =>
        ⟨hname, hdirectives, ⟨hnothing, hnothing, hnothing, hnothing, hfields⟩⟩

end Gives

/-! ## Definitions -/

namespace SchemaDefinition

theorem forall_operations_iff {schema : SchemaDefinition} {property : String × String → Prop} :
    (∀ operation ∈ schema.operations, property operation) ↔
      (∀ type ∈ schema.query, property ("query", type)) ∧
        (∀ type ∈ schema.mutation, property ("mutation", type)) ∧
          ∀ type ∈ schema.subscription, property ("subscription", type) := by
  obtain ⟨_, query, mutation, subscription⟩ := schema
  cases query <;> cases mutation <;> cases subscription <;> simp [operations]

/-- An operation that is put into a schema definition brings nothing but its type. -/
theorem WellFormed.addOperation {schema next : SchemaDefinition} {operation : String × String}
    (h : schema.WellFormed) (htype : isName operation.2)
    (hadded : Reader.addOperation schema operation = some next) : next.WellFormed := by
  obtain ⟨hquery, hmutation, hsubscription⟩ := forall_operations_iff.mp h.operations
  have hnew : ∀ type ∈ some operation.2, isName type := by
    rintro _ ⟨⟩
    exact htype
  unfold Reader.addOperation at hadded
  -- One case for each operation; the types of the other two stay as they were.
  split at hadded
  next =>
    obtain ⟨-, hnext⟩ := Option.ite_none_right_eq_some.mp hadded
    cases hnext
    exact ⟨h.directives, forall_operations_iff.mpr ⟨hnew, hmutation, hsubscription⟩⟩
  next =>
    obtain ⟨-, hnext⟩ := Option.ite_none_right_eq_some.mp hadded
    cases hnext
    exact ⟨h.directives, forall_operations_iff.mpr ⟨hquery, hnew, hsubscription⟩⟩
  next =>
    obtain ⟨-, hnext⟩ := Option.ite_none_right_eq_some.mp hadded
    cases hnext
    exact ⟨h.directives, forall_operations_iff.mpr ⟨hquery, hmutation, hnew⟩⟩
  next => cases hadded

theorem WellFormed.foldlM_addOperation {given : List (String × String)} {schema made : SchemaDefinition}
    (h : schema.WellFormed) (hgiven : ∀ operation ∈ given, isName operation.2)
    (hmade : given.foldlM Reader.addOperation schema = some made) : made.WellFormed := by
  induction given generalizing schema with
  | nil =>
    cases hmade
    exact h
  | cons operation rest ih =>
    obtain ⟨hoperation, hrest⟩ := List.forall_mem_cons.mp hgiven
    rw [List.foldlM_cons] at hmade
    obtain ⟨next, hnext, hmade⟩ := Option.bind_eq_some_iff.mp hmade
    exact ih (h.addOperation hoperation hnext) hrest hmade

end SchemaDefinition

namespace Gives

variable {complete : Bool}

theorem typeExtension : Gives complete Reader.typeExtension TypeExtension.WellFormed :=
  (keyword "extend").bind fun _ _ => Ensures.position.bind fun _ _ =>
    typeNode.bind fun _ hnode => .ite (.pure hnode) (.throw _)

theorem directiveDefinition (description : Option String) :
    Gives complete (Reader.directiveDefinition description) DirectiveDefinition.WellFormed := by
  have hrepeatable : Gives complete (Reader.optional (Reader.isKeyword "repeatable") false do
      Reader.keyword "repeatable"
      return true) fun _ => True :=
    .optional trivial ((keyword "repeatable").map fun _ _ => trivial)
  have hlocations : Gives complete (Reader.optional Reader.startsLocation []
      (Reader.separated .pipe (Reader.take Reader.locationOf))) fun _ => True :=
    .optional trivial ((Ensures.separated (mark _) (take_any _)).mono fun _ _ => trivial)
  refine (keyword "directive").bind fun _ _ => (mark .atSign).bind fun _ _ => ?_
  refine name.bind fun name hname => inputValue.enclosed?.bind fun arguments harguments => ?_
  refine hrepeatable.bind fun repeatable _ => (keyword "on").bind fun _ _ => ?_
  exact hlocations.map fun locations _ => ⟨hname, harguments⟩

theorem schemaDefinition : Gives complete Reader.schemaDefinition SchemaDefinition.WellFormed := by
  have hoperation : Gives complete (do
      let operation ← Reader.name
      Reader.mark .colon
      return (operation, ← Reader.name)) fun operation => isName operation.2 :=
    name.bind fun _ _ => (mark .colon).bind fun _ _ => name.map fun _ htype => htype
  refine Ensures.position.bind fun _ _ => (keyword "schema").bind fun _ _ => ?_
  refine directives.bind fun directives hdirectives => (mark .braceOpen).bind fun _ _ => ?_
  refine hoperation.many.bind fun operations hoperations => (mark .braceClose).bind fun _ _ => ?_
  have hbare : (⟨directives, none, none, none⟩ : SchemaDefinition).WellFormed :=
    ⟨hdirectives, List.forall_mem_nil _⟩
  dsimp only
  split
  next schema hschema => exact .pure (hbare.foldlM_addOperation hoperations hschema)
  next => exact .throw _

theorem definition : Gives complete Reader.definition Definition.WellFormed := by
  refine (Ensures.next _).bind fun _ _ => .ite (schemaDefinition.map fun _ h => h) ?_
  refine (Ensures.next _).bind fun _ _ => .ite (typeExtension.map fun _ h => h) ?_
  refine description.bind fun description _ => (Ensures.next _).bind fun _ _ => ?_
  exact .ite ((directiveDefinition description).map fun _ h => h) (typeNode.map fun _ h => h)

end Gives

/-! ## Documents -/

/-- What is cut off a text: a punctuator, a string, a name, or a number as its own text is read. -/
theorem Token.of_scan {text rest : List Char} {lexeme : Lexeme} (h : scan text = some (lexeme, rest)) :
    (∃ mark, lexeme.token = .punctuator mark) ∨ Reader.isText lexeme.token ∨
      (∃ name, isName name ∧ lexeme.token = .name name) ∨ number? lexeme.text = some lexeme.token := by
  unfold scan at h
  split at h
  next => cases h
  next =>
    cases h
    exact .inl ⟨_, rfl⟩
  next after =>
    -- Behind a quotation mark there is a string or a block string.
    unfold scanText? at h
    split at h
    · obtain ⟨_, -, hcut⟩ := Option.bind_eq_some_iff.mp h
      cases hcut
      exact .inr (.inl rfl)
    · obtain ⟨_, -, hdecoded⟩ := Option.bind_eq_some_iff.mp h
      obtain ⟨_, -, hcut⟩ := Option.bind_eq_some_iff.mp hdecoded
      cases hcut
      exact .inr (.inl rfl)
  next c after _ _ =>
    split at h
    next hstart =>
      -- A name is cut off up to the first character that cannot be part of it.
      cases h
      exact .inr (.inr (.inl ⟨_, by simp [isName, hstart, List.all_takeWhile], rfl⟩))
    next =>
      split at h
      next =>
        obtain ⟨token, hnumber, hcut⟩ := Option.map_eq_some_iff.mp h
        cases hcut
        exact .inr (.inr (.inr hnumber))
      next =>
        obtain ⟨mark, -, hcut⟩ := Option.map_eq_some_iff.mp h
        cases hcut
        exact .inl ⟨mark, rfl⟩

/-- A name that is cut off a text is a name. -/
theorem Token.isName_of_scan {text rest : List Char} {lexeme : Lexeme} {name : String}
    (h : scan text = some (lexeme, rest)) (hname : lexeme.token = .name name) : isName name := by
  rcases of_scan h with ⟨mark, hmark⟩ | htext | ⟨found, hfound, htoken⟩ | hnumber
  · cases hname.symm.trans hmark
  · rw [hname] at htext
    cases htext
  · cases hname.symm.trans htoken
    exact hfound
  · -- The text of a number is never read as a name.
    have hsort := isNumber_of_number? hnumber
    rw [hname] at hsort
    cases hsort

namespace Stream

/-- The stream of a text is empty, or it starts with a token that was cut off a text and that does not
nest too deep. -/
theorem scanAll_induction {motive : Nat → Stream → Prop}
    (hnone : ∀ depth p complete, motive depth ⟨[], p, complete, 0⟩)
    (hmore : ∀ depth inner p stream text rest lexeme, Token.scan text = some (lexeme, rest) →
      depthAfter depth lexeme.token = some inner → motive inner stream →
        motive depth { stream with
          tokens := (p, lexeme.token) :: stream.tokens, bound := stream.bound + 1 })
    (fuel depth : Nat) (p : Position) (text : List Char) :
    motive depth (scanAll fuel depth p text) := by
  induction fuel generalizing depth p text with
  | zero =>
    unfold scanAll
    split
    next => exact hnone _ _ _
    next => exact hnone _ _ _
    next hfuel _ => cases hfuel
  | succ fuel ih =>
    unfold scanAll
    split
    next => exact hnone _ _ _
    next => exact hnone _ _ _
    next inner hfuel _ =>
      cases hfuel
      split
      next => exact hnone _ _ _
      next lexeme rest hscan =>
        split
        next => exact hnone _ _ _
        next inner hinner => exact hmore _ inner _ _ _ rest lexeme hscan hinner (ih _ _ _)

/-- The names that a text is cut into are names. -/
theorem hasNames_scanAll (fuel depth : Nat) (p : Position) (text : List Char) :
    (scanAll fuel depth p text).HasNames := by
  refine scanAll_induction (motive := fun _ stream => stream.HasNames)
    (fun _ _ _ => List.forall_mem_nil _) ?_ fuel depth p text
  intro _ _ _ stream text rest lexeme hscan _ hstream
  exact List.forall_mem_cons.mpr ⟨fun name hname => Token.isName_of_scan hscan hname, hstream⟩

end Stream

namespace Document

/-- A text that is not blank is read by its definitions, and its stream has to be complete. -/
theorem exists_run_of_parse {text : String} {document : Document} (h : parse text = .ok document) :
    document = ∅ ∨ ∃ result,
      (Reader.definitions.run (Stream.ofText text.toList)).toOption = some result ∧
        result.2.complete ∧ document = ⟨result.1⟩ := by
  unfold parse at h
  split at h
  next =>
    cases h
    exact .inl rfl
  next =>
    have hrun : ((Reader.document.run (Stream.ofText text.toList)).toOption.map Prod.fst) =
        some document := by
      cases hdocument : Reader.document.run (Stream.ofText text.toList) with
      | error cause =>
        rw [hdocument] at h
        cases h
      | ok result =>
        rw [hdocument] at h
        cases h
        rfl
    obtain ⟨result, hresult, rfl⟩ := Option.map_eq_some_iff.mp hrun
    rw [toOption_run_document] at hresult
    obtain ⟨found, hfound, hgiven⟩ := Option.bind_eq_some_iff.mp hresult
    obtain ⟨hcomplete, hpair⟩ := Option.ite_none_right_eq_some.mp hgiven
    cases hpair
    exact .inr ⟨found, hfound, hcomplete, rfl⟩

/-- A document that is not blank is read from a stream that does not break off, and names in it are
names. -/
theorem of_parse {text : String} {document : Document} (h : parse text = .ok document) :
    (∀ definition ∈ document.definitions, definition.WellFormed) ∧
      (document.definitions ≠ [] → (Stream.ofText text.toList).complete) := by
  have hread : ∀ {complete : Bool}, Gives complete Reader.definitions
      fun definitions => ∀ definition ∈ definitions, definition.WellFormed :=
    Gives.definition.bind fun first hfirst => Gives.definition.many.map fun rest hrest =>
      List.forall_mem_cons.mpr ⟨hfirst, hrest⟩
  rcases exists_run_of_parse h with rfl | ⟨found, hfound, hcomplete, rfl⟩
  · exact ⟨List.forall_mem_nil _, fun hne => absurd rfl hne⟩
  · -- Readers only take tokens away, so the stream was complete before the first of them.
    obtain ⟨hwellFormed, -, hended⟩ := hread _ ⟨Stream.hasNames_scanAll _ _ _ _, rfl⟩ found hfound
    exact ⟨hwellFormed, fun _ => hended ▸ hcomplete⟩

end Document

end SchemaAlgebra
