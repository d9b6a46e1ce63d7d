import SchemaAlgebra.Proofs.Rereading

/-!
# Reading documents back

What the written forms of definitions are read back as, and the text of a whole document with them.

## Main statements

* `TypeExtension.reads`, `DirectiveDefinition.reads`, `SchemaDefinition.reads`: single definitions.
* `Definition.reads`: any definition, in front of others or at the end.
* `Document.parse_print`: what the text of a document is read as.
-/

namespace SchemaAlgebra

/-! ## Type nodes -/

theorem mapM_eq_self {α : Type} {f : α → Option α} {items : List α}
    (h : ∀ item ∈ items, f item = some item) : items.mapM f = some items := by
  induction items with
  | nil => rfl
  | cons first rest ih =>
    rw [mapM_cons_eq, h first List.mem_cons_self, ih fun x hx => h x (List.mem_cons_of_mem _ hx)]
    rfl

/-- Names behind a word that leads them in, if there are any. -/
theorem Reads.led {lead : Token} {starts : Token → Bool} {leading : Reader Unit}
    {separator : Punctuator} (hstarts : ∀ token, starts token = true ↔ token = lead)
    (hleading : ∀ {size}, Reads size leading [some lead] (some ()) anything)
    (names : List String) {size : Nat} :
    Reads size
      (Reader.optional starts [] do
        leading
        Reader.separated separator Reader.name)
      (ledWords [some lead] separator names) (some names)
      (Avoids [lead, .punctuator separator]) := by
  -- Where there are no names, the word that leads them in must not follow either.
  have habsent : ∀ token, starts token = true → token ∈ [lead, .punctuator separator] := by
    intro token htoken
    rw [(hstarts token).mp htoken]
    exact List.mem_cons_self
  cases names with
  | nil => exact Reads.absent habsent [] _
  | cons first rest =>
    have hnames : Reads (size - 1) (Reader.separated separator Reader.name)
        (separatedWords separator (first :: rest)) (some (first :: rest))
        (Avoids [.punctuator separator]) := by
      rw [← mapM_eq_self fun name _ => rfl]
      exact Reads.separated (Reads.name _) first rest
    have hled : StartsWith starts (ledWords [some lead] separator (first :: rest)) :=
      ⟨some lead, _, rfl, by rintro token ⟨⟩; exact (hstarts lead).mpr rfl⟩
    refine Reads.optional hled [] ?_
    exact hleading.followed (hnames.follow_mono fun _ hrest => hrest.mono (by simp))
      fun _ _ => trivial

theorem avoids_enclosedWords {α : Type} {tokens : List Token} {opening closing : Punctuator}
    {wordsOf : α → List Word} (h : .punctuator opening ∉ tokens) (items : List α) :
    Avoids tokens (enclosedWords opening closing wordsOf items) := by
  unfold enclosedWords
  split
  · exact Avoids.nil
  · refine Avoids.cons (fun token hmem heq => h ?_) _
    rwa [Option.some.inj heq]

theorem avoids_ledWords {tokens : List Token} {lead : Token} (h : lead ∉ tokens)
    (separator : Punctuator) (names : List String) :
    Avoids tokens (ledWords [some lead] separator names) := by
  unfold ledWords
  split
  · exact Avoids.nil
  · refine Avoids.cons (fun token hmem heq => h ?_) _
    rwa [Option.some.inj heq]

/-- The tokens that go on with a type node. -/
def afterType : List Token :=
  [.name "implements", .punctuator .ampersand, .punctuator .braceOpen, .punctuator .equals,
    .punctuator .pipe] ++ afterDirectives

theorem Reads.interfaces (names : List String) {size : Nat} :
    Reads size Reader.interfaces (interfacesWords names) (some names)
      (Avoids [.name "implements", .punctuator .ampersand]) :=
  Reads.led (by simp [Reader.isKeyword]) (Reads.keyword "implements") names

theorem Reads.union (members : List String) {size : Nat} :
    Reads size
      (Reader.optional (Reader.isMark .equals) [] do
        Reader.mark .equals
        Reader.separated .pipe Reader.name)
      (unionWords members) (some members) (Avoids [.punctuator .equals, .punctuator .pipe]) :=
  Reads.led (by simp [Reader.isMark]) (Reads.mark .equals) members

namespace TypeBody

/-- What the members of a type are read back as. -/
def reread : TypeBody → Option TypeBody
  | .scalar => some .scalar
  | .object names fields => (fields.mapM (Field.reread indentWidth)).map (.object names)
  | .interface names fields => (fields.mapM (Field.reread indentWidth)).map (.interface names)
  | .union members => some (.union members)
  | .enum values => (values.mapM (EnumValue.reread indentWidth)).map .enum
  | .inputObject fields => (fields.mapM (InputValue.reread indentWidth)).map .inputObject

end TypeBody

/-- Output fields between braces. -/
theorem Reads.fields {fields : List Field} (h : ∀ field ∈ fields, field.WellFormed) {size : Nat} :
    Reads size (Reader.enclosed? .braceOpen .braceClose Reader.field)
      (enclosedWords .braceOpen .braceClose (Field.words indentWidth) fields)
      (fields.mapM (Field.reread indentWidth)) (Avoids [.punctuator .braceOpen]) := by
  have hitems : ReadsItems size Reader.field (!Reader.isMark .braceClose ·)
      (Field.words indentWidth) (Field.reread indentWidth) (Avoids afterField) fields := {
    reads := fun field hmem => Field.reads indentWidth (h field hmem)
    starts := fun field _ => (startsWith_node indentWidth _ _ _).notMark .braceClose
    more := fun field _ rest =>
      ((startsWith_node indentWidth _ _ _).append rest).avoids (by decide) }
  exact hitems.enclosed? fun _ => Avoids.cons (by decide) _

/-- Enum values between braces. -/
theorem Reads.enumValues (values : List EnumValue) {size : Nat} :
    Reads size (Reader.enclosed? .braceOpen .braceClose Reader.enumValue)
      (enclosedWords .braceOpen .braceClose (EnumValue.words indentWidth) values)
      (values.mapM (EnumValue.reread indentWidth)) (Avoids [.punctuator .braceOpen]) := by
  have hitems : ReadsItems size Reader.enumValue (!Reader.isMark .braceClose ·)
      (EnumValue.words indentWidth) (EnumValue.reread indentWidth) (Avoids afterDirectives)
      values := {
    reads := fun value _ => value.reads indentWidth
    starts := fun value _ => (startsWith_node indentWidth _ _ _).notMark .braceClose
    more := fun value _ rest =>
      ((startsWith_node indentWidth _ _ _).append rest).avoids (by decide) }
  exact hitems.enclosed? fun _ => Avoids.cons (by decide) _

/-- Input fields between braces. -/
theorem Reads.inputFields {fields : List InputValue} (h : ∀ field ∈ fields, field.WellFormed)
    {size : Nat} :
    Reads size (Reader.enclosed? .braceOpen .braceClose Reader.inputValue)
      (enclosedWords .braceOpen .braceClose (InputValue.words indentWidth) fields)
      (fields.mapM (InputValue.reread indentWidth)) (Avoids [.punctuator .braceOpen]) :=
  (readsItems_inputValue indentWidth .braceClose h).enclosed? fun _ => Avoids.cons (by decide) _

namespace TypeExtension

/-- What a type node is read back as, be it a definition or an extension. -/
def reread (node : TypeExtension) : Option TypeExtension :=
  (node.directives.mapM (Directive.reread 0)).bind fun directives =>
    node.body.reread.map fun body => ⟨node.name, directives, body⟩

theorem kindOf_keyword (kind : TypeKind) : Reader.kindOf (.name kind.keyword) = some kind := by
  cases kind <;> rfl

/-- Directives and what comes behind them.  Every way to go on with a type node is left open. -/
theorem reads_directivesThen {α : Type} {reader : Reader α} {words : List Word}
    {value : Option α} {tokens : List Token} (directives : List Directive)
    (make : List Directive → α → TypeExtension) {size : Nat}
    (h : ∀ {size}, Reads size reader words value (Avoids tokens)) (htokens : tokens ⊆ afterType)
    (hwords : Avoids afterDirectives words) :
    Reads size
      (do
        let found ← Reader.directives
        return make found (← reader))
      (directivesWords 0 directives ++ words)
      ((directives.mapM (Directive.reread 0)).bind fun found => value.map (make found))
      (Avoids afterType) := by
  refine (Reads.directives 0 directives).bind (fun found _ => ?_) fun rest hrest =>
    hwords.append (hrest.mono (List.subset_append_right _ _))
  exact (h.follow_mono fun rest hrest => hrest.mono htokens).map

/-- The interfaces in front of directives and members. -/
theorem reads_interfacesBefore {α : Type} {reader : List String → Reader α} {words : List Word}
    {value : Option α} (names : List String) (directives : List Directive) {size : Nat}
    (h : ∀ {size}, Reads size (reader names) (directivesWords 0 directives ++ words) value
      (Avoids afterType))
    (hwords : Avoids [.name "implements", .punctuator .ampersand] words) :
    Reads size (Reader.interfaces >>= reader)
      (interfacesWords names ++ (directivesWords 0 directives ++ words)) value
      (Avoids afterType) := by
  refine (Reads.interfaces names).followed h fun rest hrest => ?_
  exact ((avoids_directivesWords (by simp) 0 directives).append hwords).append
    (hrest.mono (by simp [afterType]))

theorem reads {node : TypeExtension} (h : node.WellFormed) {size : Nat} :
    Reads size Reader.typeNode node.words node.reread (Avoids afterType) := by
  obtain ⟨name, directives, body⟩ := node
  have hkind : ∀ {size : Nat}, Reads size (Reader.take Reader.kindOf)
      [nameWord body.kind.keyword] (some body.kind) anything := by
    intro size
    have htake : Reads size (Reader.take Reader.kindOf) [nameWord body.kind.keyword]
        (Reader.kindOf (.name body.kind.keyword)) anything := Reads.take _ (nameWord _)
    rwa [kindOf_keyword] at htake
  unfold Reader.typeNode words reread
  -- The keyword says which parts may follow the name.
  refine hkind.followed ?_ fun _ _ => trivial
  refine (Reads.name name).followed ?_ fun _ _ => trivial
  cases body with
  | scalar =>
    have hnothing : ∀ {size : Nat}, Reads size (pure ()) [] (some ()) (Avoids []) :=
      (Reads.pure ()).follow_mono fun _ _ => trivial
    exact reads_directivesThen directives (fun found _ => ⟨name, found, .scalar⟩) hnothing
      (List.nil_subset _) Avoids.nil
  | object names fields =>
    simp only [TypeBody.reread, Option.map_map]
    refine reads_interfacesBefore names directives ?_ (avoids_enclosedWords (by decide) _)
    exact reads_directivesThen directives (fun found fields => ⟨name, found, .object names fields⟩)
      (Reads.fields h.body.outputFields) (by simp [afterType]) (avoids_enclosedWords (by decide) _)
  | interface names fields =>
    simp only [TypeBody.reread, Option.map_map]
    refine reads_interfacesBefore names directives ?_ (avoids_enclosedWords (by decide) _)
    exact reads_directivesThen directives
      (fun found fields => ⟨name, found, .interface names fields⟩)
      (Reads.fields h.body.outputFields) (by simp [afterType]) (avoids_enclosedWords (by decide) _)
  | union members =>
    exact reads_directivesThen directives (fun found members => ⟨name, found, .union members⟩)
      (Reads.union members) (by simp [afterType]) (avoids_ledWords (by decide) _ _)
  | enum values =>
    simp only [TypeBody.reread, Option.map_map]
    exact reads_directivesThen directives (fun found values => ⟨name, found, .enum values⟩)
      (Reads.enumValues values) (by simp [afterType]) (avoids_enclosedWords (by decide) _)
  | inputObject fields =>
    simp only [TypeBody.reread, Option.map_map]
    exact reads_directivesThen directives (fun found fields => ⟨name, found, .inputObject fields⟩)
      (Reads.inputFields h.body.inputFields) (by simp [afterType])
      (avoids_enclosedWords (by decide) _)

end TypeExtension

/-! ## Definitions -/

/-- The tokens that go on with a definition of any sort. -/
def afterDefinition : List Token := [.name "repeatable", .name "on"] ++ afterType

namespace TypeExtension

/-- What the written form of an extension is read back as. -/
def rereadExtending (node : TypeExtension) : Option TypeExtension :=
  node.reread.bind fun found => if Reader.addsSomething found then some found else none

theorem readsExtending {node : TypeExtension} (h : node.WellFormed) {size : Nat} :
    Reads size Reader.typeExtension (nameWord "extend" :: node.words) node.rereadExtending
      (Avoids afterType) := by
  unfold Reader.typeExtension rereadExtending
  refine (Reads.keyword "extend").followed ?_ fun _ _ => trivial
  refine Reads.position fun place => ?_
  -- An extension that adds nothing is read to its end and then refused.
  refine (reads h).checked fun found => ?_
  cases Reader.addsSomething found with
  | true => exact Reads.pure found
  | false => exact Reads.throw _

end TypeExtension

namespace DirectiveDefinition

/-- What a directive definition is read back as behind its description.  One without locations is
not read at all. -/
def rereadSignature (definition : DirectiveDefinition) (description : Option String) :
    Option DirectiveDefinition :=
  (definition.arguments.mapM (InputValue.reread 0)).bind fun arguments =>
    if definition.locations.isEmpty then none else some { definition with description, arguments }

theorem locationOf_render (location : Location) :
    Reader.locationOf (.name location.render) = some location := by
  cases location <;> rfl

/-- The mark that a directive may be repeated. -/
theorem reads_repeatable (repeatable : Bool) {size : Nat} :
    Reads size
      (Reader.optional (Reader.isKeyword "repeatable") false do
        Reader.keyword "repeatable"
        return true)
      (if repeatable then [nameWord "repeatable"] else []) (some repeatable)
      (Avoids [.name "repeatable"]) := by
  cases repeatable with
  | false => exact Reads.absent (by simp [Reader.isKeyword]) false _
  | true =>
    have hstarts : StartsWith (Reader.isKeyword "repeatable") [nameWord "repeatable"] :=
      ⟨_, _, rfl, by simp [Reader.isKeyword]⟩
    have hkeyword : Reads size (do
          Reader.keyword "repeatable"
          return true) [nameWord "repeatable"] (some true) anything :=
      (Reads.keyword "repeatable").map
    exact (hkeyword.optional hstarts false).follow_mono fun _ _ => trivial

/-- The locations behind the word that leads them in. -/
theorem reads_locations (first : Location) (locations : List Location) {size : Nat} :
    Reads size
      (Reader.optional Reader.startsLocation []
        (Reader.separated .pipe (Reader.take Reader.locationOf)))
      (separatedWords .pipe ((first :: locations).map Location.render))
      (some (first :: locations)) (Avoids [.punctuator .pipe]) := by
  have hvalue : ((first :: locations).map Location.render).mapM
      (fun name => Reader.locationOf (.name name)) = some (first :: locations) := by
    have hall : ∀ others : List Location, (others.map Location.render).mapM
        (fun name => Reader.locationOf (.name name)) = some others := by
      intro others
      induction others with
      | nil => rfl
      | cons location more ih => rw [List.map_cons, mapM_cons_eq, ih, locationOf_render]; rfl
    exact hall _
  have hstarts : StartsWith Reader.startsLocation
      (separatedWords .pipe ((first :: locations).map Location.render)) :=
    ⟨_, _, rfl, by simp [Reader.startsLocation, Reader.nameOf]⟩
  rw [← hvalue]
  exact Reads.optional hstarts [] (Reads.separated (Reads.take _ _) _ _)

theorem reads {definition : DirectiveDefinition} (h : definition.WellFormed)
    (description : Option String) {size : Nat} :
    Reads size (Reader.directiveDefinition description) definition.signatureWords
      (definition.rereadSignature description) (Avoids afterDefinition) := by
  obtain ⟨_, name, arguments, repeatable, locations⟩ := definition
  have hlocationsEnd : ∀ {tokens : List Token}, .name "on" ∉ tokens →
      Avoids tokens (ledWords [nameWord "on"] .pipe (locations.map Location.render)) :=
    fun hon => avoids_ledWords hon .pipe _
  have hrepeatableEnd : Avoids [.punctuator .parenOpen]
      (if repeatable then [nameWord "repeatable"] else []) := by
    cases repeatable with
    | false => exact Avoids.nil
    | true => exact Avoids.cons (by simp) []
  unfold Reader.directiveDefinition signatureWords rereadSignature
  refine (Reads.keyword "directive").followed ?_ fun _ _ => trivial
  refine (Reads.mark .atSign).followed ?_ fun _ _ => trivial
  refine (Reads.name name).followed ?_ fun _ _ => trivial
  refine (Reads.arguments 0 h.arguments).bind (fun arguments _ => ?_) fun rest hrest =>
    (hrepeatableEnd.append (hlocationsEnd (by simp))).append (hrest.mono (by decide))
  refine (reads_repeatable repeatable).followed ?_ fun rest hrest =>
    (hlocationsEnd (by simp)).append (hrest.mono (by decide))
  cases locations with
  | nil =>
    -- No definition starts with the word that leads in locations, so reading fails here.
    have hon : ∀ token, token ∉ [Token.name "on"] →
        (if Reader.isKeyword "on" token then some () else none) = none := by
      simp [Reader.isKeyword]
    exact (Reads.take_absent hon _).follow_mono fun rest hrest => hrest.mono (by decide)
  | cons first more =>
    refine (Reads.keyword "on").followed ?_ fun _ _ => trivial
    exact ((reads_locations first more).follow_mono fun rest hrest => hrest.mono (by decide)).map

end DirectiveDefinition

namespace SchemaDefinition

/-- What a schema definition is read back as. -/
def reread (schema : SchemaDefinition) : Option SchemaDefinition :=
  (schema.directives.mapM (Directive.reread 0)).map fun directives => { schema with directives }

/-- The operations of a schema definition make it up. -/
theorem foldlM_addOperation (schema : SchemaDefinition) (directives : List Directive) :
    schema.operations.foldlM Reader.addOperation ⟨directives, none, none, none⟩ =
      some { schema with directives } := by
  obtain ⟨_, query, mutation, subscription⟩ := schema
  cases query <;> cases mutation <;> cases subscription <;> rfl

theorem reads (schema : SchemaDefinition) {size : Nat} :
    Reads size Reader.schemaDefinition schema.words schema.reread anything := by
  -- An operation and its type are two names, which are read as they are.
  have hoperation : ∀ {size : Nat} (operation : String × String), Reads size (do
        let name ← Reader.name
        Reader.mark .colon
        return (name, ← Reader.name)) (operationWords operation) (some operation) anything :=
    fun operation => (Reads.name operation.1).followed
      ((Reads.mark .colon).followed (Reads.name operation.2).map fun _ _ => trivial)
      fun _ _ => trivial
  have hoperations : ∀ {size : Nat}, ReadsItems size (do
        let name ← Reader.name
        Reader.mark .colon
        return (name, ← Reader.name)) (!Reader.isMark .braceClose ·) operationWords some anything
      schema.operations := {
    reads := fun operation _ => hoperation operation
    starts := fun operation _ => ⟨_, _, rfl, by simp [Reader.isMark]⟩
    more := fun _ _ _ => trivial }
  unfold Reader.schemaDefinition words reread
  refine Reads.position fun place => ?_
  refine (Reads.keyword "schema").followed ?_ fun _ _ => trivial
  rw [Option.map_eq_bind]
  refine (Reads.directives 0 schema.directives).bind (fun directives _ => ?_)
    fun _ _ => Avoids.cons (by decide) _
  refine (Reads.mark .braceOpen).followed ?_ fun _ _ => trivial
  -- The operations are as they were written, so none of them is there twice.
  have hvalue : (schema.operations.mapM some).bind
      (fun found => found.foldlM Reader.addOperation ⟨directives, none, none, none⟩) =
        some { schema with directives } := by
    rw [mapM_eq_self fun _ _ => rfl]
    exact foldlM_addOperation schema directives
  show Reads _ _ _ (some { schema with directives }) anything
  rw [← hvalue]
  refine hoperations.manyChecked (fun _ => trivial) fun found => ?_
  dsimp only
  cases found.foldlM Reader.addOperation ⟨directives, none, none, none⟩ with
  | some schema => exact Reads.pure schema
  | none => exact Reads.throw _

end SchemaDefinition

namespace Definition

/-- What a definition is read back as. -/
def reread : Definition → Option Definition
  | .schema definition => definition.reread.map .schema
  | .type definition =>
    (rereadDescription 0 definition.description).bind fun description =>
      definition.toExtension.reread.map fun node =>
        .type { node.toDefinition with description }
  | .extension node => node.rereadExtending.map .extension
  | .directive definition =>
    (rereadDescription 0 definition.description).bind fun description =>
      (definition.rereadSignature description).map .directive

/-- Whether a token may be the first one of a definition. -/
def starting (token : Token) : Bool :=
  Reader.isText token || Reader.isKeyword "schema" token || Reader.isKeyword "extend" token ||
    Reader.isKeyword "directive" token || (Reader.kindOf token).isSome

/-- A definition starts with its description or with its keyword. -/
theorem startsWith (definition : Definition) : StartsWith starting definition.words := by
  have htext : ∀ token, Reader.isText token = true → starting token = true := by
    intro token h
    simp [starting, h]
  cases definition with
  | schema definition => exact ⟨_, _, rfl, by simp [starting, Reader.isKeyword]⟩
  | type definition =>
    refine startsWith_described htext ?_ 0 definition.description _
    simp [starting, TypeExtension.kindOf_keyword]
  | extension node => exact ⟨_, _, rfl, by simp [starting, Reader.isKeyword]⟩
  | directive definition =>
    exact startsWith_described htext (by simp [starting, Reader.isKeyword]) 0 definition.description _

theorem reads {definition : Definition} (h : definition.WellFormed) {size : Nat} :
    Reads size Reader.definition definition.words definition.reread (Avoids afterDefinition) := by
  -- No keyword is a text, so a description is none of the keywords that are asked for.
  have htext : ∀ (word : String) (token : Token), Reader.isText token = true →
      (!Reader.isKeyword word token) = true := by
    intro word token htoken
    cases token <;> first | rfl | cases htoken
  unfold Reader.definition
  cases definition with
  | schema definition =>
    refine Reads.present ⟨_, _, rfl, by simp [Reader.isKeyword]⟩ ?_
    exact ((SchemaDefinition.reads definition).follow_mono fun _ _ => trivial).map
  | extension node =>
    refine Reads.skip ⟨_, _, rfl, by simp [Reader.isKeyword]⟩ ?_
    refine Reads.present ⟨_, _, rfl, by simp [Reader.isKeyword]⟩ ?_
    exact ((TypeExtension.readsExtending h).follow_mono fun rest hrest =>
      hrest.mono (List.subset_append_right _ _)).map
  | directive definition =>
    refine Reads.skip (startsWith_described (htext _) (by decide) 0 _ _) ?_
    refine Reads.skip (startsWith_described (htext _) (by decide) 0 _ _) ?_
    refine (Reads.description 0 definition.description).bind (fun description _ => ?_) fun _ _ => rfl
    refine Reads.present ⟨_, _, rfl, by simp [Reader.isKeyword]⟩ ?_
    exact (DirectiveDefinition.reads h description).map
  | type definition =>
    have hkind : ∀ word ∈ ["schema", "extend", "directive"],
        (!Reader.isKeyword word (.name definition.body.kind.keyword)) = true := by
      cases definition.body.kind <;> decide
    refine Reads.skip (startsWith_described (htext _) (hkind _ (by simp)) 0 _ _) ?_
    refine Reads.skip (startsWith_described (htext _) (hkind _ (by simp)) 0 _ _) ?_
    refine (Reads.description 0 definition.description).bind (fun description _ => ?_) fun _ _ => rfl
    refine Reads.skip ⟨_, _, rfl, ?_⟩ ?_
    · rintro token ⟨⟩
      exact hkind "directive" (by simp)
    · exact ((TypeExtension.reads h).follow_mono fun rest hrest =>
        hrest.mono (List.subset_append_right _ _)).map

/-- The text of a definition is not blank. -/
theorem exists_visible (definition : Definition) :
    ∃ c ∈ definition.render.toList, isBlank c = false := by
  cases definition with
  | schema definition =>
    exact ⟨'s', by simp [render, SchemaDefinition.render], by decide⟩
  | extension node =>
    exact ⟨'e', by simp [render, TypeExtension.render], by decide⟩
  | directive definition =>
    exact ⟨'d', by simp [render, DirectiveDefinition.render], by decide⟩
  | type definition =>
    have hkeyword : definition.body.kind.keyword.toList.any (!isBlank ·) := by
      cases definition.body.kind <;> decide
    obtain ⟨c, hc, hvisible⟩ := List.any_eq_true.mp hkeyword
    refine ⟨c, ?_, by simpa using hvisible⟩
    simp [render, TypeDefinition.render, renderTypeNode, hc]

end Definition

/-! ## Documents -/

/-- Reads the definitions of a document. -/
def Reader.definitions : Reader (List Definition) := do
  let first ← definition
  return first :: (← many (fun _ => true) definition)

/-- A document is read by its definitions, and then the stream has to be complete. -/
theorem toOption_run_document (stream : Stream) :
    (Reader.document.run stream).toOption =
      (Reader.definitions.run stream).toOption.bind fun result =>
        if result.2.complete then some (⟨result.1⟩, result.2) else none := by
  have hdocument : Reader.document = Reader.definitions >>= fun found => do
      unless (← get).complete do Reader.refuse
      return ⟨found⟩ := by
    simp [Reader.document, Reader.definitions]
  rw [hdocument, toOption_run_bind]
  congr 1
  funext result
  have hget : ((get : Reader Stream).run result.2).toOption = some (result.2, result.2) := rfl
  rw [toOption_run_bind, hget, Option.bind_some]
  -- A stream that breaks off is refused at its end.
  cases result.2.complete with
  | true => rfl
  | false =>
    simp only [Bool.false_eq_true, if_false]
    rw [toOption_run_bind, toOption_run_refuse]
    rfl

theorem Reads.definitions {first : Definition} {rest : List Definition}
    (h : ∀ definition ∈ first :: rest, definition.WellFormed) {size : Nat} :
    Reads size Reader.definitions ((first :: rest).flatMap Definition.words)
      ((first :: rest).mapM Definition.reread) fun rest => rest = [] := by
  have hitems : ∀ size : Nat, ReadsItems size Reader.definition (fun _ => true) Definition.words
      Definition.reread (Avoids afterDefinition) (first :: rest) := fun _ => {
    reads := fun definition hmem => Definition.reads (h definition hmem)
    starts := fun definition _ => by
      obtain ⟨word, more, hwords, -⟩ := definition.startsWith
      exact ⟨word, more, hwords, fun _ _ => rfl⟩
    more := fun definition _ rest => (definition.startsWith.append rest).avoids (by decide) }
  rw [mapM_cons_eq, List.flatMap_cons]
  -- The definitions end with the text, and behind each of them there is another one or nothing.
  refine ((hitems size).reads first List.mem_cons_self).bind (fun found _ => ?_) ?_
  · refine Reads.map ((hitems _).tail.many ?_)
    rintro _ rfl
    exact ⟨rfl, Avoids.nil⟩
  · rintro _ rfl
    exact (hitems size).tail.separate Avoids.nil

namespace Document

/-- What a document is read back as. -/
def reread (document : Document) : Option Document :=
  (document.definitions.mapM Definition.reread).map Document.mk

theorem allBlank_print {document : Document} (h : document.definitions ≠ []) :
    allBlank document.print.toList = false := by
  obtain ⟨first, rest, hdefinitions⟩ := List.exists_cons_of_ne_nil h
  obtain ⟨c, hc, hvisible⟩ := first.exists_visible
  have hmem : c ∈ document.print.toList := by
    rw [print, separate, String.toList_intercalate, hdefinitions]
    cases rest with
    | nil => simpa using hc
    | cons second more => simp [List.intercalate_cons_cons, hc]
  rw [allBlank, List.all_eq_false]
  exact ⟨c, hmem, by simp [hvisible]⟩

/-- The text of a document whose words nest well is read definition by definition. -/
theorem parse_print {document : Document}
    (h : ∀ definition ∈ document.definitions, definition.WellFormed)
    (hnest : (nest 0 document.words).isSome) :
    (parse document.print).toOption = document.reread := by
  obtain ⟨definitions⟩ := document
  cases definitions with
  | nil => rfl
  | cons first rest =>
    -- The tokens of the text are the words, and readers go by nothing else.
    obtain ⟨hcomplete, hwords⟩ := (Stream.words_ofText (writes h)).2 hnest
    have hread := Reads.definitions h (Stream.ofText (print ⟨first :: rest⟩).toList) []
      (by rw [hwords, words, List.append_nil]) (Nat.le_refl _)
      (Nat.le_of_eq (Stream.bound_ofText _).symm) rfl
    have hrun : (parse (print ⟨first :: rest⟩)).toOption =
        (Reader.document.run
          (Stream.ofText (print ⟨first :: rest⟩).toList)).toOption.map Prod.fst := by
      rw [parse, allBlank_print (List.cons_ne_nil _ _)]
      cases Reader.document.run (Stream.ofText (print ⟨first :: rest⟩).toList) <;> rfl
    rw [hrun, toOption_run_document, hread, reread]
    cases (first :: rest).mapM Definition.reread with
    | none => rfl
    | some found => simp [hcomplete]

end Document

end SchemaAlgebra
