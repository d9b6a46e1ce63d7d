import SchemaAlgebra.Normalize
import SchemaAlgebra.Proofs.Literals

/-!
# The words of a document

For each sort of nodes the list of words that its written form is cut into, and the proof that it is.
The lists follow the printer part by part; a list of items is written between punctuators exactly if
it is not empty, which `enclosedWords` says once for all of them.

That a written form is cut into its words takes nothing but names that are names.  This is what
`WellFormed` says of each sort of nodes, and besides that a type reference has no non-null mark on
top of another.

## Main statements

* `Value.writes`, `Directive.writes`, …: the written form of a node is cut into its words.
* `Document.writes`: the same for the text of a whole document.
-/

namespace SchemaAlgebra

/-! ## Parts -/

/-- Items between two punctuators, or nothing if there are none. -/
def enclosedWords {α : Type} (opening closing : Punctuator) (wordsOf : α → List Word)
    (items : List α) : List Word :=
  if items.isEmpty then []
  else markWord opening :: (items.flatMap wordsOf ++ [markWord closing])

/-- Names with a punctuator between them. -/
def separatedWords (separator : Punctuator) : List String → List Word
  | [] => []
  | first :: rest => nameWord first :: rest.flatMap fun name => [markWord separator, nameWord name]

/-- Names with a punctuator between them behind some words, or nothing if there are none. -/
def ledWords (lead : List Word) (separator : Punctuator) (names : List String) : List Word :=
  if names.isEmpty then [] else lead ++ separatedWords separator names

namespace Writes

variable {α : Type} {text : List Char} {words : List Word}

/-- A name in front of a text. -/
theorem nameBefore {name : String} (hname : isName name) (hboundary : Boundary text)
    (h : Writes text words) : Writes (name.toList ++ text) (nameWord name :: words) :=
  (Writes.word (Lexes.name hname)).append hboundary h

/-- A text between two punctuators. -/
theorem enclose (first last : Char) {opening closing : Punctuator}
    (hopening : Token.punctuator? first = some opening)
    (hclosing : Token.punctuator? last = some closing) (h : Writes text words) :
    Writes (first :: (text ++ [last])) (markWord opening :: (words ++ [markWord closing])) := by
  have hends : endsToken last := by simp [endsToken, hclosing]
  exact .mark hopening (h.append (boundary_cons hends _) (.mark hclosing .nil))

theorem commaSeparated {piece : α → String} {wordsOf : α → List Word} {items : List α}
    (h : ∀ item ∈ items, Writes (piece item).toList (wordsOf item)) :
    Writes (separate ", " (items.map piece)).toList (items.flatMap wordsOf) := by
  rw [separate, String.toList_intercalate, List.map_map]
  cases items with
  | nil => exact .nil
  | cons first rest =>
    have hseparator : ∀ {text : List Char} {words : List Word}, Writes text words →
        Boundary (", ".toList ++ text) ∧ Writes (", ".toList ++ text) ([] ++ words) :=
      fun h => ⟨boundary_cons rfl _, (h.gap rfl).gap rfl⟩
    exact Writes.intercalate hseparator h

/-- Names with a punctuator between them, which stands between blanks. -/
theorem separated {c : Char} {separator : Punctuator}
    (hseparator : Token.punctuator? c = some separator) (between : String)
    (hbetween : between.toList = [' ', c, ' ']) {names : List String}
    (h : ∀ name ∈ names, isName name) :
    Writes (separate between names).toList (separatedWords separator names) := by
  rw [separate, String.toList_intercalate, hbetween]
  cases names with
  | nil => exact .nil
  | cons first rest =>
    have hmark : ∀ {text : List Char} {words : List Word}, Writes text words →
        Boundary ([' ', c, ' '] ++ text) ∧
          Writes ([' ', c, ' '] ++ text) ([markWord separator] ++ words) :=
      fun h => ⟨boundary_cons rfl _, (((h.gap rfl).mark hseparator).gap rfl)⟩
    exact Writes.intercalate hmark fun name hname => .word (.name (h name hname))

/-- Names behind a text that starts with a boundary, whatever follows it. -/
theorem led {c : Char} {separator : Punctuator}
    (hseparator : Token.punctuator? c = some separator) (between : String)
    (hbetween : between.toList = [' ', c, ' ']) {lead : String} {leadWords : List Word}
    (hlead : ∀ {text words}, Writes text words →
      Boundary (lead.toList ++ text) ∧ Writes (lead.toList ++ text) (leadWords ++ words))
    {names : List String} (h : ∀ name ∈ names, isName name) :
    let written := (if names.isEmpty then "" else lead ++ separate between names).toList
    Boundary written ∧ Writes written (ledWords leadWords separator names) := by
  unfold ledWords
  split
  · exact ⟨boundary_nil, .nil⟩
  · rw [String.toList_append]
    exact hlead (separated hseparator between hbetween h)

/-- A keyword between blanks. -/
theorem keywordBefore {keyword : String} (hkeyword : isName keyword) (lead : String)
    (hlead : lead.toList = ' ' :: (keyword.toList ++ [' '])) (h : Writes text words) :
    Boundary (lead.toList ++ text) ∧
      Writes (lead.toList ++ text) ([nameWord keyword] ++ words) := by
  have hname := nameBefore hkeyword (boundary_cons (c := ' ') rfl _) (h.gap rfl)
  rw [hlead]
  exact ⟨boundary_cons rfl _, by simpa using hname.gap (c := ' ') rfl⟩

/-- Items in parentheses. -/
theorem parens {piece : α → String} {wordsOf : α → List Word} {items : List α}
    (h : ∀ item ∈ items, Writes (piece item).toList (wordsOf item)) :
    let written := (if items.isEmpty then ""
      else "(" ++ separate ", " (items.map piece) ++ ")").toList
    Boundary written ∧ Writes written (enclosedWords .parenOpen .parenClose wordsOf items) := by
  unfold enclosedWords
  cases items with
  | nil => exact ⟨boundary_nil, .nil⟩
  | cons first rest =>
    have hwrites := (commaSeparated h).enclose '(' ')' rfl rfl
    simp only [List.isEmpty_cons, Bool.false_eq_true, if_false, String.toList_append]
    exact ⟨boundary_cons rfl _, hwrites⟩

/-- Lines between braces. -/
theorem braces {line : α → String} {wordsOf : α → List Word} {items : List α}
    (hboundary : ∀ item ∈ items, Boundary (line item).toList)
    (h : ∀ item ∈ items, Writes (line item).toList (wordsOf item)) :
    let written := (renderBraces (items.map line)).toList
    Boundary written ∧ Writes written (enclosedWords .braceOpen .braceClose wordsOf items) := by
  unfold enclosedWords renderBraces
  cases items with
  | nil => exact ⟨boundary_nil, .nil⟩
  | cons first rest =>
    have hlines := ((Writes.flatMap hboundary h).2.gap (c := '\n') rfl).enclose '{' '}' rfl rfl
    simp only [List.map_cons, List.isEmpty_cons, Bool.false_eq_true, if_false,
      String.toList_append, String.toList_join]
    refine ⟨boundary_cons rfl _, ?_⟩
    rw [← List.map_cons, List.flatMap_map]
    exact hlines.gap rfl

end Writes

/-! ## Values and types -/

namespace Value

/-- Induction on the nesting of a value. -/
@[induction_eliminator]
theorem nested_induction {motive : Value → Prop} (var : ∀ name, motive (.var name))
    (int : ∀ number, motive (.int number)) (float : ∀ number, motive (.float number))
    (string : ∀ text, motive (.string text)) (boolean : ∀ truth, motive (.boolean truth))
    (null : motive .null) (enum : ∀ name, motive (.enum name))
    (list : ∀ items, (∀ item ∈ items, motive item) → motive (.list items))
    (object : ∀ fields, (∀ field ∈ fields, motive field.2) → motive (.object fields))
    (value : Value) : motive value :=
  @Value.rec motive (fun items => ∀ item ∈ items, motive item)
    (fun fields => ∀ field ∈ fields, motive field.2) (fun field => motive field.2)
    var int float string boolean null enum list object
    (List.forall_mem_nil _) (fun _ _ hfirst hrest => List.forall_mem_cons.mpr ⟨hfirst, hrest⟩)
    (List.forall_mem_nil _) (fun _ _ hfirst hrest => List.forall_mem_cons.mpr ⟨hfirst, hrest⟩)
    (fun _ _ h => h) value

mutual

/-- The words of a value. -/
def words (column : Nat) : Value → List Word
  | .var name => [markWord .dollar, nameWord name]
  | .int number => [Token.number? (renderInt number).toList]
  | .float number => [floatWord number]
  | .string text => [textWord column text]
  | .boolean truth => [nameWord (if truth then "true" else "false")]
  | .null => [nameWord "null"]
  | .enum name => [nameWord name]
  | .list items => markWord .bracketOpen :: (itemsWords column items ++ [markWord .bracketClose])
  | .object fields => markWord .braceOpen :: (fieldsWords column fields ++ [markWord .braceClose])

/-- The words of the items of a list. -/
def itemsWords (column : Nat) : List Value → List Word
  | [] => []
  | item :: rest => item.words column ++ itemsWords column rest

/-- The words of the fields of an object. -/
def fieldsWords (column : Nat) : List (String × Value) → List Word
  | [] => []
  | (key, value) :: rest =>
    nameWord key :: markWord .colon :: value.words column ++ fieldsWords column rest

end

/-- The words of a field of an object, or of an argument of a directive. -/
def fieldWords (column : Nat) (field : String × Value) : List Word :=
  nameWord field.1 :: markWord .colon :: field.2.words column

theorem itemsWords_eq (column : Nat) (items : List Value) :
    itemsWords column items = items.flatMap (words column) := by
  induction items with
  | nil => rfl
  | cons item rest ih => rw [itemsWords, ih, List.flatMap_cons]

theorem fieldsWords_eq (column : Nat) (fields : List (String × Value)) :
    fieldsWords column fields = fields.flatMap (fieldWords column) := by
  induction fields with
  | nil => rfl
  | cons field rest ih => rw [fieldsWords, ih, List.flatMap_cons, fieldWords]

mutual

/-- The names in a value are names. -/
def WellFormed : Value → Prop
  | .var name | .enum name => isName name
  | .list items => ItemsWellFormed items
  | .object fields => FieldsWellFormed fields
  | _ => True

/-- The names in the items of a list are names. -/
def ItemsWellFormed : List Value → Prop
  | [] => True
  | item :: rest => item.WellFormed ∧ ItemsWellFormed rest

/-- The keys of an object are names, and so are the names in its fields. -/
def FieldsWellFormed : List (String × Value) → Prop
  | [] => True
  | (key, value) :: rest => (isName key ∧ value.WellFormed) ∧ FieldsWellFormed rest

end

theorem itemsWellFormed_iff {items : List Value} :
    ItemsWellFormed items ↔ ∀ item ∈ items, item.WellFormed := by
  induction items with
  | nil => simp [ItemsWellFormed]
  | cons item rest ih => rw [ItemsWellFormed, ih, List.forall_mem_cons]

theorem fieldsWellFormed_iff {fields : List (String × Value)} :
    FieldsWellFormed fields ↔ ∀ field ∈ fields, isName field.1 ∧ field.2.WellFormed := by
  induction fields with
  | nil => simp [FieldsWellFormed]
  | cons field rest ih => rw [FieldsWellFormed, ih, List.forall_mem_cons]

theorem writes_field {column : Nat} {field : String × Value} (hkey : isName field.1)
    (h : Writes (field.2.render column).toList (field.2.words column)) :
    Writes (field.1 ++ ": " ++ field.2.render column).toList (fieldWords column field) := by
  rw [String.toList_append, String.toList_append, List.append_assoc]
  exact .nameBefore hkey (boundary_cons rfl _) (.mark rfl (.gap rfl h))

/-- The written form of a value is cut into its words. -/
theorem writes (column : Nat) {value : Value} (h : value.WellFormed) :
    Writes (value.render column).toList (value.words column) := by
  induction value with
  | var name =>
    rw [render, String.toList_append]
    exact .mark rfl (.word (.name h))
  | int number => exact .word (.int number)
  | float number =>
    rw [render, String.toList_ofList]
    exact .word (.float number)
  | string text => exact .word (.text column text)
  | boolean truth =>
    have htruth : isName (if truth then "true" else "false") := by cases truth <;> decide
    exact .word (.name htruth)
  | null =>
    have hnull : isName "null" := by decide
    exact .word (.name hnull)
  | enum name => exact .word (.name h)
  | list items ih =>
    have hitems := itemsWellFormed_iff.mp h
    rw [render, words, renderItems_eq_map, itemsWords_eq, String.toList_append,
      String.toList_append, List.append_assoc]
    exact (Writes.commaSeparated fun item hitem => ih item hitem (hitems item hitem)).enclose
      '[' ']' rfl rfl
  | object fields ih =>
    have hfields := fieldsWellFormed_iff.mp h
    rw [render, words, renderFields_eq_map, fieldsWords_eq, String.toList_append,
      String.toList_append, List.append_assoc]
    have hpieces : ∀ field ∈ fields,
        Writes (field.1 ++ ": " ++ field.2.render column).toList (fieldWords column field) :=
      fun field hfield => writes_field (hfields field hfield).1
        (ih field hfield (hfields field hfield).2)
    exact (Writes.commaSeparated hpieces).enclose '{' '}' rfl rfl

end Value

namespace TypeRef

/-- The words of a type reference. -/
def words : TypeRef → List Word
  | .named name => [nameWord name]
  | .list element => markWord .bracketOpen :: (element.words ++ [markWord .bracketClose])
  | .nonNull inner => inner.words ++ [markWord .bang]

/-- Whether a reference has a non-null mark of its own. -/
def isNonNull : TypeRef → Bool
  | .nonNull _ => true
  | _ => false

/-- The name at the core of a reference is a name, and no non-null mark is on top of another. -/
def WellFormed : TypeRef → Prop
  | .named name => isName name
  | .list element => element.WellFormed
  | .nonNull inner => inner.isNonNull = false ∧ inner.WellFormed

theorem writes {reference : TypeRef} (h : reference.WellFormed) :
    Writes reference.render.toList reference.words := by
  induction reference with
  | named name => exact .word (.name h)
  | list element ih =>
    rw [render, String.toList_append, String.toList_append, List.append_assoc]
    exact (ih h).enclose '[' ']' rfl rfl
  | nonNull inner ih =>
    rw [render, String.toList_append]
    exact (ih h.2).append (boundary_cons rfl _) (.mark rfl .nil)

end TypeRef

/-! ## Directives and members -/

/-- The words of a description. -/
def descriptionWords (column : Nat) : Option String → List Word
  | none => []
  | some text => [textWord column text]

/-- A description on the line before a node. -/
theorem Writes.describedAbove (column : Nat) (description : Option String) {text : List Char}
    {words : List Word} (h : Writes text words) :
    Writes ((renderDescriptionAbove column description).toList ++ text)
      (descriptionWords column description ++ words) := by
  cases description with
  | none => exact h
  | some described =>
    have hdescribed := (Writes.word (.text column described)).append
      (boundary_cons (c := '\n') rfl _) (h.gap (c := '\n') rfl)
    simpa [renderDescriptionAbove, indentation, descriptionWords] using hdescribed.blanks column

/-- A description in front of a node. -/
theorem Writes.describedInline (column : Nat) (description : Option String) {text : List Char}
    {words : List Word} (h : Writes text words) :
    Writes ((renderDescriptionInline column description).toList ++ text)
      (descriptionWords column description ++ words) := by
  cases description with
  | none => exact h
  | some described =>
    have hdescribed := (Writes.word (.text column described)).append
      (boundary_cons (c := ' ') rfl _) (h.gap (c := ' ') rfl)
    simpa [renderDescriptionInline, descriptionWords] using hdescribed

/-- The words of a directive application. -/
def Directive.words (column : Nat) (directive : Directive) : List Word :=
  markWord .atSign :: nameWord directive.name ::
    enclosedWords .parenOpen .parenClose (Value.fieldWords column) directive.arguments

/-- The names in a directive application are names. -/
def Directive.WellFormed (directive : Directive) : Prop :=
  isName directive.name ∧ ∀ argument ∈ directive.arguments,
    isName argument.1 ∧ argument.2.WellFormed

theorem Directive.writes (column : Nat) {directive : Directive} (h : directive.WellFormed) :
    Writes (directive.render column).toList (directive.words column) := by
  have hpieces : ∀ argument ∈ directive.arguments,
      Writes (argument.1 ++ ": " ++ argument.2.render column).toList
        (Value.fieldWords column argument) := fun argument hargument =>
    Value.writes_field (h.2 argument hargument).1 (Value.writes column (h.2 argument hargument).2)
  obtain ⟨hboundary, hwrites⟩ := Writes.parens hpieces
  rw [Directive.render, Value.renderFields_eq_map, String.toList_append, String.toList_append,
    List.append_assoc]
  exact .mark rfl (.nameBefore h.1 hboundary hwrites)

/-- The words of the directives of a node. -/
def directivesWords (column : Nat) (directives : List Directive) : List Word :=
  directives.flatMap (Directive.words column)

theorem Writes.directives (column : Nat) {directives : List Directive}
    (h : ∀ directive ∈ directives, directive.WellFormed) :
    Boundary (renderDirectives column directives).toList ∧
      Writes (renderDirectives column directives).toList (directivesWords column directives) := by
  rw [renderDirectives, String.toList_join, List.flatMap_map]
  have hpiece : ∀ directive : Directive,
      (" " ++ directive.render column).toList = ' ' :: (directive.render column).toList :=
    fun directive => String.toList_append
  simp only [hpiece]
  exact Writes.flatMap (fun _ _ => boundary_cons rfl _)
    fun directive hmem => (Directive.writes column (h directive hmem)).gap rfl

/-- The words of a default value. -/
def defaultWords (column : Nat) : Option Value → List Word
  | none => []
  | some value => markWord .equals :: value.words column

/-- The written form of a default value, behind a type. -/
def renderDefault (column : Nat) : Option Value → String
  | none => ""
  | some value => " = " ++ value.render column

/-- With or without a default value, what follows a type starts with a boundary. -/
theorem Writes.defaultBefore (column : Nat) {defaultValue : Option Value}
    (hvalue : ∀ value, defaultValue = some value → value.WellFormed) {text : List Char}
    {words : List Word} (hboundary : Boundary text) (h : Writes text words) :
    Boundary ((renderDefault column defaultValue).toList ++ text) ∧
      Writes ((renderDefault column defaultValue).toList ++ text)
        (defaultWords column defaultValue ++ words) := by
  cases defaultValue with
  | none => exact ⟨hboundary, h⟩
  | some value =>
    have hwritten := (Value.writes column (hvalue value rfl)).append hboundary h
    rw [renderDefault, String.toList_append, List.append_assoc]
    exact ⟨boundary_cons rfl _, ((hwritten.gap (c := ' ') rfl).mark (c := '=') rfl).gap rfl⟩

namespace InputValue

/-- The words of an argument declaration or an input field. -/
def words (column : Nat) (input : InputValue) : List Word :=
  descriptionWords column input.description ++ nameWord input.name :: markWord .colon ::
    (input.type.words ++
      (defaultWords column input.defaultValue ++ directivesWords column input.directives))

/-- The names in an argument declaration or an input field are names. -/
structure WellFormed (input : InputValue) : Prop where
  name : isName input.name
  type : input.type.WellFormed
  defaultValue : ∀ value, input.defaultValue = some value → value.WellFormed
  directives : ∀ directive ∈ input.directives, directive.WellFormed

theorem writes (column : Nat) {input : InputValue} (h : input.WellFormed) :
    Writes (input.render column).toList (input.words column) := by
  obtain ⟨hboundary, hdirectives⟩ := Writes.directives column h.directives
  obtain ⟨hends, hrest⟩ := Writes.defaultBefore column h.defaultValue hboundary hdirectives
  have htype := (TypeRef.writes h.type).append hends hrest
  have hname := Writes.nameBefore h.name (boundary_cons (c := ':') rfl _)
    ((htype.gap (c := ' ') rfl).mark rfl)
  have hrender : input.render column = renderDescriptionInline column input.description ++
      input.name ++ ": " ++ input.type.render ++ renderDefault column input.defaultValue ++
      renderDirectives column input.directives := by
    rw [render]
    cases input.defaultValue <;> rfl
  simpa [hrender, words] using hname.describedInline column input.description

end InputValue

theorem Writes.arguments (column : Nat) {arguments : List InputValue}
    (h : ∀ argument ∈ arguments, argument.WellFormed) :
    Boundary (renderArguments column arguments).toList ∧
      Writes (renderArguments column arguments).toList
        (enclosedWords .parenOpen .parenClose (InputValue.words column) arguments) :=
  Writes.parens fun argument hmem => InputValue.writes column (h argument hmem)

namespace Field

/-- The words of an output field. -/
def words (column : Nat) (field : Field) : List Word :=
  descriptionWords column field.description ++ nameWord field.name ::
    (enclosedWords .parenOpen .parenClose (InputValue.words column) field.arguments ++
      markWord .colon :: (field.type.words ++ directivesWords column field.directives))

/-- The names in an output field are names. -/
structure WellFormed (field : Field) : Prop where
  name : isName field.name
  arguments : ∀ argument ∈ field.arguments, argument.WellFormed
  type : field.type.WellFormed
  directives : ∀ directive ∈ field.directives, directive.WellFormed

theorem writes (column : Nat) {field : Field} (h : field.WellFormed) :
    Writes (field.render column).toList (field.words column) := by
  obtain ⟨hboundary, hdirectives⟩ := Writes.directives column h.directives
  have hline := hdirectives.append (boundary_cons (c := '\n') rfl _) (Writes.nil.gap rfl)
  have htype := (TypeRef.writes h.type).append
    (hboundary.append (boundary_cons (c := '\n') rfl _)) hline
  obtain ⟨hparens, harguments⟩ := Writes.arguments column h.arguments
  have hsignature := harguments.append (boundary_cons (c := ':') rfl _)
    ((htype.gap (c := ' ') rfl).mark rfl)
  have hname := Writes.nameBefore h.name
    (hparens.append (boundary_cons (c := ':') rfl _)) hsignature
  simpa [render, words, indentation] using
    (hname.blanks column).describedAbove column field.description

end Field

namespace EnumValue

/-- The words of an enum value. -/
def words (column : Nat) (value : EnumValue) : List Word :=
  descriptionWords column value.description ++ nameWord value.name ::
    directivesWords column value.directives

/-- The names in an enum value are names. -/
structure WellFormed (value : EnumValue) : Prop where
  name : isName value.name
  directives : ∀ directive ∈ value.directives, directive.WellFormed

theorem writes (column : Nat) {value : EnumValue} (h : value.WellFormed) :
    Writes (value.render column).toList (value.words column) := by
  obtain ⟨hboundary, hdirectives⟩ := Writes.directives column h.directives
  have hname := Writes.nameBefore h.name hboundary hdirectives
  simpa [render, words] using hname.describedInline column value.description

end EnumValue

/-! ## Type nodes -/

/-- The words of the interfaces of a type. -/
def interfacesWords (interfaces : List String) : List Word :=
  ledWords [nameWord "implements"] .ampersand interfaces

/-- The words of the members of a union. -/
def unionWords (members : List String) : List Word :=
  ledWords [markWord .equals] .pipe members

theorem Writes.interfaces {interfaces : List String} (h : ∀ name ∈ interfaces, isName name) :
    Boundary (renderInterfaces interfaces).toList ∧
      Writes (renderInterfaces interfaces).toList (interfacesWords interfaces) := by
  have hkeyword : isName "implements" := by decide
  exact Writes.led (c := '&') rfl " & " rfl
    (fun h => Writes.keywordBefore hkeyword " implements " rfl h) h

theorem Writes.union {members : List String} (h : ∀ name ∈ members, isName name) :
    Boundary (if members.isEmpty then "" else " = " ++ separate " | " members).toList ∧
      Writes (if members.isEmpty then "" else " = " ++ separate " | " members).toList
        (unionWords members) := by
  have hequals : ∀ {text : List Char} {words : List Word}, Writes text words →
      Boundary (" = ".toList ++ text) ∧ Writes (" = ".toList ++ text) ([markWord .equals] ++ words) :=
    fun h => ⟨boundary_cons rfl _, ((h.gap (c := ' ') rfl).mark (c := '=') rfl).gap (c := ' ') rfl⟩
  exact Writes.led (c := '|') rfl " | " rfl hequals h

/-- A member on a line of its own. -/
theorem Writes.memberLine {text : String} {words : List Word} (h : Writes text.toList words) :
    Boundary (SchemaAlgebra.memberLine text).toList ∧
      Writes (SchemaAlgebra.memberLine text).toList words := by
  have hline := (h.append (boundary_cons (c := '\n') rfl _) (Writes.nil.gap rfl)).blanks indentWidth
  have htext : (SchemaAlgebra.memberLine text).toList =
      List.replicate indentWidth ' ' ++ (text.toList ++ ['\n']) := by
    simp [SchemaAlgebra.memberLine, indentation]
  rw [htext]
  exact ⟨boundary_cons (c := ' ') rfl _, by simpa using hline⟩

namespace TypeBody

/-- The words of the members of a type. -/
def memberWords : TypeBody → List Word
  | .scalar => []
  | .object _ fields | .interface _ fields =>
    enclosedWords .braceOpen .braceClose (Field.words indentWidth) fields
  | .union members => unionWords members
  | .enum values => enclosedWords .braceOpen .braceClose (EnumValue.words indentWidth) values
  | .inputObject fields =>
    enclosedWords .braceOpen .braceClose (InputValue.words indentWidth) fields

/-- The names of interfaces and members are names. -/
structure WellFormed (body : TypeBody) : Prop where
  interfaces : ∀ name ∈ body.interfaces, isName name
  outputFields : ∀ field ∈ body.outputFields, field.WellFormed
  unionMembers : ∀ name ∈ body.unionMembers, isName name
  enumValues : ∀ value ∈ body.enumValues, value.WellFormed
  inputFields : ∀ field ∈ body.inputFields, field.WellFormed

theorem writes_fields {fields : List Field} (h : ∀ field ∈ fields, field.WellFormed) :
    Boundary (renderBraces (fields.map (Field.render indentWidth))).toList ∧
      Writes (renderBraces (fields.map (Field.render indentWidth))).toList
        (enclosedWords .braceOpen .braceClose (Field.words indentWidth) fields) := by
  refine Writes.braces (fun field _ => ?_) fun field hmem => Field.writes indentWidth (h field hmem)
  -- Every line of a field starts with blanks, be it that of its description or its own.
  cases hdescription : field.description <;>
    simp [Field.render, renderDescriptionAbove, hdescription, indentation, indentWidth,
      List.replicate_succ, Boundary, endsToken, isGap]

theorem writes {body : TypeBody} (h : body.WellFormed) :
    Boundary body.renderMembers.toList ∧ Writes body.renderMembers.toList body.memberWords := by
  cases body with
  | scalar => exact ⟨boundary_nil, .nil⟩
  | object names fields => exact writes_fields h.outputFields
  | interface names fields => exact writes_fields h.outputFields
  | union members => exact Writes.union h.unionMembers
  | enum values =>
    have hline := fun value hmem =>
      Writes.memberLine (EnumValue.writes indentWidth (h.enumValues value hmem))
    exact Writes.braces (fun value hmem => (hline value hmem).1) fun value hmem => (hline value hmem).2
  | inputObject fields =>
    have hline := fun field hmem =>
      Writes.memberLine (InputValue.writes indentWidth (h.inputFields field hmem))
    exact Writes.braces (fun field hmem => (hline field hmem).1) fun field hmem => (hline field hmem).2

end TypeBody

namespace TypeExtension

/-- The words that a type definition and an extension have in common. -/
def words (node : TypeExtension) : List Word :=
  nameWord node.body.kind.keyword :: nameWord node.name ::
    (interfacesWords node.body.interfaces ++
      (directivesWords 0 node.directives ++ node.body.memberWords))

/-- The names in a type node are names. -/
structure WellFormed (node : TypeExtension) : Prop where
  name : isName node.name
  directives : ∀ directive ∈ node.directives, directive.WellFormed
  body : node.body.WellFormed

theorem writes {node : TypeExtension} (h : node.WellFormed) :
    Writes (renderTypeNode node.name node.directives node.body).toList node.words := by
  have hkeyword : isName node.body.kind.keyword := by
    cases node.body.kind <;> decide
  obtain ⟨hmembersEnd, hmembers⟩ := TypeBody.writes h.body
  obtain ⟨hdirectivesEnd, hdirectives⟩ := Writes.directives 0 h.directives
  obtain ⟨hinterfacesEnd, hinterfaces⟩ := Writes.interfaces h.body.interfaces
  have hnewline : Boundary ['\n'] := boundary_cons rfl _
  -- From the back: each part starts with a boundary if it is there at all.
  have hbody := hmembers.append hnewline (Writes.nil.gap rfl)
  have hmarked := hdirectives.append (hmembersEnd.append hnewline) hbody
  have hparts := hinterfaces.append (hdirectivesEnd.append (hmembersEnd.append hnewline)) hmarked
  have hname := Writes.nameBefore h.name
    (hinterfacesEnd.append (hdirectivesEnd.append (hmembersEnd.append hnewline))) hparts
  have hnode := Writes.nameBefore hkeyword (boundary_cons (c := ' ') rfl _) (hname.gap rfl)
  simpa [renderTypeNode, words] using hnode

end TypeExtension

/-! ## Definitions -/

namespace DirectiveDefinition

/-- The words of a directive definition behind its description. -/
def signatureWords (definition : DirectiveDefinition) : List Word :=
  nameWord "directive" :: markWord .atSign :: nameWord definition.name ::
    (enclosedWords .parenOpen .parenClose (InputValue.words 0) definition.arguments ++
      ((if definition.repeatable then [nameWord "repeatable"] else []) ++
        ledWords [nameWord "on"] .pipe (definition.locations.map Location.render)))

/-- The words of a directive definition. -/
def words (definition : DirectiveDefinition) : List Word :=
  descriptionWords 0 definition.description ++ definition.signatureWords

/-- The names in a directive definition are names. -/
structure WellFormed (definition : DirectiveDefinition) : Prop where
  name : isName definition.name
  arguments : ∀ argument ∈ definition.arguments, argument.WellFormed

/-- The locations that a directive is declared for. -/
theorem writes_locations (locations : List Location) :
    Boundary (if locations.isEmpty then ""
        else " on " ++ separate " | " (locations.map Location.render)).toList ∧
      Writes (if locations.isEmpty then ""
        else " on " ++ separate " | " (locations.map Location.render)).toList
        (ledWords [nameWord "on"] .pipe (locations.map Location.render)) := by
  have hnames : ∀ name ∈ locations.map Location.render, isName name := by
    intro name hname
    obtain ⟨location, -, rfl⟩ := List.mem_map.mp hname
    cases location <;> decide
  have hon : isName "on" := by decide
  have hled := Writes.led (c := '|') rfl " | " rfl
    (fun h => Writes.keywordBefore hon " on " rfl h) hnames
  rwa [List.isEmpty_map] at hled

/-- The mark that a directive may be repeated. -/
theorem writes_repeatable (repeatable : Bool) {text : List Char} {words : List Word}
    (hboundary : Boundary text) (h : Writes text words) :
    Boundary ((if repeatable then " repeatable" else "").toList ++ text) ∧
      Writes ((if repeatable then " repeatable" else "").toList ++ text)
        ((if repeatable then [nameWord "repeatable"] else []) ++ words) := by
  have hname : isName "repeatable" := by decide
  cases repeatable with
  | false => exact ⟨hboundary, h⟩
  | true => exact ⟨boundary_cons rfl _, (Writes.nameBefore hname hboundary h).gap (c := ' ') rfl⟩

theorem writes {definition : DirectiveDefinition} (h : definition.WellFormed) :
    Writes definition.render.toList definition.words := by
  have hdirective : isName "directive" := by decide
  have hnewline : Boundary ['\n'] := boundary_cons rfl _
  obtain ⟨hlocationsEnd, hlocations⟩ := writes_locations definition.locations
  obtain ⟨hargumentsEnd, harguments⟩ := Writes.arguments 0 h.arguments
  -- From the back: the locations, the mark that the directive may be repeated, the arguments.
  have hline := hlocations.append hnewline (Writes.nil.gap rfl)
  obtain ⟨hrepeatableEnd, hrepeatable⟩ :=
    writes_repeatable definition.repeatable (hlocationsEnd.append hnewline) hline
  have hname := Writes.nameBefore h.name (hargumentsEnd.append hrepeatableEnd)
    (harguments.append hrepeatableEnd hrepeatable)
  have hkeyword := Writes.nameBefore hdirective (boundary_cons (c := ' ') rfl _)
    ((hname.mark (c := '@') rfl).gap rfl)
  simpa [render, words, signatureWords, List.append_assoc] using
    hkeyword.describedAbove 0 definition.description

end DirectiveDefinition

namespace SchemaDefinition

/-- The operations of a schema definition with their root types, in the order they are written. -/
def operations (schema : SchemaDefinition) : List (String × String) :=
  (schema.query.map ("query", ·)).toList ++ (schema.mutation.map ("mutation", ·)).toList ++
    (schema.subscription.map ("subscription", ·)).toList

/-- The words of an operation with its root type. -/
def operationWords (operation : String × String) : List Word :=
  [nameWord operation.1, markWord .colon, nameWord operation.2]

/-- The words of a schema definition. -/
def words (schema : SchemaDefinition) : List Word :=
  nameWord "schema" :: (directivesWords 0 schema.directives ++
    markWord .braceOpen :: (schema.operations.flatMap operationWords ++ [markWord .braceClose]))

/-- The names in a schema definition are names. -/
structure WellFormed (schema : SchemaDefinition) : Prop where
  directives : ∀ directive ∈ schema.directives, directive.WellFormed
  operations : ∀ operation ∈ schema.operations, isName operation.2

theorem writes {schema : SchemaDefinition} (h : schema.WellFormed) :
    Writes schema.render.toList schema.words := by
  have hschema : isName "schema" := by decide
  have hnames : ∀ operation ∈ schema.operations, isName operation.1 := by
    intro operation hmem
    have hkeywords : isName "query" ∧ isName "mutation" ∧ isName "subscription" := by decide
    simp only [operations, List.mem_append, Option.mem_toList, Option.map_eq_some_iff] at hmem
    rcases hmem with (⟨_, -, rfl⟩ | ⟨_, -, rfl⟩) | ⟨_, -, rfl⟩
    · exact hkeywords.1
    · exact hkeywords.2.1
    · exact hkeywords.2.2
  have hlines : renderOperation "query" schema.query ++ renderOperation "mutation" schema.mutation ++
      renderOperation "subscription" schema.subscription =
        String.join (schema.operations.map fun operation =>
          memberLine (operation.1 ++ ": " ++ operation.2)) := by
    cases hq : schema.query <;> cases hm : schema.mutation <;> cases hs : schema.subscription <;>
      simp [operations, renderOperation, hq, hm, hs, String.join]
  have hline : ∀ operation ∈ schema.operations,
      Boundary (memberLine (operation.1 ++ ": " ++ operation.2)).toList ∧
        Writes (memberLine (operation.1 ++ ": " ++ operation.2)).toList
          (operationWords operation) := by
    intro operation hmem
    have htype := Writes.word (.name (h.operations operation hmem))
    have hname := Writes.nameBefore (hnames operation hmem) (boundary_cons (c := ':') rfl _)
      ((htype.gap (c := ' ') rfl).mark rfl)
    exact Writes.memberLine (by simpa [operationWords] using hname)
  have hoperations := (Writes.flatMap (fun operation hmem => (hline operation hmem).1)
    fun operation hmem => (hline operation hmem).2).2
  have hbraces := (hoperations.gap (c := '\n') rfl).enclose '{' '}' rfl rfl
  have hbody := hbraces.append (boundary_cons (c := '\n') rfl _) (Writes.nil.gap rfl)
  obtain ⟨hdirectivesEnd, hdirectives⟩ := Writes.directives 0 h.directives
  have hnode := Writes.nameBefore hschema (hdirectivesEnd.append (boundary_cons (c := ' ') rfl _))
    (hdirectives.append (boundary_cons (c := ' ') rfl _) (hbody.gap rfl))
  have hrender : schema.render = "schema" ++ renderDirectives 0 schema.directives ++ " \x7b\n" ++
      String.join (schema.operations.map fun operation =>
        memberLine (operation.1 ++ ": " ++ operation.2)) ++ "\x7d\n" := by
    rw [← hlines]
    simp only [render, String.append_assoc]
  simpa [hrender, words, String.toList_join, List.flatMap_map] using hnode

end SchemaDefinition

namespace Definition

/-- The words of a definition. -/
def words : Definition → List Word
  | .schema definition => definition.words
  | .type definition =>
    descriptionWords 0 definition.description ++ definition.toExtension.words
  | .extension node => nameWord "extend" :: node.words
  | .directive definition => definition.words

/-- The names in a definition are names. -/
def WellFormed : Definition → Prop
  | .schema definition => definition.WellFormed
  | .type definition => definition.toExtension.WellFormed
  | .extension node => node.WellFormed
  | .directive definition => definition.WellFormed

theorem writes {definition : Definition} (h : definition.WellFormed) :
    Writes definition.render.toList definition.words := by
  cases definition with
  | schema definition => exact SchemaDefinition.writes h
  | type definition =>
    have hnode := (TypeExtension.writes h).describedAbove 0 definition.description
    simpa [render, words, TypeDefinition.render, TypeDefinition.toExtension] using hnode
  | extension node =>
    have hextend : isName "extend" := by decide
    have hnode := Writes.nameBefore hextend (boundary_cons (c := ' ') rfl _)
      ((TypeExtension.writes h).gap rfl)
    simpa [render, words, TypeExtension.render] using hnode
  | directive definition => exact DirectiveDefinition.writes h

end Definition

namespace Document

/-- The words of a document. -/
def words (document : Document) : List Word := document.definitions.flatMap Definition.words

/-- The text of a document is cut into its words. -/
theorem writes {document : Document} (h : ∀ definition ∈ document.definitions, definition.WellFormed) :
    Writes document.print.toList document.words := by
  rw [print, separate, String.toList_intercalate, List.map_map, words]
  cases hdefinitions : document.definitions with
  | nil => exact .nil
  | cons first rest =>
    have hnewline : ∀ {text : List Char} {words : List Word}, Writes text words →
        Boundary ("\n".toList ++ text) ∧ Writes ("\n".toList ++ text) ([] ++ words) :=
      fun h => ⟨boundary_cons rfl _, h.gap rfl⟩
    exact Writes.intercalate hnewline fun definition hmem =>
      Definition.writes (h definition (hdefinitions ▸ hmem))

end Document

end SchemaAlgebra
