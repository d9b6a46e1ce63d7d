import SchemaAlgebra.Proofs.Reading

/-!
# Reading members back

What the written forms of values, type references, directives and members are read back as.  A
type reference is read back as it was written.  A value need not be: a string may lose or change
characters, a number may change its sort, an enum value may be a word with a meaning of its own.
So `reread` says for each sort of nodes what comes back, if anything does, and `reads` that the
reader of this sort gives just that.

## Main statements

* `Value.reads`, `TypeRef.reads`: nested nodes, as deep as they may be.
* `Directive.reads`, `InputValue.reads`, `Field.reads`, `EnumValue.reads`: members and their parts.
-/

namespace SchemaAlgebra

/-! ## Literals -/

/-- The text that a token stands for. -/
def Token.text? : Token → Option String
  | .string value => some value
  | .block content => (Block.decode content).map String.ofList
  | _ => none

/-- The value that a token stands for which is neither a text nor part of a longer value. -/
def Token.literal? : Token → Option Value
  | .name word => some (Reader.namedValue word)
  | .int number => some (.int number)
  | .float number => some (.float number)
  | _ => none

/-- What a string is read back as. -/
def rereadText (column : Nat) (text : String) : Option String :=
  (textWord column text).bind Token.text?

theorem isText_of_textWord {column : Nat} {text : String} {token : Token}
    (h : textWord column text = some token) : Reader.isText token = true := by
  unfold textWord quotedWord at h
  split at h
  · cases h
    rfl
  · obtain ⟨read, -, rfl⟩ := Option.map_eq_some_iff.mp h
    rfl

/-- Whether a token is a number. -/
def Token.isNumber : Token → Bool
  | .int _ | .float _ => true
  | _ => false

/-- The text of a number is read as an integer that is small enough or as a floating-point number, if at
all. -/
theorem Token.of_number? {text : List Char} {token : Token} (h : number? text = some token) :
    (∃ number, intFits number ∧ token = .int number) ∨
      ∃ negative d, token = .float (.ofDecimal negative d) := by
  unfold Token.number? at h
  extract_lets isLetter read at h
  -- However the exponent is split off, what is read from the two parts is a number.
  have hread : ∀ parts, read parts = some token → (∃ number, intFits number ∧ token = .int number) ∨
      ∃ negative d, token = .float (.ofDecimal negative d) := by
    rintro ⟨mantissa, exponent⟩ hparts
    simp only [read] at hparts
    split at hparts
    · obtain ⟨_, -, hwhole⟩ := Option.bind_eq_some_iff.mp hparts
      obtain ⟨_, -, hfraction⟩ := Option.bind_eq_some_iff.mp hwhole
      obtain ⟨_, -, hfloat⟩ := Option.bind_eq_some_iff.mp hfraction
      cases hfloat
      exact .inr ⟨_, _, rfl⟩
    · obtain ⟨_, -, hwhole⟩ := Option.bind_eq_some_iff.mp hparts
      obtain ⟨_, -, hdigits⟩ := Option.bind_eq_some_iff.mp hwhole
      split at hdigits
      · cases hdigits
        exact .inr ⟨_, _, rfl⟩
      · obtain ⟨hfits, hint⟩ := Option.ite_none_right_eq_some.mp hdigits
        cases hint
        exact .inl ⟨_, hfits, rfl⟩
  split at h
  · exact hread (text, 0) h
  · dsimp only at h
    split at h
    · cases h
    · obtain ⟨exponent, -, hparts⟩ := Option.bind_eq_some_iff.mp h
      exact hread (text.take 1 ++ _, exponent) hparts

/-- The text of a number is read as a number, if at all. -/
theorem Token.isNumber_of_number? {text : List Char} {token : Token}
    (h : Token.number? text = some token) : token.isNumber := by
  rcases of_number? h with ⟨number, -, rfl⟩ | ⟨negative, d, rfl⟩
  · rfl
  · rfl

theorem Token.isSome_literal?_of_number? {text : List Char} {token : Token}
    (h : Token.number? text = some token) : token.literal?.isSome := by
  have hnumber := isNumber_of_number? h
  cases token <;> first | rfl | cases hnumber

theorem Token.isSome_literal?_of_floatWord {number : Binary64} {token : Token}
    (h : floatWord number = some token) : token.literal?.isSome := by
  unfold floatWord at h
  split at h
  · cases h
    rfl
  · exact isSome_literal?_of_number? h

/-! ## Texts -/

namespace Reads

variable {α : Type} {size : Nat} {follow : List Word → Prop}

theorem throw (cause : ParseError) :
    Reads size (throw cause : Reader α) [] none follow := fun _ _ _ _ _ _ => rfl

theorem refuse_bind {words : List Word} {β : Type} (next : β → Reader α) :
    Reads size (Reader.refuse >>= next) words none follow := by
  intro stream _ _ _ _ _
  rw [toOption_run_bind, toOption_run_refuse]
  rfl

theorem text (word : Word) : Reads size Reader.text [word] (word.bind Token.text?) anything := by
  intro stream rest hwords _ _ _
  rw [Reader.text, toOption_run_bind, toOption_run_take, hwords]
  rcases word with - | token
  · rfl
  · cases token with
    | block content =>
      -- A block string is a token whether or not it has a value.
      show _ = ((Block.decode content).map String.ofList).map _
      cases hdecode : Block.decode content <;> simp [hdecode] <;> rfl
    | _ => rfl

end Reads

/-! ## Values -/

namespace Value

mutual

/-- What a value is read back as.  A constant holds no variables. -/
def reread (constant : Bool) (column : Nat) : Value → Option Value
  | .var name => if constant then none else some (.var name)
  | .int number => (Token.number? (renderInt number).toList).bind Token.literal?
  | .float number => (floatWord number).bind Token.literal?
  | .string text => (rereadText column text).map .string
  | .boolean truth => some (.boolean truth)
  | .null => some .null
  | .enum name => some (Reader.namedValue name)
  | .list items => (rereadItems constant column items).map .list
  | .object fields => (rereadFields constant column fields).map .ofFields

/-- What the items of a list are read back as. -/
def rereadItems (constant : Bool) (column : Nat) : List Value → Option (List Value)
  | [] => some []
  | item :: rest =>
    (item.reread constant column).bind fun found =>
      (rereadItems constant column rest).map (found :: ·)

/-- What the fields of an object are read back as. -/
def rereadFields (constant : Bool) (column : Nat) :
    List (String × Value) → Option (List (String × Value))
  | [] => some []
  | (key, value) :: rest =>
    (value.reread constant column).bind fun found =>
      (rereadFields constant column rest).map ((key, found) :: ·)

end

/-- What a field of an object, or an argument of a directive, is read back as. -/
def rereadField (constant : Bool) (column : Nat) (field : String × Value) :
    Option (String × Value) :=
  (field.2.reread constant column).map fun found => (field.1, found)

variable {constant : Bool} {column : Nat}

theorem rereadItems_eq (items : List Value) :
    rereadItems constant column items = items.mapM (reread constant column) := by
  induction items with
  | nil => rfl
  | cons item rest ih => rw [mapM_cons_eq, rereadItems, ih]

theorem rereadFields_eq (fields : List (String × Value)) :
    rereadFields constant column fields = fields.mapM (rereadField constant column) := by
  induction fields with
  | nil => rfl
  | cons field rest ih =>
    rw [mapM_cons_eq, rereadFields, ih, rereadField]
    cases field.2.reread constant column <;> rfl

/-- A value starts with no closing punctuator. -/
theorem startsWith (value : Value) {closing : Punctuator}
    (hclosing : closing ≠ .dollar ∧ closing ≠ .bracketOpen ∧ closing ≠ .braceOpen) :
    StartsWith (!Reader.isMark closing ·) (value.words column) := by
  -- A literal is no punctuator at all.
  have hliteral : ∀ word : Word, (∀ token, word = some token → token.literal?.isSome) →
      StartsWith (!Reader.isMark closing ·) [word] := by
    refine fun word hword => ⟨word, [], rfl, fun token htoken => ?_⟩
    have hsome := hword token htoken
    cases token <;> first | rfl | cases hsome
  cases value with
  | var name => exact ⟨_, _, rfl, by simpa [Reader.isMark] using fun h => hclosing.1 h.symm⟩
  | int number => exact hliteral _ fun token => Token.isSome_literal?_of_number?
  | float number => exact hliteral _ fun token => Token.isSome_literal?_of_floatWord
  | string text =>
    refine ⟨_, _, rfl, fun token htoken => ?_⟩
    have htext := isText_of_textWord htoken
    cases token <;> first | rfl | cases htext
  | boolean truth => exact ⟨_, _, rfl, by simp [Reader.isMark]⟩
  | null => exact ⟨_, _, rfl, by simp [Reader.isMark]⟩
  | enum name => exact ⟨_, _, rfl, by simp [Reader.isMark]⟩
  | list items => exact ⟨_, _, rfl, by simpa [Reader.isMark] using fun h => hclosing.2.1 h.symm⟩
  | object fields => exact ⟨_, _, rfl, by simpa [Reader.isMark] using fun h => hclosing.2.2 h.symm⟩

theorem reads_of_succ {words : List Word} {result : Option Value} (hne : words ≠ [])
    (h : ∀ {size fuel}, size ≤ fuel + 1 →
      Reads size (Reader.valueUpTo constant (fuel + 1)) words result anything)
    {size fuel : Nat} (hfuel : size ≤ fuel) :
    Reads size (Reader.valueUpTo constant fuel) words result anything := by
  cases fuel with
  | zero => exact Reads.of_exhausted hne hfuel
  | succ fuel => exact h hfuel

theorem reads_literal {word : Word} (hword : ∀ token, word = some token → token.literal?.isSome)
    {size fuel : Nat} (hfuel : size ≤ fuel) :
    Reads size (Reader.valueUpTo constant fuel) [word] (word.bind Token.literal?) anything := by
  refine reads_of_succ (List.cons_ne_nil _ _) (fun _ => ?_) hfuel
  refine Reads.peek fun token htoken => ?_
  have hsome := hword token htoken
  subst htoken
  cases token with
  | name text => exact Reads.take _ _
  | int number => exact Reads.take _ _
  | float number => exact Reads.take _ _
  | string text => cases hsome
  | block content => cases hsome
  | punctuator mark => cases hsome

/-- A name is read as the value that it stands for. -/
theorem reads_name (name : String) {size fuel : Nat} (hfuel : size ≤ fuel) :
    Reads size (Reader.valueUpTo constant fuel) [nameWord name] (some (Reader.namedValue name))
      anything := by
  have hword : ∀ token, nameWord name = some token → token.literal?.isSome := by
    rintro token ⟨⟩
    rfl
  exact reads_literal hword hfuel

/-- A field of an object, or an argument of a directive, is read if its value is. -/
theorem reads_field {field : String × Value} {size : Nat} {reader : Reader Value}
    (h : Reads (size - 1 - 1) reader (field.2.words column) (field.2.reread constant column)
      anything) :
    Reads size
      (do
        let key ← Reader.name
        Reader.mark .colon
        return (key, ← reader))
      (fieldWords column field) (rereadField constant column field) anything :=
  (Reads.name field.1).bind
    (fun _ _ => (Reads.mark .colon).bind (fun _ _ => h.map) fun _ _ => trivial) fun _ _ => trivial

/-- A value is read as long as the fuel is enough for its words. -/
theorem reads_valueUpTo (value : Value) {size fuel : Nat} (hfuel : size ≤ fuel) :
    Reads size (Reader.valueUpTo constant fuel) (value.words column)
      (value.reread constant column) anything := by
  induction value generalizing size fuel with
  | var name =>
    refine reads_of_succ (List.cons_ne_nil _ _) (fun {size fuel} _ => ?_) hfuel
    refine Reads.peek fun token htoken => ?_
    cases htoken
    cases constant with
    | true =>
      -- A variable in a constant is refused at its mark.
      exact Reads.refuse_bind _
    | false =>
      exact (Reads.mark .dollar).bind (fun _ _ => (Reads.name name).map) fun _ _ => trivial
  | int number => exact reads_literal (fun _ => Token.isSome_literal?_of_number?) hfuel
  | float number => exact reads_literal (fun _ => Token.isSome_literal?_of_floatWord) hfuel
  | string text =>
    refine reads_of_succ (List.cons_ne_nil _ _) (fun {size fuel} _ => ?_) hfuel
    refine Reads.peek fun token htoken => ?_
    have htext := isText_of_textWord htoken
    have hread : Reads size (do return Value.string (← Reader.text)) [textWord column text]
        ((rereadText column text).map .string) anything := (Reads.text _).map
    cases token with
    | string _ => exact hread
    | block _ => exact hread
    | punctuator _ => cases htext
    | name _ => cases htext
    | int _ => cases htext
    | float _ => cases htext
  | boolean truth =>
    cases truth with
    | true => exact reads_name "true" hfuel
    | false => exact reads_name "false" hfuel
  | null => exact reads_name "null" hfuel
  | enum name => exact reads_name name hfuel
  | list items ih =>
    refine reads_of_succ (List.cons_ne_nil _ _) (fun {size fuel} hfuel => ?_) hfuel
    refine Reads.peek fun token htoken => ?_
    cases htoken
    -- The bracket is one of the tokens, so the fuel that is left is enough for the items.
    have hitems : ReadsItems (size - 1) (Reader.valueUpTo constant fuel)
        (!Reader.isMark .bracketClose ·) (words column) (reread constant column) anything items := {
      reads := fun item hitem => ih item hitem (Nat.sub_le_of_le_add hfuel)
      starts := fun item _ => item.startsWith (by decide)
      more := fun _ _ _ => trivial }
    rw [reread, itemsWords_eq, rereadItems_eq]
    exact (Reads.mark .bracketOpen).bind (fun _ _ => hitems.manyClosed (fun _ => trivial) Value.list)
      fun _ _ => trivial
  | object fields ih =>
    refine reads_of_succ (List.cons_ne_nil _ _) (fun {size fuel} hfuel => ?_) hfuel
    refine Reads.peek fun token htoken => ?_
    cases htoken
    have hfields : ReadsItems (size - 1)
        (do
          let key ← Reader.name
          Reader.mark .colon
          return (key, ← Reader.valueUpTo constant fuel))
        (!Reader.isMark .braceClose ·) (fieldWords column) (rereadField constant column) anything
        fields := {
      reads := fun field hfield => reads_field (ih field hfield (by omega))
      starts := fun field _ => ⟨_, _, rfl, by simp [Reader.isMark]⟩
      more := fun _ _ _ => trivial }
    rw [reread, fieldsWords_eq, rereadFields_eq]
    exact (Reads.mark .braceOpen).bind (fun _ _ => hfields.manyClosed (fun _ => trivial) Value.ofFields)
      fun _ _ => trivial

theorem reads (value : Value) {size : Nat} :
    Reads size (Reader.value constant) (value.words column) (value.reread constant column)
      anything := fun stream rest hwords _ hbound hrest =>
  value.reads_valueUpTo hbound stream rest hwords (Nat.le_refl _) hbound hrest

end Value

/-! ## Type references -/

namespace TypeRef

theorem words_ne_nil (reference : TypeRef) : reference.words ≠ [] := by
  cases reference <;> simp [words]

/-- Reads a type reference up to a non-null mark behind it. -/
def bare (fuel : Nat) : Reader TypeRef := do
  if ← Reader.next (Reader.isMark .bracketOpen) then
    Reader.mark .bracketOpen
    let element ← Reader.typeRefUpTo fuel
    Reader.mark .bracketClose
    return .list element
  else
    return .named (← Reader.name)

/-- Reads the non-null mark behind a reference, if there is one. -/
def marked (reference : TypeRef) : Reader TypeRef :=
  Reader.optional (Reader.isMark .bang) reference do
    Reader.mark .bang
    return .nonNull reference

theorem typeRefUpTo_succ (fuel : Nat) : Reader.typeRefUpTo (fuel + 1) = bare fuel >>= marked := by
  rw [Reader.typeRefUpTo, bare, bind_assoc]
  congr 1
  funext opens
  cases opens <;> simp [marked]

theorem reads_unmarked {reference : TypeRef} {size fuel : Nat}
    (h : Reads size (bare fuel) reference.words (some reference) anything) :
    Reads size (Reader.typeRefUpTo (fuel + 1)) reference.words (some reference)
      (Avoids [.punctuator .bang]) := by
  have habsent : ∀ found, Reads (size - reference.words.length) (marked found) [] (some found)
      (Avoids [.punctuator .bang]) :=
    fun found => Reads.absent (by simp [Reader.isMark]) found _
  have hread := h.bind (fun found _ => habsent found) fun _ _ => trivial
  rwa [List.append_nil, ← typeRefUpTo_succ] at hread

theorem reads_nonNull {reference : TypeRef} {size fuel : Nat}
    (h : Reads size (bare fuel) reference.words (some reference) anything) :
    Reads size (Reader.typeRefUpTo (fuel + 1)) (reference.words ++ [markWord .bang])
      (some (.nonNull reference)) anything := by
  have hstarts : StartsWith (Reader.isMark .bang) [markWord .bang] :=
    ⟨_, _, rfl, by simp [Reader.isMark]⟩
  have hmarked : ∀ found, Reads (size - reference.words.length) (marked found) [markWord .bang]
      (some (.nonNull found)) anything :=
    fun found => Reads.optional hstarts found ((Reads.mark .bang).map)
  rw [typeRefUpTo_succ]
  exact h.bind (fun found _ => hmarked found) fun _ _ => trivial

/-- A reference is read as it is, and up to its last mark.  The second part is about what comes
before a mark. -/
theorem reads_both {reference : TypeRef} (h : reference.WellFormed) :
    (∀ {size fuel : Nat}, size ≤ fuel → Reads size (Reader.typeRefUpTo fuel) reference.words
        (some reference) (Avoids [.punctuator .bang])) ∧
      (reference.isNonNull = false → ∀ {size fuel : Nat}, size ≤ fuel + 1 →
        Reads size (bare fuel) reference.words (some reference) anything) := by
  -- Without fuel there are no tokens left.
  have hfueled : ∀ {reference : TypeRef}, (∀ {size fuel : Nat}, size ≤ fuel + 1 →
        Reads size (Reader.typeRefUpTo (fuel + 1)) reference.words (some reference)
          (Avoids [.punctuator .bang])) →
      ∀ {size fuel : Nat}, size ≤ fuel → Reads size (Reader.typeRefUpTo fuel) reference.words
        (some reference) (Avoids [.punctuator .bang]) := by
    intro reference hreads size fuel hfuel
    cases fuel with
    | zero => exact Reads.of_exhausted reference.words_ne_nil hfuel
    | succ fuel => exact hreads hfuel
  induction reference with
  | named name =>
    have hopens : ∀ token, nameWord name = some token →
        Reader.isMark .bracketOpen token = false := by
      rintro token ⟨⟩
      rfl
    have hbare : ∀ {size fuel : Nat}, Reads size (bare fuel) [nameWord name]
        (some (.named name)) anything := Reads.next hopens (Reads.name name).map
    exact ⟨hfueled fun _ => reads_unmarked hbare, fun _ _ _ _ => hbare⟩
  | list element ih =>
    have hbare : ∀ {size fuel : Nat}, size ≤ fuel + 1 →
        Reads size (bare fuel) (list element).words (some (.list element)) anything := by
      intro size fuel hfuel
      have helement : Reads (size - 1) (Reader.typeRefUpTo fuel) element.words (some element)
          (Avoids [.punctuator .bang]) := (ih h).1 (Nat.sub_le_of_le_add hfuel)
      have hclose : ∀ found, Reads (size - 1 - element.words.length) (do
            Reader.mark .bracketClose
            return TypeRef.list found) [markWord .bracketClose] (some (.list found)) anything :=
        fun found => (Reads.mark .bracketClose).map
      have hinner := helement.bind (fun found _ => hclose found)
        fun rest _ => Avoids.cons (by simp) rest
      have hopens : ∀ token, markWord .bracketOpen = some token →
          Reader.isMark .bracketOpen token = true := by
        rintro token ⟨⟩
        rfl
      exact Reads.next hopens ((Reads.mark .bracketOpen).bind (fun _ _ => hinner) fun _ _ => trivial)
    exact ⟨hfueled fun hfuel => reads_unmarked (hbare hfuel), fun _ _ _ hfuel => hbare hfuel⟩
  | nonNull inner ih =>
    refine ⟨hfueled fun hfuel => ?_, fun hbare => absurd hbare (by simp [isNonNull])⟩
    exact (reads_nonNull ((ih h.2).2 h.1 hfuel)).follow_mono fun _ _ => trivial

theorem reads {reference : TypeRef} (h : reference.WellFormed) {size : Nat} :
    Reads size Reader.typeRef reference.words (some reference) (Avoids [.punctuator .bang]) :=
  fun stream rest hwords _ hbound hrest =>
    (reads_both h).1 hbound stream rest hwords (Nat.le_refl _) hbound hrest

end TypeRef

/-! ## Directives and members -/

/-- What a description is read back as. -/
def rereadDescription (column : Nat) : Option String → Option (Option String)
  | none => some none
  | some text => (rereadText column text).map some

/-- A description is read if no other text follows. -/
theorem Reads.description (column : Nat) (description : Option String) {size : Nat} :
    Reads size Reader.description (descriptionWords column description)
      (rereadDescription column description)
      (fun rest => rest.head?.join.any Reader.isText = false) := by
  cases description with
  | none => exact Reads.optional_absent Reader.isText none _
  | some text =>
    have hstarts : StartsWith Reader.isText [textWord column text] :=
      ⟨_, _, rfl, fun _ => isText_of_textWord⟩
    have hread : Reads size (some <$> Reader.text) [textWord column text]
        ((rereadText column text).map some) anything := by
      have hmap : (some <$> Reader.text : Reader (Option String)) =
          (do return some (← Reader.text)) := map_eq_pure_bind _ _
      rw [hmap]
      exact (Reads.text _).map
    exact (Reads.optional hstarts none hread).follow_mono fun _ _ => trivial

/-- The marks that go on with the directives of a node. -/
def afterDirectives : List Token := [.punctuator .atSign, .punctuator .parenOpen]

/-- What a directive application is read back as. -/
def Directive.reread (column : Nat) (directive : Directive) : Option Directive :=
  (directive.arguments.mapM (Value.rereadField false column)).map fun arguments =>
    ⟨directive.name, arguments⟩

theorem Directive.reads (column : Nat) (directive : Directive) {size : Nat} :
    Reads size Reader.directive (directive.words column) (directive.reread column)
      (Avoids [.punctuator .parenOpen]) := by
  have harguments : ∀ {size : Nat}, ReadsItems size Reader.argument
      (!Reader.isMark .parenClose ·) (Value.fieldWords column) (Value.rereadField false column)
      anything directive.arguments := {
    reads := fun argument _ => Value.reads_field argument.2.reads
    starts := fun argument _ => ⟨_, _, rfl, by simp [Reader.isMark]⟩
    more := fun _ _ _ => trivial }
  unfold Reader.directive Directive.words Directive.reread
  refine (Reads.mark .atSign).followed ?_ fun _ _ => trivial
  refine (Reads.name directive.name).followed ?_ fun _ _ => trivial
  exact (harguments.enclosed? fun _ => trivial).map

theorem Reads.directives (column : Nat) (directives : List Directive) {size : Nat} :
    Reads size Reader.directives (directivesWords column directives)
      (directives.mapM (Directive.reread column)) (Avoids afterDirectives) := by
  have hitems : ReadsItems size Reader.directive (Reader.isMark .atSign)
      (Directive.words column) (Directive.reread column) (Avoids [.punctuator .parenOpen])
      directives := {
    reads := fun directive _ => directive.reads column
    starts := fun directive _ => ⟨_, _, rfl, by simp [Reader.isMark]⟩
    more := fun directive _ rest => Avoids.cons (by simp) _ }
  exact hitems.many fun rest hrest =>
    ⟨hrest.any_eq_false (by simp [Reader.isMark, afterDirectives]),
      hrest.mono (by simp [afterDirectives])⟩

theorem avoids_directivesWords {tokens : List Token} (h : .punctuator .atSign ∉ tokens)
    (column : Nat) (directives : List Directive) :
    Avoids tokens (directivesWords column directives) := by
  cases directives with
  | nil => exact Avoids.nil
  | cons directive rest =>
    refine Avoids.cons (fun token hmem heq => h ?_) _
    rwa [Option.some.inj heq]

theorem avoids_defaultWords {tokens : List Token} (h : .punctuator .equals ∉ tokens)
    (column : Nat) (defaultValue : Option Value) :
    Avoids tokens (defaultWords column defaultValue) := by
  cases defaultValue with
  | none => exact Avoids.nil
  | some value =>
    refine Avoids.cons (fun token hmem heq => h ?_) _
    rwa [Option.some.inj heq]

/-- What a default value is read back as. -/
def rereadDefault (column : Nat) : Option Value → Option (Option Value)
  | none => some none
  | some value => (value.reread true column).map some

/-- The marks that go on with an argument declaration or an input field. -/
def afterInput : List Token := [.punctuator .bang, .punctuator .equals] ++ afterDirectives

namespace InputValue

/-- What an argument declaration or an input field is read back as. -/
def reread (column : Nat) (input : InputValue) : Option InputValue :=
  (rereadDescription column input.description).bind fun description =>
    (rereadDefault column input.defaultValue).bind fun defaultValue =>
      (input.directives.mapM (Directive.reread column)).map fun directives =>
        { input with description, defaultValue, directives }

theorem reads_default (column : Nat) (defaultValue : Option Value) {size : Nat} :
    Reads size
      (Reader.optional (Reader.isMark .equals) none do
        Reader.mark .equals
        return some (← Reader.value true))
      (defaultWords column defaultValue) (rereadDefault column defaultValue)
      (Avoids [.punctuator .equals]) := by
  cases defaultValue with
  | none => exact Reads.absent (by simp [Reader.isMark]) none _
  | some value =>
    have hstarts : StartsWith (Reader.isMark .equals) (defaultWords column (some value)) :=
      ⟨_, _, rfl, by simp [Reader.isMark]⟩
    refine (Reads.optional hstarts none ?_).follow_mono fun _ _ => trivial
    exact (Reads.mark .equals).followed value.reads.map fun _ _ => trivial

theorem reads (column : Nat) {input : InputValue} (h : input.WellFormed) {size : Nat} :
    Reads size Reader.inputValue (input.words column) (input.reread column)
      (Avoids afterInput) := by
  unfold Reader.inputValue words reread
  refine (Reads.description column input.description).bind (fun description _ => ?_) fun _ _ => rfl
  refine (Reads.name input.name).followed ?_ fun _ _ => trivial
  refine (Reads.mark .colon).followed ?_ fun _ _ => trivial
  have hafter : ∀ {tokens : List Token} {rest : List Word}, .punctuator .atSign ∉ tokens →
      tokens ⊆ afterInput → Avoids afterInput rest →
      Avoids tokens (directivesWords column input.directives ++ rest) :=
    fun hsign hsub hrest => (avoids_directivesWords hsign column _).append (hrest.mono hsub)
  refine (TypeRef.reads h.type).followed ?_ ?_
  -- Neither a default value nor directives need to be there, so the type may be last.
  · refine (reads_default column input.defaultValue).bind (fun defaultValue _ => ?_)
      fun rest => hafter (by simp) (by simp [afterInput])
    exact ((Reads.directives column input.directives).follow_mono fun rest hrest =>
      hrest.mono (by simp [afterInput])).map
  · intro rest hrest
    rw [List.append_assoc]
    exact (avoids_defaultWords (by simp) column _).append
      (hafter (by simp) (by simp [afterInput]) hrest)

end InputValue

/-- What may start with a description starts as a description or as what comes behind it. -/
theorem startsWith_described {starts : Token → Bool}
    (htext : ∀ token, Reader.isText token = true → starts token = true) {name : String}
    (hname : starts (.name name) = true) (column : Nat) (description : Option String)
    (rest : List Word) :
    StartsWith starts (descriptionWords column description ++ nameWord name :: rest) := by
  cases description with
  | none =>
    refine ⟨_, _, rfl, ?_⟩
    rintro token ⟨⟩
    exact hname
  | some text => exact ⟨_, _, rfl, fun token htoken => htext token (isText_of_textWord htoken)⟩

/-- Whether a token is a text or a name. -/
def startsNode (token : Token) : Bool := Reader.isText token || (Reader.nameOf token).isSome

/-- A node starts with its description or its name. -/
theorem startsWith_node (column : Nat) (description : Option String) (name : String)
    (rest : List Word) :
    StartsWith startsNode (descriptionWords column description ++ nameWord name :: rest) := by
  refine startsWith_described (fun token htext => ?_) rfl column description rest
  rw [startsNode, htext]
  rfl

theorem StartsWith.notMark {words : List Word} (h : StartsWith startsNode words)
    (closing : Punctuator) : StartsWith (!Reader.isMark closing ·) words := by
  obtain ⟨word, rest, rfl, hword⟩ := h
  refine ⟨word, rest, rfl, fun token htoken => ?_⟩
  have hstarts := hword token htoken
  cases token <;> first | rfl | cases hstarts

theorem StartsWith.avoids {starts : Token → Bool} {words : List Word} (h : StartsWith starts words)
    {tokens : List Token} (htokens : ∀ token ∈ tokens, starts token = false) :
    Avoids tokens words := by
  obtain ⟨word, rest, rfl, hword⟩ := h
  refine Avoids.cons (fun token hmem heq => ?_) rest
  have hstarts := hword token heq
  rw [htokens token hmem] at hstarts
  exact Bool.false_ne_true hstarts

/-- Argument declarations or input fields up to a closing punctuator. -/
theorem readsItems_inputValue (column : Nat) (closing : Punctuator) {inputs : List InputValue}
    (h : ∀ input ∈ inputs, input.WellFormed) {size : Nat} :
    ReadsItems size Reader.inputValue (!Reader.isMark closing ·) (InputValue.words column)
      (InputValue.reread column) (Avoids afterInput) inputs where
  reads input hmem := InputValue.reads column (h input hmem)
  starts input _ := (startsWith_node column _ _ _).notMark closing
  more input _ rest := ((startsWith_node column _ _ _).append rest).avoids (by decide)

theorem Reads.arguments (column : Nat) {arguments : List InputValue}
    (h : ∀ argument ∈ arguments, argument.WellFormed) {size : Nat} :
    Reads size (Reader.enclosed? .parenOpen .parenClose Reader.inputValue)
      (enclosedWords .parenOpen .parenClose (InputValue.words column) arguments)
      (arguments.mapM (InputValue.reread column)) (Avoids [.punctuator .parenOpen]) :=
  (readsItems_inputValue column .parenClose h).enclosed? fun _ => Avoids.cons (by decide) _

/-- The marks that go on with an output field. -/
def afterField : List Token := .punctuator .bang :: afterDirectives

namespace Field

/-- What an output field is read back as. -/
def reread (column : Nat) (field : Field) : Option Field :=
  (rereadDescription column field.description).bind fun description =>
    (field.arguments.mapM (InputValue.reread column)).bind fun arguments =>
      (field.directives.mapM (Directive.reread column)).map fun directives =>
        { field with description, arguments, directives }

theorem reads (column : Nat) {field : Field} (h : field.WellFormed) {size : Nat} :
    Reads size Reader.field (field.words column) (field.reread column) (Avoids afterField) := by
  unfold Reader.field words reread
  refine (Reads.description column field.description).bind (fun description _ => ?_) fun _ _ => rfl
  refine (Reads.name field.name).followed ?_ fun _ _ => trivial
  refine (Reads.arguments column h.arguments).bind (fun arguments _ => ?_)
    fun _ _ => Avoids.cons (by decide) _
  refine (Reads.mark .colon).followed ?_ fun _ _ => trivial
  refine (TypeRef.reads h.type).followed ?_ fun rest hrest =>
    (avoids_directivesWords (by simp) column _).append (hrest.mono (by simp [afterField]))
  exact ((Reads.directives column field.directives).follow_mono fun rest hrest =>
    hrest.mono (by simp [afterField])).map

end Field

namespace EnumValue

/-- What an enum value is read back as. -/
def reread (column : Nat) (value : EnumValue) : Option EnumValue :=
  (rereadDescription column value.description).bind fun description =>
    (value.directives.mapM (Directive.reread column)).map fun directives =>
      { value with description, directives }

theorem reads (column : Nat) (value : EnumValue) {size : Nat} :
    Reads size Reader.enumValue (value.words column) (value.reread column)
      (Avoids afterDirectives) := by
  unfold Reader.enumValue words reread
  refine (Reads.description column value.description).bind (fun description _ => ?_) fun _ _ => rfl
  refine (Reads.name value.name).followed ?_ fun _ _ => trivial
  exact (Reads.directives column value.directives).map

end EnumValue

end SchemaAlgebra
