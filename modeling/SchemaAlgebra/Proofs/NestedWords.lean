import SchemaAlgebra.Proofs.Rereading

/-!
# How deep words nest

A text may nest brackets of all kinds together only so deep.  The written form of a node opens and
closes its own brackets, so it leaves the depth as it found it.  Hence the parts of a text can be
looked at one by one: a text nests well if each of its parts does at the depth where it stands.

## Main statements

* `Balanced.fits_append_iff`, `Balanced.fits_flatMap_iff`, `Balanced.fits_enclosedWords_iff`: texts
  and their parts.
* `Value.balanced`, `TypeRef.balanced`, `Directive.balanced`, …: the written forms of nodes.
-/

namespace SchemaAlgebra

/-- Words nest well at some depth and lead back to it. -/
def Fits (depth : Nat) (words : List Word) : Prop := nest depth words = some depth

/-- Words lead back to the depth where they start, if they nest well there. -/
def Balanced (words : List Word) : Prop :=
  ∀ depth inner, nest depth words = some inner → inner = depth

/-- Whether a token opens or closes something. -/
def Token.isBracket : Token → Bool
  | .punctuator .parenOpen | .punctuator .bracketOpen | .punctuator .braceOpen => true
  | .punctuator .parenClose | .punctuator .bracketClose | .punctuator .braceClose => true
  | _ => false

theorem depthAfter_of_isBracket_eq_false {token : Token} (h : token.isBracket = false) (depth : Nat) :
    Stream.depthAfter depth token = some depth := by
  unfold Token.isBracket at h
  split at h
  · cases h
  · cases h
  · cases h
  · cases h
  · cases h
  · cases h
  · unfold Stream.depthAfter
    split <;> first | rfl | simp_all

/-- Whether a word neither opens nor closes anything; a malformed one does not. -/
def Plain (word : Word) : Prop := ∀ token, word = some token → token.isBracket = false

/-- An opening punctuator and the one that closes it. -/
def Paired (opening closing : Punctuator) : Prop :=
  (∀ depth, Stream.depthAfter depth (.punctuator opening) =
    if depth < Stream.maxDepth then some (depth + 1) else none) ∧
  ∀ depth, Stream.depthAfter (depth + 1) (.punctuator closing) = some depth

theorem paired_parens : Paired .parenOpen .parenClose := ⟨fun _ => rfl, fun _ => rfl⟩

theorem paired_brackets : Paired .bracketOpen .bracketClose := ⟨fun _ => rfl, fun _ => rfl⟩

theorem paired_braces : Paired .braceOpen .braceClose := ⟨fun _ => rfl, fun _ => rfl⟩

theorem fits_nil (depth : Nat) : Fits depth [] := rfl

theorem fits_cons {token : Token} (h : token.isBracket = false) {depth : Nat} {words : List Word} :
    Fits depth (some token :: words) ↔ Fits depth words := by
  rw [Fits, nest, depthAfter_of_isBracket_eq_false h, Option.bind_some, Fits]

namespace Balanced

variable {α : Type} {word : Word} {words front back : List Word} {depth : Nat}
  {opening closing : Punctuator} {items : List α} {wordsOf : α → List Word}

theorem fits (h : Balanced words) (hnest : (nest depth words).isSome) : Fits depth words := by
  obtain ⟨inner, hinner⟩ := Option.isSome_iff_exists.mp hnest
  rw [Fits, hinner, h depth inner hinner]

theorem nil : Balanced [] := by
  rintro depth inner ⟨⟩
  rfl

theorem cons (hword : Plain word) (h : Balanced words) : Balanced (word :: words) := by
  intro depth inner hinner
  cases word with
  | none => cases hinner
  | some token =>
    rw [nest, depthAfter_of_isBracket_eq_false (hword token rfl)] at hinner
    exact h depth inner hinner

/-- A token that is no bracket in front of balanced words. -/
theorem token {token : Token} (htoken : token.isBracket = false) (h : Balanced words) :
    Balanced (some token :: words) := by
  refine h.cons ?_
  rintro _ ⟨⟩
  exact htoken

theorem append (hfront : Balanced front) (hback : Balanced back) : Balanced (front ++ back) := by
  intro depth inner hinner
  rw [nest_append] at hinner
  obtain ⟨middle, hmiddle, hrest⟩ := Option.bind_eq_some_iff.mp hinner
  rw [hback middle inner hrest, hfront depth middle hmiddle]

theorem flatMap (h : ∀ item ∈ items, Balanced (wordsOf item)) : Balanced (items.flatMap wordsOf) := by
  induction items with
  | nil => exact nil
  | cons item rest ih =>
    obtain ⟨hitem, hrest⟩ := List.forall_mem_cons.mp h
    exact hitem.append (ih hrest)

/-- What stands in brackets nests one deeper. -/
theorem nest_enclose (hpaired : Paired opening closing) (h : Balanced words) (depth : Nat) :
    nest depth (markWord opening :: (words ++ [markWord closing])) =
      if depth < Stream.maxDepth then (nest (depth + 1) words).map fun _ => depth else none := by
  rw [nest, hpaired.1]
  split
  · rw [Option.bind_some, nest_append]
    -- The words inside lead back to their own depth, one level above the brackets.
    cases hnest : nest (depth + 1) words with
    | none => rfl
    | some inner =>
      cases h _ _ hnest
      rw [Option.bind_some, nest, hpaired.2]
      rfl
  · rfl

theorem enclose (hpaired : Paired opening closing) (h : Balanced words) :
    Balanced (markWord opening :: (words ++ [markWord closing])) := by
  intro depth inner hinner
  rw [nest_enclose hpaired h] at hinner
  obtain ⟨-, hinner⟩ := Option.ite_none_right_eq_some.mp hinner
  obtain ⟨_, -, rfl⟩ := Option.map_eq_some_iff.mp hinner
  rfl

theorem enclosedWords (hpaired : Paired opening closing)
    (h : ∀ item ∈ items, Balanced (wordsOf item)) :
    Balanced (enclosedWords opening closing wordsOf items) := by
  unfold SchemaAlgebra.enclosedWords
  split
  · exact nil
  · exact (flatMap h).enclose hpaired

/-! ## Texts and their parts -/

theorem fits_append_iff (h : Balanced front) :
    Fits depth (front ++ back) ↔ Fits depth front ∧ Fits depth back := by
  unfold Fits
  rw [nest_append]
  cases hnest : nest depth front with
  | none => simp
  | some inner =>
    cases h _ _ hnest
    simp

theorem fits_flatMap_iff (h : ∀ item ∈ items, Balanced (wordsOf item)) :
    Fits depth (items.flatMap wordsOf) ↔ ∀ item ∈ items, Fits depth (wordsOf item) := by
  induction items with
  | nil => simp [fits_nil]
  | cons item rest ih =>
    obtain ⟨hitem, hrest⟩ := List.forall_mem_cons.mp h
    rw [List.flatMap_cons, hitem.fits_append_iff, ih hrest, List.forall_mem_cons]

theorem fits_enclose_iff (hpaired : Paired opening closing) (hdepth : depth < Stream.maxDepth)
    (h : Balanced words) :
    Fits depth (markWord opening :: (words ++ [markWord closing])) ↔ Fits (depth + 1) words := by
  rw [Fits, nest_enclose hpaired h, if_pos hdepth, Fits]
  cases hnest : nest (depth + 1) words with
  | none => simp
  | some inner =>
    cases h _ _ hnest
    simp

theorem fits_enclosedWords_iff (hpaired : Paired opening closing) (hdepth : depth < Stream.maxDepth)
    (h : ∀ item ∈ items, Balanced (wordsOf item)) :
    Fits depth (SchemaAlgebra.enclosedWords opening closing wordsOf items) ↔
      ∀ item ∈ items, Fits (depth + 1) (wordsOf item) := by
  cases items with
  | nil => simp [SchemaAlgebra.enclosedWords, fits_nil]
  | cons item rest =>
    rw [SchemaAlgebra.enclosedWords, if_neg (by simp), fits_enclose_iff hpaired hdepth (flatMap h),
      fits_flatMap_iff h]

end Balanced

/-! ## Names -/

/-- Names with a punctuator between them open and close nothing. -/
theorem fits_ledWords {lead : Token} (hlead : lead.isBracket = false) {separator : Punctuator}
    (hseparator : (Token.punctuator separator).isBracket = false) (names : List String) (depth : Nat) :
    Fits depth (ledWords [some lead] separator names) := by
  unfold ledWords
  cases names with
  | nil => exact fits_nil depth
  | cons first rest =>
    refine (fits_cons hlead).mpr ((fits_cons rfl).mpr ?_)
    rw [Balanced.fits_flatMap_iff fun _ _ => .token hseparator (.token rfl .nil)]
    exact fun name _ => (fits_cons hseparator).mpr ((fits_cons rfl).mpr (fits_nil depth))

theorem balanced_ledWords {lead : Token} (hlead : lead.isBracket = false) {separator : Punctuator}
    (hseparator : (Token.punctuator separator).isBracket = false) (names : List String) :
    Balanced (ledWords [some lead] separator names) := by
  intro depth inner hinner
  have hfits := fits_ledWords hlead hseparator names depth
  rw [Fits, hinner] at hfits
  exact Option.some.inj hfits

/-! ## Values and types -/

theorem plain_of_isSome_literal? {word : Word}
    (h : ∀ token, word = some token → token.literal?.isSome) : Plain word := by
  intro token htoken
  have hliteral := h token htoken
  cases token <;> first | rfl | cases hliteral

theorem plain_textWord (column : Nat) (text : String) : Plain (textWord column text) := by
  intro token htoken
  have htext := isText_of_textWord htoken
  cases token <;> first | rfl | cases htext

theorem Value.balanced_field {column : Nat} {field : String × Value}
    (h : Balanced (field.2.words column)) : Balanced (fieldWords column field) :=
  .token rfl (.token rfl h)

theorem Value.balanced (column : Nat) (value : Value) : Balanced (value.words column) := by
  induction value with
  | var name => exact .token rfl (.token rfl .nil)
  | int number =>
    exact .cons (plain_of_isSome_literal? fun _ => Token.isSome_literal?_of_number?) .nil
  | float number =>
    exact .cons (plain_of_isSome_literal? fun _ => Token.isSome_literal?_of_floatWord) .nil
  | string text => exact .cons (plain_textWord column text) .nil
  | boolean truth => exact .token rfl .nil
  | null => exact .token rfl .nil
  | enum name => exact .token rfl .nil
  | list items ih =>
    rw [words, itemsWords_eq]
    exact (Balanced.flatMap ih).enclose paired_brackets
  | object fields ih =>
    rw [words, fieldsWords_eq]
    exact (Balanced.flatMap fun field hfield => balanced_field (ih field hfield)).enclose paired_braces

theorem TypeRef.balanced (reference : TypeRef) : Balanced reference.words := by
  induction reference with
  | named name => exact .token rfl .nil
  | list element ih => exact ih.enclose paired_brackets
  | nonNull inner ih => exact ih.append (.token rfl .nil)

/-! ## Directives and members -/

theorem balanced_descriptionWords (column : Nat) (description : Option String) :
    Balanced (descriptionWords column description) := by
  cases description with
  | none => exact .nil
  | some text => exact .cons (plain_textWord column text) .nil

theorem balanced_defaultWords (column : Nat) (defaultValue : Option Value) :
    Balanced (defaultWords column defaultValue) := by
  cases defaultValue with
  | none => exact .nil
  | some value => exact .token rfl (value.balanced column)

theorem Directive.balanced (column : Nat) (directive : Directive) :
    Balanced (directive.words column) := by
  refine .token rfl (.token rfl (.enclosedWords paired_parens fun argument _ => ?_))
  exact Value.balanced_field (argument.2.balanced column)

theorem balanced_directivesWords (column : Nat) (directives : List Directive) :
    Balanced (directivesWords column directives) :=
  .flatMap fun directive _ => directive.balanced column

theorem InputValue.balanced (column : Nat) (input : InputValue) : Balanced (input.words column) := by
  refine (balanced_descriptionWords column _).append (.token rfl (.token rfl ?_))
  refine input.type.balanced.append ((balanced_defaultWords column _).append ?_)
  exact balanced_directivesWords column _

theorem Field.balanced (column : Nat) (field : Field) : Balanced (field.words column) := by
  refine (balanced_descriptionWords column _).append (.token rfl ?_)
  refine (Balanced.enclosedWords paired_parens fun argument _ => argument.balanced column).append ?_
  exact .token rfl (field.type.balanced.append (balanced_directivesWords column _))

theorem EnumValue.balanced (column : Nat) (value : EnumValue) : Balanced (value.words column) :=
  (balanced_descriptionWords column _).append (.token rfl (balanced_directivesWords column _))

/-! ## Definitions -/

theorem balanced_interfacesWords (interfaces : List String) : Balanced (interfacesWords interfaces) :=
  balanced_ledWords rfl rfl interfaces

theorem TypeBody.balanced (body : TypeBody) : Balanced body.memberWords := by
  cases body with
  | scalar => exact .nil
  | object _ fields => exact .enclosedWords paired_braces fun field _ => field.balanced indentWidth
  | interface _ fields => exact .enclosedWords paired_braces fun field _ => field.balanced indentWidth
  | union members => exact balanced_ledWords rfl rfl members
  | enum values => exact .enclosedWords paired_braces fun value _ => value.balanced indentWidth
  | inputObject fields => exact .enclosedWords paired_braces fun field _ => field.balanced indentWidth

theorem TypeExtension.balanced (node : TypeExtension) : Balanced node.words := by
  refine .token rfl (.token rfl ((balanced_interfacesWords _).append ?_))
  exact (balanced_directivesWords 0 _).append node.body.balanced

theorem DirectiveDefinition.balanced (definition : DirectiveDefinition) :
    Balanced definition.words := by
  have hrepeatable : Balanced (if definition.repeatable then [nameWord "repeatable"] else []) := by
    split
    · exact .token rfl .nil
    · exact .nil
  refine (balanced_descriptionWords 0 _).append (.token rfl (.token rfl (.token rfl ?_)))
  refine (Balanced.enclosedWords paired_parens fun argument _ => argument.balanced 0).append ?_
  exact hrepeatable.append (balanced_ledWords rfl rfl _)

theorem SchemaDefinition.balanced_operations (schema : SchemaDefinition) :
    Balanced (schema.operations.flatMap operationWords) :=
  .flatMap fun _ _ => .token rfl (.token rfl (.token rfl .nil))

theorem SchemaDefinition.balanced (schema : SchemaDefinition) : Balanced schema.words :=
  .token rfl ((balanced_directivesWords 0 _).append
    (schema.balanced_operations.enclose paired_braces))

theorem Definition.balanced (definition : Definition) : Balanced definition.words := by
  cases definition with
  | schema definition => exact definition.balanced
  | type definition =>
    exact (balanced_descriptionWords 0 _).append definition.toExtension.balanced
  | extension node => exact .token rfl node.balanced
  | directive definition => exact definition.balanced

end SchemaAlgebra
