import SchemaAlgebra.Proofs.KeptTexts
import SchemaAlgebra.Proofs.Legibility
import SchemaAlgebra.Proofs.RereadNumbers

/-!
# Nodes that are read back

Of a node that stands in a text, everything comes back but some of its leaves: the strings,
descriptions among them, and the floating-point numbers.  So a node comes back as a whole exactly if
each of its leaves is kept.

This does not hold of every node.  A node of a text has its names from tokens, and so no enum value is
called `true`; the fields of its objects are sorted by key; its integers are small enough; and it does
not nest deeper than a text may.  `Form.RestsOn` says of a node that its leaves decide, and the lemmas
here take it from the parts of a node to the node.

## Main statements

* `Value.restsOn_list`, `Value.restsOn_ofFields`, `InputValue.restsOn`, `Field.restsOn`, …: nodes and
  their parts.
* `Definition.settled_type`, `Definition.settled_extension`, …: definitions and their parts.
-/

namespace SchemaAlgebra

/-! ## Leaves -/

namespace Value

mutual

/-- The values in a value that are neither lists nor objects. -/
def leaves : Value → List Value
  | .list items => itemsLeaves items
  | .object fields => fieldsLeaves fields
  | value => [value]

/-- The leaves of the items of a list. -/
def itemsLeaves : List Value → List Value
  | [] => []
  | item :: rest => item.leaves ++ itemsLeaves rest

/-- The leaves of the fields of an object. -/
def fieldsLeaves : List (String × Value) → List Value
  | [] => []
  | (_, value) :: rest => value.leaves ++ fieldsLeaves rest

end

/-- The leaves of a field of an object, or of an argument of a directive. -/
def fieldLeaves (field : String × Value) : List Value := field.2.leaves

theorem itemsLeaves_eq (items : List Value) : itemsLeaves items = items.flatMap leaves := by
  induction items with
  | nil => rfl
  | cons item rest ih => rw [itemsLeaves, ih, List.flatMap_cons]

theorem fieldsLeaves_eq (fields : List (String × Value)) :
    fieldsLeaves fields = fields.flatMap fieldLeaves := by
  induction fields with
  | nil => rfl
  | cons field rest ih => rw [fieldsLeaves, ih, List.flatMap_cons, fieldLeaves]

/-- A leaf that comes back from its written form, given that it stood in a text.  Strings and
floating-point numbers may be lost, other leaves are not. -/
def Keeps : Value → Prop
  | .string text => TextKeeps text
  | .float number => number.hasFraction
  | _ => True

instance (leaf : Value) : Decidable leaf.Keeps :=
  match leaf with
  | .string text => inferInstanceAs (Decidable (TextKeeps text))
  | .float number => inferInstanceAs (Decidable (number.hasFraction = true))
  | .var _ | .int _ | .boolean _ | .null | .enum _ | .list _ | .object _ =>
    inferInstanceAs (Decidable True)

end Value

/-- A description is a string. -/
def descriptionLeaves (description : Option String) : List Value :=
  (description.map Value.string).toList

/-- The leaves of a directive application. -/
def Directive.leaves (directive : Directive) : List Value :=
  directive.arguments.flatMap Value.fieldLeaves

/-- The leaves of a default value. -/
def defaultLeaves (defaultValue : Option Value) : List Value :=
  (defaultValue.map Value.leaves).getD []

/-- The leaves of an argument declaration or an input field. -/
def InputValue.leaves (input : InputValue) : List Value :=
  descriptionLeaves input.description ++ defaultLeaves input.defaultValue ++
    input.directives.flatMap Directive.leaves

/-- The leaves of an output field. -/
def Field.leaves (field : Field) : List Value :=
  descriptionLeaves field.description ++ field.arguments.flatMap InputValue.leaves ++
    field.directives.flatMap Directive.leaves

/-- The leaves of an enum value. -/
def EnumValue.leaves (value : EnumValue) : List Value :=
  descriptionLeaves value.description ++ value.directives.flatMap Directive.leaves

/-- The leaves of the members of a type. -/
def TypeBody.leaves (body : TypeBody) : List Value :=
  body.outputFields.flatMap Field.leaves ++ body.enumValues.flatMap EnumValue.leaves ++
    body.inputFields.flatMap InputValue.leaves

/-- The leaves of a type node. -/
def TypeExtension.leaves (node : TypeExtension) : List Value :=
  node.directives.flatMap Directive.leaves ++ node.body.leaves

/-- The leaves of a top-level definition. -/
def Definition.leaves : Definition → List Value
  | .schema definition => definition.directives.flatMap Directive.leaves
  | .type definition =>
    descriptionLeaves definition.description ++ definition.toExtension.leaves
  | .extension node => node.leaves
  | .directive definition =>
    descriptionLeaves definition.description ++ definition.arguments.flatMap InputValue.leaves

/-- The leaves of a document: its descriptions and the values in it that are neither lists nor
objects. -/
def Document.leaves (document : Document) : List Value :=
  document.definitions.flatMap Definition.leaves

/-! ## Nodes that rest on their leaves -/

namespace Form

variable {ι : Type} {form : Form ι} {depth : Nat} {node : ι} {nodes : List ι}
  {leaves : ι → List Value}

/-- A node can be written where brackets nest to some depth, and is read back as it was. -/
def Returns (form : Form ι) (depth : Nat) (node : ι) : Prop :=
  Fits depth (form.words node) ∧ form.reread node = some node

/-- A node comes back exactly if its leaves do. -/
def RestsOn (form : Form ι) (leaves : ι → List Value) (depth : Nat) (node : ι) : Prop :=
  form.Returns depth node ↔ ∀ leaf ∈ leaves node, leaf.Keeps

theorem RestsOn.iff (h : form.RestsOn leaves depth node) :
    form.Returns depth node ↔ ∀ leaf ∈ leaves node, leaf.Keeps := h

theorem legible_iff_returns :
    form.Legible depth node ↔ form.WellFormed node ∧ form.Returns depth node :=
  ⟨fun h => ⟨h.wellFormed, h.fits, h.reread⟩, fun h => ⟨h.1, h.2.1, h.2.2⟩⟩

/-- Nodes one after the other. -/
def list (form : Form ι) : Form (List ι) where
  WellFormed nodes := ∀ node ∈ nodes, form.WellFormed node
  words nodes := nodes.flatMap form.words
  reread nodes := nodes.mapM form.reread
  balanced _ := .flatMap fun node _ => form.balanced node

theorem list_returns_iff :
    form.list.Returns depth nodes ↔
      (∀ node ∈ nodes, Fits depth (form.words node)) ∧ ∀ node ∈ nodes, form.reread node = some node :=
  and_congr (Balanced.fits_flatMap_iff fun node _ => form.balanced node) mapM_eq_self_iff

theorem returns_list_iff :
    form.list.Returns depth nodes ↔ ∀ node ∈ nodes, form.Returns depth node :=
  list_returns_iff.trans forall₂_and.symm

theorem RestsOn.list (h : ∀ node ∈ nodes, form.RestsOn leaves depth node) :
    form.list.RestsOn (·.flatMap leaves) depth nodes := by
  rw [RestsOn, returns_list_iff, List.forall_mem_flatMap]
  exact forall₂_congr h

/-- Nodes between brackets, which are left out where there is nothing to put between them. -/
def enclosed (form : Form ι) {opening closing : Punctuator} (hpaired : Paired opening closing) :
    Form (List ι) where
  WellFormed nodes := ∀ node ∈ nodes, form.WellFormed node
  words nodes := enclosedWords opening closing form.words nodes
  reread nodes := nodes.mapM form.reread
  balanced _ := .enclosedWords hpaired fun node _ => form.balanced node

/-- Where there are nodes, the brackets around them do not nest too deep. -/
theorem RestsOn.enclosed {opening closing : Punctuator} (hpaired : Paired opening closing)
    (h : ∀ node ∈ nodes, depth < Stream.maxDepth ∧ form.RestsOn leaves (depth + 1) node) :
    (form.enclosed hpaired).RestsOn (·.flatMap leaves) depth nodes := by
  cases nodes with
  | nil => exact iff_of_true ⟨fits_nil depth, rfl⟩ (List.forall_mem_nil _)
  | cons first rest =>
    have hdepth : depth < Stream.maxDepth := (h first List.mem_cons_self).1
    have hfits : Fits depth (enclosedWords opening closing form.words (first :: rest)) ↔
        Fits (depth + 1) ((first :: rest).flatMap form.words) :=
      (Balanced.fits_enclosedWords_iff hpaired hdepth fun node _ => form.balanced node).trans
        (Balanced.fits_flatMap_iff fun node _ => form.balanced node).symm
    exact (and_congr hfits Iff.rfl).trans (RestsOn.list fun node hmem => (h node hmem).2)

end Form

/-! ## Values -/

/-- A word that neither opens nor closes anything fits anywhere, unless it is malformed. -/
theorem fits_word_iff {word : Word} (hplain : Plain word) {depth : Nat} :
    Fits depth [word] ↔ word.isSome := by
  cases word with
  | none => simp [Fits, nest]
  | some token => simpa using (fits_cons (hplain token rfl)).mpr (fits_nil depth)

/-- What stands in brackets nests one deeper, and there is a limit to that. -/
theorem Balanced.fits_brackets_iff {opening closing : Punctuator} {words : List Word}
    (hpaired : Paired opening closing) (h : Balanced words) {depth : Nat} :
    Fits depth (markWord opening :: (words ++ [markWord closing])) ↔
      depth < Stream.maxDepth ∧ Fits (depth + 1) words := by
  by_cases hdepth : depth < Stream.maxDepth
  · rw [fits_enclose_iff hpaired hdepth h]
    exact (and_iff_right hdepth).symm
  · rw [Fits, nest_enclose hpaired h, if_neg hdepth]
    simp [hdepth]

namespace Value

variable {constant : Bool} {column depth : Nat}

/-- Values in lines that start at a column. -/
def form (constant : Bool) (column : Nat) : Form Value :=
  ⟨WellFormed, words column, reread constant column, balanced column⟩

/-- Fields of objects and arguments of directives. -/
def fieldForm (constant : Bool) (column : Nat) : Form (String × Value) :=
  ⟨fun field => isName field.1 ∧ field.2.WellFormed, fieldWords column, rereadField constant column,
    fun field => balanced_field (field.2.balanced column)⟩

/-- A value whose leaves are kept comes back, and no other. -/
def RestsOnLeaves (constant : Bool) (column depth : Nat) (value : Value) : Prop :=
  (form constant column).RestsOn leaves depth value

/-- A value that is one word. -/
theorem returns_word_iff {value : Value} {word : Word} (hwords : value.words column = [word])
    (hplain : Plain word) (hword : value.reread constant column = some value → word.isSome) :
    (form constant column).Returns depth value ↔ value.reread constant column = some value := by
  show Fits depth (value.words column) ∧ value.reread constant column = some value ↔ _
  rw [hwords, fits_word_iff hplain]
  exact and_iff_right_of_imp hword

theorem restsOn_var (name : String) : RestsOnLeaves false column depth (.var name) :=
  iff_of_true ⟨(fits_cons rfl).mpr ((fits_cons rfl).mpr (fits_nil depth)), rfl⟩
    (List.forall_mem_singleton.mpr trivial)

theorem restsOn_string (text : String) : RestsOnLeaves constant column depth (.string text) := by
  have hreread : (string text).reread constant column = some (.string text) ↔
      rereadText column text = some text := by
    show (rereadText column text).map Value.string = some (.string text) ↔ _
    cases rereadText column text <;> simp
  have hword : (string text).reread constant column = some (.string text) →
      (textWord column text).isSome := by
    rw [hreread, rereadText]
    intro h
    obtain ⟨token, htoken, -⟩ := Option.bind_eq_some_iff.mp h
    rw [htoken]
    rfl
  rw [RestsOnLeaves, Form.RestsOn, returns_word_iff rfl (plain_textWord column text) hword, hreread,
    rereadText_eq_self_iff]
  simp [leaves, Keeps]

/-- A leaf whose word is read as it stands. -/
theorem returns_literal_iff {value : Value} {word : Word} (hwords : value.words column = [word])
    (hliteral : ∀ token, word = some token → token.literal?.isSome)
    (hreread : value.reread constant column = word.bind Token.literal?) :
    (form constant column).Returns depth value ↔ word.bind Token.literal? = some value := by
  rw [returns_word_iff hwords (plain_of_isSome_literal? hliteral), hreread]
  rw [hreread]
  intro h
  obtain ⟨token, htoken, -⟩ := Option.bind_eq_some_iff.mp h
  rw [htoken]
  rfl

theorem restsOn_float {number : Binary64} (h : number.IsRead) :
    RestsOnLeaves constant column depth (.float number) := by
  rw [RestsOnLeaves, Form.RestsOn,
    returns_literal_iff rfl (fun _ => Token.isSome_literal?_of_floatWord) rfl, Binary64.reads_render_iff h]
  simp [leaves, Keeps]

theorem restsOn_int {number : Int} (h : Token.intFits number) :
    RestsOnLeaves constant column depth (.int number) := by
  have hread : Token.number? (renderInt number).toList = some (.int number) := by
    rw [Token.number?_renderInt, if_pos h]
  refine iff_of_true ?_ (List.forall_mem_singleton.mpr trivial)
  rw [returns_literal_iff rfl (fun _ => Token.isSome_literal?_of_number?) rfl, hread]
  rfl

/-- A name is a value that comes back, because it is not one of the words with a meaning of their own
if it is an enum value. -/
theorem restsOn_namedValue (name : String) :
    RestsOnLeaves constant column depth (Reader.namedValue name) := by
  have hword : ∀ {value : Value} {text : String}, value.words column = [nameWord text] →
      value.reread constant column = some value → value.leaves = [value] → value.Keeps →
      RestsOnLeaves constant column depth value := by
    intro value text hwords hreread hleaves hkeeps
    refine iff_of_true ⟨?_, hreread⟩ (by rw [hleaves]; exact List.forall_mem_singleton.mpr hkeeps)
    show Fits depth (value.words column)
    rw [hwords]
    exact (fits_cons rfl).mpr (fits_nil depth)
  unfold Reader.namedValue
  split
  · exact hword rfl rfl rfl trivial
  · exact hword rfl rfl rfl trivial
  · exact hword rfl rfl rfl trivial
  · next htrue hfalse hnull =>
    refine hword rfl ?_ rfl trivial
    rw [reread, Reader.namedValue]
    · exact htrue
    · exact hfalse
    · exact hnull

theorem returns_list_iff {items : List Value} :
    (form constant column).Returns depth (.list items) ↔
      depth < Stream.maxDepth ∧ ∀ item ∈ items, (form constant column).Returns (depth + 1) item := by
  have hbalanced : Balanced (items.flatMap (words column)) :=
    .flatMap fun item _ => item.balanced column
  have hreread : (list items).reread constant column = some (.list items) ↔
      items.mapM (reread constant column) = some items := by
    rw [reread, rereadItems_eq]
    cases items.mapM (reread constant column) <;> simp
  rw [← Form.returns_list_iff]
  show Fits depth ((list items).words column) ∧ _ ↔ _
  rw [words, itemsWords_eq, hbalanced.fits_brackets_iff paired_brackets, and_assoc]
  exact and_congr_right fun _ => and_congr_right fun _ => hreread

theorem restsOn_list (hdepth : depth < Stream.maxDepth) {items : List Value}
    (h : ∀ item ∈ items, RestsOnLeaves constant column (depth + 1) item) :
    RestsOnLeaves constant column depth (.list items) := by
  rw [RestsOnLeaves, Form.RestsOn, returns_list_iff, and_iff_right hdepth, leaves, itemsLeaves_eq,
    List.forall_mem_flatMap]
  exact forall₂_congr h

/-! ### Objects -/

/-- Fields with increasing keys. -/
def Increasing (fields : List (String × Value)) : Prop :=
  fields.Pairwise fun field other => field.1 < other.1

theorem Increasing.insertField {fields : List (String × Value)} (h : Increasing fields) (key : String)
    (value : Value) : Increasing (insertField key value fields) := by
  induction fields with
  | nil => exact List.pairwise_singleton _ _
  | cons first rest ih =>
    obtain ⟨hfirst, hrest⟩ := List.pairwise_cons.mp h
    unfold Value.insertField
    split
    · next hless =>
      have hmore : ∀ other ∈ first :: rest, key < other.1 :=
        List.forall_mem_cons.mpr ⟨hless, fun other hmem => String.lt_trans hless (hfirst other hmem)⟩
      exact List.pairwise_cons.mpr ⟨hmore, h⟩
    · split
      · next hsame =>
        exact List.pairwise_cons.mpr ⟨fun other hmem => hsame ▸ hfirst other hmem, hrest⟩
      · next hnotLess hdifferent =>
        have hgreater : first.1 < key :=
          ((Std.lt_trichotomy key first.1).resolve_left hnotLess).resolve_left hdifferent
        exact List.pairwise_cons.mpr ⟨forall_mem_insertField hgreater hfirst, ih hrest⟩

/-- A field with a larger key than the others comes last. -/
theorem insertField_eq_append {fields : List (String × Value)} {key : String}
    (h : ∀ field ∈ fields, field.1 < key) (value : Value) :
    insertField key value fields = fields ++ [(key, value)] := by
  induction fields with
  | nil => rfl
  | cons first rest ih =>
    obtain ⟨hfirst, hrest⟩ := List.forall_mem_cons.mp h
    have hdifferent : ¬key = first.1 := by
      rintro rfl
      exact String.lt_irrefl _ hfirst
    rw [insertField, if_neg (String.lt_asymm hfirst), if_neg hdifferent, ih hrest]
    rfl

theorem ofFields_eq_self {fields : List (String × Value)} (h : Increasing fields) :
    ofFields fields = .object fields := by
  have hall : ∀ sorted rest, Increasing (sorted ++ rest) →
      rest.foldl (fun acc field => insertField field.1 field.2 acc) sorted = sorted ++ rest := by
    intro sorted rest hincreasing
    induction rest generalizing sorted with
    | nil => exact (List.append_nil sorted).symm
    | cons field more ih =>
      have hbefore : ∀ other ∈ sorted, other.1 < field.1 := fun other hmem =>
        (List.pairwise_append.mp hincreasing).2.2 other hmem field List.mem_cons_self
      rw [List.foldl_cons, insertField_eq_append hbefore, ih, List.append_assoc, List.singleton_append]
      rwa [List.append_assoc]
  exact congrArg Value.object (hall [] fields h)

/-- An object has increasing keys, and its fields are among those that it was made of. -/
theorem exists_ofFields {property : String × Value → Prop} {fields : List (String × Value)}
    (h : ∀ field ∈ fields, property field) :
    ∃ sorted, ofFields fields = .object sorted ∧ Increasing sorted ∧
      ∀ field ∈ sorted, property field := by
  have hall : ∀ sorted, Increasing sorted → (∀ field ∈ sorted, property field) →
      Increasing (fields.foldl (fun acc field => insertField field.1 field.2 acc) sorted) ∧
        ∀ field ∈ fields.foldl (fun acc field => insertField field.1 field.2 acc) sorted,
          property field := by
    induction fields with
    | nil => exact fun _ hincreasing hsorted => ⟨hincreasing, hsorted⟩
    | cons first rest ih =>
      obtain ⟨hfirst, hrest⟩ := List.forall_mem_cons.mp h
      exact fun sorted hincreasing hsorted =>
        ih hrest _ (hincreasing.insertField _ _) (forall_mem_insertField hfirst hsorted)
  exact ⟨_, rfl, hall [] List.Pairwise.nil (List.forall_mem_nil _)⟩

theorem Increasing.reread {fields found : List (String × Value)} (h : Increasing fields)
    (hfound : fields.mapM (rereadField constant column) = some found) : Increasing found := by
  have hkeys : found.map Prod.fst = fields.map Prod.fst := by
    clear h
    induction fields generalizing found with
    | nil =>
      cases hfound
      rfl
    | cons field rest ih =>
      rw [mapM_cons_eq] at hfound
      obtain ⟨first, hfirst, hrest⟩ := Option.bind_eq_some_iff.mp hfound
      obtain ⟨others, hothers, rfl⟩ := Option.map_eq_some_iff.mp hrest
      obtain ⟨value, -, rfl⟩ := Option.map_eq_some_iff.mp hfirst
      rw [List.map_cons, List.map_cons, ih hothers]
  rw [Increasing, ← List.pairwise_map (R := (· < ·)), hkeys, List.pairwise_map]
  exact h

/-- Fields keep their keys, so an object that comes back has fields that do. -/
theorem returns_object_iff {fields : List (String × Value)} (hincreasing : Increasing fields) :
    (form constant column).Returns depth (.object fields) ↔
      depth < Stream.maxDepth ∧
        ∀ field ∈ fields, (fieldForm constant column).Returns (depth + 1) field := by
  have hbalanced : Balanced (fields.flatMap (fieldWords column)) :=
    .flatMap fun field _ => balanced_field (field.2.balanced column)
  have hreread : (object fields).reread constant column = some (.object fields) ↔
      fields.mapM (rereadField constant column) = some fields := by
    rw [reread, rereadFields_eq]
    constructor
    · intro h
      obtain ⟨found, hfound, hobject⟩ := Option.map_eq_some_iff.mp h
      rw [ofFields_eq_self (hincreasing.reread hfound)] at hobject
      cases hobject
      exact hfound
    · intro h
      rw [h, Option.map_some, ofFields_eq_self hincreasing]
  rw [← Form.returns_list_iff]
  show Fits depth ((object fields).words column) ∧ _ ↔ _
  rw [words, fieldsWords_eq, hbalanced.fits_brackets_iff paired_braces, and_assoc]
  exact and_congr_right fun _ => and_congr_right fun _ => hreread

theorem returns_field_iff {field : String × Value} :
    (fieldForm constant column).Returns depth field ↔ (form constant column).Returns depth field.2 := by
  have hreread : rereadField constant column field = some field ↔
      field.2.reread constant column = some field.2 := by
    obtain ⟨key, value⟩ := field
    rw [rereadField]
    cases reread constant column value <;> simp
  show Fits depth (fieldWords column field) ∧ _ ↔ _
  rw [fieldWords, fits_cons rfl, fits_cons rfl]
  exact and_congr_right fun _ => hreread

theorem restsOn_field {field : String × Value} (h : RestsOnLeaves constant column depth field.2) :
    (fieldForm constant column).RestsOn fieldLeaves depth field := returns_field_iff.trans h

theorem restsOn_ofFields (hdepth : depth < Stream.maxDepth) {fields : List (String × Value)}
    (h : ∀ field ∈ fields, RestsOnLeaves constant column (depth + 1) field.2) :
    RestsOnLeaves constant column depth (.ofFields fields) := by
  obtain ⟨sorted, hobject, hincreasing, hsorted⟩ :=
    exists_ofFields fun field hmem => restsOn_field (h field hmem)
  rw [hobject, RestsOnLeaves, Form.RestsOn, returns_object_iff hincreasing, and_iff_right hdepth,
    leaves, fieldsLeaves_eq, List.forall_mem_flatMap]
  exact forall₂_congr hsorted

end Value

/-! ## Directives and members -/

section Members

variable {column depth : Nat}

/-- The arguments of a directive application are all that may be lost of it. -/
theorem Directive.restsOn {directive : Directive}
    (h : ∀ argument ∈ directive.arguments,
      depth < Stream.maxDepth ∧ Value.RestsOnLeaves false column (depth + 1) argument.2) :
    (form column).RestsOn leaves depth directive := by
  have hfits : Fits depth (directive.words column) ↔ Fits depth
      (((Value.fieldForm false column).enclosed paired_parens).words directive.arguments) := by
    rw [Directive.words, fits_cons rfl, fits_cons rfl]
    exact Iff.rfl
  have hreread : directive.reread column = some directive ↔
      directive.arguments.mapM (Value.rereadField false column) = some directive.arguments := by
    obtain ⟨name, arguments⟩ := directive
    show (arguments.mapM (Value.rereadField false column)).map _ = _ ↔
      arguments.mapM (Value.rereadField false column) = some arguments
    cases arguments.mapM (Value.rereadField false column) <;> simp
  exact (and_congr hfits hreread).trans
    (Form.RestsOn.enclosed paired_parens fun argument hmem =>
      (h argument hmem).imp_right Value.restsOn_field)

theorem restsOn_description (description : Option String) :
    (descriptionForm column).RestsOn descriptionLeaves depth description := by
  cases description with
  | none => exact iff_of_true ⟨fits_nil depth, rfl⟩ (List.forall_mem_nil _)
  | some text =>
    have hvalue : Value.RestsOnLeaves true column depth (.string text) := Value.restsOn_string text
    have hreread : rereadDescription column (some text) = some (some text) ↔
        (Value.string text).reread true column = some (.string text) := by
      rw [rereadDescription, Value.reread]
      cases rereadText column text <;> simp
    exact (and_congr Iff.rfl hreread).trans hvalue

/-- Default values in lines that start at a column. -/
def defaultForm (column : Nat) : Form (Option Value) :=
  ⟨fun given => ∀ value, given = some value → value.WellFormed, defaultWords column,
    rereadDefault column, balanced_defaultWords column⟩

theorem restsOn_default {defaultValue : Option Value}
    (h : ∀ value ∈ defaultValue, Value.RestsOnLeaves true column depth value) :
    (defaultForm column).RestsOn defaultLeaves depth defaultValue := by
  cases defaultValue with
  | none => exact iff_of_true ⟨fits_nil depth, rfl⟩ (List.forall_mem_nil _)
  | some value =>
    have hreread : rereadDefault column (some value) = some (some value) ↔
        value.reread true column = some value := by
      rw [rereadDefault]
      cases value.reread true column <;> simp
    refine (and_congr ?_ hreread).trans (h value rfl)
    exact fits_cons rfl

theorem InputValue.restsOn {input : InputValue} (htype : Fits depth input.type.words)
    (hdefault : ∀ value ∈ input.defaultValue, Value.RestsOnLeaves true column depth value)
    (hdirectives : ∀ directive ∈ input.directives,
      (Directive.form column).RestsOn Directive.leaves depth directive) :
    (form column).RestsOn leaves depth input := by
  have hfits : Fits depth (input.words column) ↔
      Fits depth (descriptionWords column input.description) ∧
        Fits depth (defaultWords column input.defaultValue) ∧
          Fits depth (directivesWords column input.directives) := by
    rw [words, (balanced_descriptionWords column _).fits_append_iff, fits_cons rfl, fits_cons rfl,
      input.type.balanced.fits_append_iff, (balanced_defaultWords column _).fits_append_iff,
      and_iff_right htype]
  have hreread : input.reread column = some input ↔
      rereadDescription column input.description = some input.description ∧
        rereadDefault column input.defaultValue = some input.defaultValue ∧
          input.directives.mapM (Directive.reread column) = some input.directives := by
    obtain ⟨description, name, type, defaultValue, directives⟩ := input
    simp only [reread]
    cases rereadDescription column description <;> cases rereadDefault column defaultValue <;>
      cases directives.mapM (Directive.reread column) <;> simp
  have hparts : (form column).Returns depth input ↔
      (descriptionForm column).Returns depth input.description ∧
        (defaultForm column).Returns depth input.defaultValue ∧
          (Directive.form column).list.Returns depth input.directives := by
    refine (and_congr hfits hreread).trans ?_
    exact ⟨fun h => ⟨⟨h.1.1, h.2.1⟩, ⟨h.1.2.1, h.2.2.1⟩, h.1.2.2, h.2.2.2⟩,
      fun h => ⟨⟨h.1.1, h.2.1.1, h.2.2.1⟩, h.1.2, h.2.1.2, h.2.2.2⟩⟩
  rw [Form.RestsOn, hparts, (restsOn_description _).iff, (restsOn_default hdefault).iff,
    (Form.RestsOn.list hdirectives).iff, leaves, List.forall_mem_append, List.forall_mem_append,
    and_assoc]

theorem EnumValue.restsOn {value : EnumValue}
    (hdirectives : ∀ directive ∈ value.directives,
      (Directive.form column).RestsOn Directive.leaves depth directive) :
    (form column).RestsOn leaves depth value := by
  have hfits : Fits depth (value.words column) ↔
      Fits depth (descriptionWords column value.description) ∧
        Fits depth (directivesWords column value.directives) := by
    rw [words, (balanced_descriptionWords column _).fits_append_iff, fits_cons rfl]
  have hreread : value.reread column = some value ↔
      rereadDescription column value.description = some value.description ∧
        value.directives.mapM (Directive.reread column) = some value.directives := by
    obtain ⟨description, name, directives⟩ := value
    simp only [reread]
    cases rereadDescription column description <;>
      cases directives.mapM (Directive.reread column) <;> simp
  have hparts : (form column).Returns depth value ↔
      (descriptionForm column).Returns depth value.description ∧
        (Directive.form column).list.Returns depth value.directives :=
    (and_congr hfits hreread).trans
      ⟨fun h => ⟨⟨h.1.1, h.2.1⟩, h.1.2, h.2.2⟩, fun h => ⟨⟨h.1.1, h.2.1⟩, h.1.2, h.2.2⟩⟩
  rw [Form.RestsOn, hparts, (restsOn_description _).iff, (Form.RestsOn.list hdirectives).iff, leaves,
    List.forall_mem_append]

theorem Field.restsOn {field : Field} (htype : Fits depth field.type.words)
    (harguments : ∀ argument ∈ field.arguments, depth < Stream.maxDepth ∧
      (InputValue.form column).RestsOn InputValue.leaves (depth + 1) argument)
    (hdirectives : ∀ directive ∈ field.directives,
      (Directive.form column).RestsOn Directive.leaves depth directive) :
    (form column).RestsOn leaves depth field := by
  have hbalanced : Balanced (enclosedWords .parenOpen .parenClose (InputValue.words column)
      field.arguments) := .enclosedWords paired_parens fun argument _ => argument.balanced column
  have hfits : Fits depth (field.words column) ↔
      Fits depth (descriptionWords column field.description) ∧
        Fits depth (enclosedWords .parenOpen .parenClose (InputValue.words column) field.arguments) ∧
          Fits depth (directivesWords column field.directives) := by
    rw [words, (balanced_descriptionWords column _).fits_append_iff, fits_cons rfl,
      hbalanced.fits_append_iff, fits_cons rfl, field.type.balanced.fits_append_iff,
      and_iff_right htype]
  have hreread : field.reread column = some field ↔
      rereadDescription column field.description = some field.description ∧
        field.arguments.mapM (InputValue.reread column) = some field.arguments ∧
          field.directives.mapM (Directive.reread column) = some field.directives := by
    obtain ⟨description, name, arguments, type, directives⟩ := field
    simp only [reread]
    cases rereadDescription column description <;> cases arguments.mapM (InputValue.reread column) <;>
      cases directives.mapM (Directive.reread column) <;> simp
  have hparts : (form column).Returns depth field ↔
      (descriptionForm column).Returns depth field.description ∧
        ((InputValue.form column).enclosed paired_parens).Returns depth field.arguments ∧
          (Directive.form column).list.Returns depth field.directives := by
    refine (and_congr hfits hreread).trans ?_
    exact ⟨fun h => ⟨⟨h.1.1, h.2.1⟩, ⟨h.1.2.1, h.2.2.1⟩, h.1.2.2, h.2.2.2⟩,
      fun h => ⟨⟨h.1.1, h.2.1.1, h.2.2.1⟩, h.1.2, h.2.1.2, h.2.2.2⟩⟩
  rw [Form.RestsOn, hparts, (restsOn_description _).iff,
    (Form.RestsOn.enclosed paired_parens harguments).iff, (Form.RestsOn.list hdirectives).iff, leaves,
    List.forall_mem_append, List.forall_mem_append, and_assoc]

end Members

/-! ## Definitions -/

/-- Bodies of types. -/
def TypeBody.form : Form TypeBody := ⟨WellFormed, memberWords, reread, balanced⟩

/-- Type nodes, be they definitions or extensions. -/
def TypeExtension.form : Form TypeExtension := ⟨WellFormed, words, reread, balanced⟩

/-- Schema definitions. -/
def SchemaDefinition.form : Form SchemaDefinition := ⟨WellFormed, words, reread, balanced⟩

theorem TypeBody.restsOn {body : TypeBody}
    (houtputs : ∀ field ∈ body.outputFields, (Field.form indentWidth).RestsOn Field.leaves 1 field)
    (hvalues : ∀ value ∈ body.enumValues, (EnumValue.form indentWidth).RestsOn EnumValue.leaves 1 value)
    (hinputs : ∀ field ∈ body.inputFields,
      (InputValue.form indentWidth).RestsOn InputValue.leaves 1 field) :
    form.RestsOn leaves 0 body := by
  have hparts : form.Returns 0 body ↔
      (Field.form indentWidth).list.Returns 1 body.outputFields ∧
        (EnumValue.form indentWidth).list.Returns 1 body.enumValues ∧
          (InputValue.form indentWidth).list.Returns 1 body.inputFields := by
    rw [Form.list_returns_iff, Form.list_returns_iff, Form.list_returns_iff]
    refine (and_congr fits_memberWords_iff reread_eq_self_iff).trans ?_
    exact ⟨fun h => ⟨⟨h.1.1, h.2.1⟩, ⟨h.1.2.1, h.2.2.1⟩, h.1.2.2, h.2.2.2⟩,
      fun h => ⟨⟨h.1.1, h.2.1.1, h.2.2.1⟩, h.1.2, h.2.1.2, h.2.2.2⟩⟩
  rw [Form.RestsOn, hparts, (Form.RestsOn.list houtputs).iff, (Form.RestsOn.list hvalues).iff,
    (Form.RestsOn.list hinputs).iff, leaves, List.forall_mem_append, List.forall_mem_append, and_assoc]

theorem TypeExtension.restsOn {node : TypeExtension}
    (hdirectives : ∀ directive ∈ node.directives,
      (Directive.form 0).RestsOn Directive.leaves 0 directive)
    (hbody : TypeBody.form.RestsOn TypeBody.leaves 0 node.body) : form.RestsOn leaves 0 node := by
  have hparts : form.Returns 0 node ↔
      (Directive.form 0).list.Returns 0 node.directives ∧ TypeBody.form.Returns 0 node.body :=
    (and_congr fits_words_iff reread_eq_self_iff).trans and_and_and_comm
  rw [Form.RestsOn, hparts, (Form.RestsOn.list hdirectives).iff, hbody.iff, leaves,
    List.forall_mem_append]

theorem SchemaDefinition.restsOn {schema : SchemaDefinition}
    (hdirectives : ∀ directive ∈ schema.directives,
      (Directive.form 0).RestsOn Directive.leaves 0 directive) :
    form.RestsOn (fun schema => schema.directives.flatMap Directive.leaves) 0 schema := by
  have hparts : form.Returns 0 schema ↔ (Directive.form 0).list.Returns 0 schema.directives :=
    and_congr fits_words_iff reread_eq_self_iff
  exact hparts.trans (Form.RestsOn.list hdirectives)

namespace Definition

/-- Whether a directive definition names a location; one that does not cannot be written. -/
def isLocated : Definition → Bool
  | .directive definition => !definition.locations.isEmpty
  | _ => true

/-- Nothing is lost of a definition that stands in a text if it is written and read. -/
def Faithful (definition : Definition) : Prop :=
  (∀ leaf ∈ definition.leaves, leaf.Keeps) ∧ definition.isLocated

instance (definition : Definition) : Decidable definition.Faithful :=
  inferInstanceAs (Decidable (_ ∧ _))

/-- A definition comes back if it is faithful, and otherwise it does not. -/
def Settled (definition : Definition) : Prop := form.Returns 0 definition ↔ definition.Faithful

theorem settled_schema {schema : SchemaDefinition}
    (h : ∀ directive ∈ schema.directives, (Directive.form 0).RestsOn Directive.leaves 0 directive) :
    Settled (.schema schema) := by
  have hreread : reread (.schema schema) = some (.schema schema) ↔ schema.reread = some schema := by
    simp [reread]
  have hreturns : form.Returns 0 (.schema schema) ↔ SchemaDefinition.form.Returns 0 schema :=
    and_congr Iff.rfl hreread
  exact (hreturns.trans (SchemaDefinition.restsOn h)).trans (and_iff_left rfl).symm

theorem settled_type {definition : TypeDefinition}
    (h : TypeExtension.form.RestsOn TypeExtension.leaves 0 definition.toExtension) :
    Settled (.type definition) := by
  have hfits : Fits 0 (form.words (.type definition)) ↔
      Fits 0 (descriptionWords 0 definition.description) ∧ Fits 0 definition.toExtension.words :=
    (balanced_descriptionWords 0 _).fits_append_iff
  have hreturns : form.Returns 0 (.type definition) ↔
      (descriptionForm 0).Returns 0 definition.description ∧
        TypeExtension.form.Returns 0 definition.toExtension :=
    (and_congr hfits reread_type_eq_self_iff).trans and_and_and_comm
  rw [Settled, hreturns, (restsOn_description _).iff, h.iff, ← List.forall_mem_append]
  exact (and_iff_left rfl).symm

theorem settled_extension {node : TypeExtension} (hadds : Reader.addsSomething node)
    (h : TypeExtension.form.RestsOn TypeExtension.leaves 0 node) : Settled (.extension node) := by
  have hreturns : form.Returns 0 (.extension node) ↔ TypeExtension.form.Returns 0 node :=
    and_congr (fits_cons rfl) (reread_extension_eq_self_iff.trans (and_iff_left hadds))
  exact (hreturns.trans h).trans (and_iff_left rfl).symm

/-- A directive definition without locations is written without them, and then it is not read. -/
theorem settled_directive {definition : DirectiveDefinition}
    (h : ∀ argument ∈ definition.arguments, (InputValue.form 0).RestsOn InputValue.leaves 1 argument) :
    Settled (.directive definition) := by
  -- What stands behind the arguments nests nothing.
  have hbehind : Fits 0 ((if definition.repeatable then [nameWord "repeatable"] else []) ++
      ledWords [nameWord "on"] .pipe (definition.locations.map Location.render)) := by
    split
    · exact (fits_cons rfl).mpr (fits_ledWords rfl rfl _ 0)
    · exact fits_ledWords rfl rfl _ 0
  have hfits : Fits 0 (form.words (.directive definition)) ↔
      Fits 0 (descriptionWords 0 definition.description) ∧
        Fits 0 (((InputValue.form 0).enclosed paired_parens).words definition.arguments) := by
    show Fits 0 (definition.words) ↔ _
    rw [DirectiveDefinition.words, (balanced_descriptionWords 0 _).fits_append_iff,
      DirectiveDefinition.signatureWords, fits_cons rfl, fits_cons rfl, fits_cons rfl]
    refine and_congr_right fun _ => ?_
    exact (((InputValue.form 0).enclosed paired_parens).balanced _).fits_append_iff.trans
      (and_iff_left hbehind)
  have hreread : reread (.directive definition) = some (.directive definition) ↔
      (rereadDescription 0 definition.description = some definition.description ∧
        definition.arguments.mapM (InputValue.reread 0) = some definition.arguments) ∧
          isLocated (.directive definition) := by
    obtain ⟨description, name, arguments, repeatable, locations⟩ := definition
    simp only [reread, DirectiveDefinition.rereadSignature, isLocated]
    cases rereadDescription 0 description <;> cases arguments.mapM (InputValue.reread 0) <;>
      cases locations <;> simp
  have hparts : form.Returns 0 (.directive definition) ↔
      ((descriptionForm 0).Returns 0 definition.description ∧
        ((InputValue.form 0).enclosed paired_parens).Returns 0 definition.arguments) ∧
          isLocated (.directive definition) := by
    refine (and_congr hfits hreread).trans ?_
    rw [← and_assoc, and_and_and_comm]
    exact Iff.rfl
  rw [Settled, hparts, (restsOn_description _).iff,
    (Form.RestsOn.enclosed paired_parens fun argument hmem => ⟨by decide, h argument hmem⟩).iff,
    ← List.forall_mem_append]
  exact Iff.rfl

end Definition

/-! ## Documents -/

namespace Document

/-- Nothing is lost of a document that was read if it is written and read again: its strings and
numbers are kept, and its directive definitions name their locations. -/
def Faithful (document : Document) : Prop := ∀ definition ∈ document.definitions, definition.Faithful

instance (document : Document) : Decidable document.Faithful :=
  inferInstanceAs (Decidable (∀ definition ∈ document.definitions, definition.Faithful))

end Document

end SchemaAlgebra
