import SchemaAlgebra.Language.Document
import SchemaAlgebra.Text.Quoted
import SchemaAlgebra.Text.Block

/-!
# Writing documents

Each node has one written form.  The only choice is made for strings: a string with line feeds is
written as a block if all of its characters allow it, and between single marks otherwise.

Members of a type stand on lines of their own, two places further in than the definition.  The
place matters for nothing but block strings, whose lines are indented along with the node that
they belong to; so the functions for nodes that may hold strings take the `column` of the line
they stand on.
-/

namespace SchemaAlgebra

/-- The distance between a definition and its members. -/
def indentWidth : Nat := 2

/-- The blanks in front of a line that starts at a column. -/
def indentation (column : Nat) : String := String.ofList (List.replicate column ' ')

/-- Puts a separator between the texts of a list. -/
def separate (separator : String) (texts : List String) : String := separator.intercalate texts

/-! ## Values and types -/

/-- A string as a literal: a block if it can be one. -/
def renderText (column : Nat) (text : String) : String :=
  String.ofList <|
    if Block.isBlock text.toList then Block.encode column text.toList
    else Quoted.encode text.toList

/-- An integer in decimal. -/
def renderInt : Int → String
  | .ofNat n => String.ofList (Nat.toDigits 10 n)
  | .negSucc n => "-" ++ String.ofList (Nat.toDigits 10 (n + 1))

namespace Value

mutual

/-- The written form of a value. -/
def render (column : Nat) : Value → String
  | .var name => "$" ++ name
  | .int number => renderInt number
  | .float number => String.ofList number.render
  | .string text => renderText column text
  | .boolean truth => if truth then "true" else "false"
  | .null => "null"
  | .enum name => name
  | .list items => "[" ++ separate ", " (renderItems column items) ++ "]"
  | .object fields => "\x7b" ++ separate ", " (renderFields column fields) ++ "\x7d"

/-- The written forms of the items of a list. -/
def renderItems (column : Nat) : List Value → List String
  | [] => []
  | item :: rest => item.render column :: renderItems column rest

/-- The written forms of the fields of an object, or of the arguments of a directive. -/
def renderFields (column : Nat) : List (String × Value) → List String
  | [] => []
  | (key, value) :: rest => (key ++ ": " ++ value.render column) :: renderFields column rest

end

theorem renderItems_eq_map (column : Nat) (items : List Value) :
    renderItems column items = items.map (render column) := by
  induction items with
  | nil => rfl
  | cons item rest ih => simp [renderItems, ih]

theorem renderFields_eq_map (column : Nat) (fields : List (String × Value)) :
    renderFields column fields = fields.map fun field => field.1 ++ ": " ++ field.2.render column := by
  induction fields with
  | nil => rfl
  | cons field rest ih => simp [renderFields, ih]

end Value

/-- The written form of a type reference. -/
def TypeRef.render : TypeRef → String
  | .named name => name
  | .list element => "[" ++ element.render ++ "]"
  | .nonNull inner => inner.render ++ "!"

/-! ## Directives and members -/

/-- The written form of a directive application. -/
def Directive.render (column : Nat) (directive : Directive) : String :=
  "@" ++ directive.name ++
    if directive.arguments.isEmpty then ""
    else "(" ++ separate ", " (Value.renderFields column directive.arguments) ++ ")"

/-- Directives behind a node, each with a blank in front. -/
def renderDirectives (column : Nat) (directives : List Directive) : String :=
  String.join (directives.map fun directive => " " ++ directive.render column)

/-- A description on the lines before a node. -/
def renderDescriptionAbove (column : Nat) : Option String → String
  | none => ""
  | some text => indentation column ++ renderText column text ++ "\n"

/-- A description in front of a node on the same line. -/
def renderDescriptionInline (column : Nat) : Option String → String
  | none => ""
  | some text => renderText column text ++ " "

/-- The written form of an argument declaration or an input field. -/
def InputValue.render (column : Nat) (input : InputValue) : String :=
  renderDescriptionInline column input.description ++ input.name ++ ": " ++ input.type.render ++
    (match input.defaultValue with
      | none => ""
      | some value => " = " ++ value.render column) ++
    renderDirectives column input.directives

/-- Argument declarations in parentheses, if there are any. -/
def renderArguments (column : Nat) (arguments : List InputValue) : String :=
  if arguments.isEmpty then ""
  else "(" ++ separate ", " (arguments.map (InputValue.render column)) ++ ")"

/-- The lines of an output field. -/
def Field.render (column : Nat) (field : Field) : String :=
  renderDescriptionAbove column field.description ++ indentation column ++ field.name ++
    renderArguments column field.arguments ++ ": " ++ field.type.render ++
    renderDirectives column field.directives ++ "\n"

/-- The written form of an enum value. -/
def EnumValue.render (column : Nat) (value : EnumValue) : String :=
  renderDescriptionInline column value.description ++ value.name ++
    renderDirectives column value.directives

/-! ## Definitions -/

/-- Lines between braces, if there are any. -/
def renderBraces (memberLines : List String) : String :=
  if memberLines.isEmpty then "" else " \x7b\n" ++ String.join memberLines ++ "\x7d"

/-- A member on a line of its own. -/
def memberLine (text : String) : String := indentation indentWidth ++ text ++ "\n"

/-- The interfaces of a type behind its name. -/
def renderInterfaces (interfaces : List String) : String :=
  if interfaces.isEmpty then "" else " implements " ++ separate " & " interfaces

/-- The keyword that a kind of types is introduced by. -/
def TypeKind.keyword : TypeKind → String
  | .scalar => "scalar"
  | .object => "type"
  | .interface => "interface"
  | .union => "union"
  | .enum => "enum"
  | .inputObject => "input"

/-- The members of a type behind its directives. -/
def TypeBody.renderMembers : TypeBody → String
  | .scalar => ""
  | .object _ fields | .interface _ fields => renderBraces (fields.map (Field.render indentWidth))
  | .union members => if members.isEmpty then "" else " = " ++ separate " | " members
  | .enum values => renderBraces (values.map fun value => memberLine (value.render indentWidth))
  | .inputObject fields =>
    renderBraces (fields.map fun field => memberLine (field.render indentWidth))

/-- The written form that a type definition and an extension have in common. -/
def renderTypeNode (name : String) (directives : List Directive) (body : TypeBody) : String :=
  body.kind.keyword ++ " " ++ name ++ renderInterfaces body.interfaces ++
    renderDirectives 0 directives ++ body.renderMembers ++ "\n"

/-- The lines of a type definition. -/
def TypeDefinition.render (definition : TypeDefinition) : String :=
  renderDescriptionAbove 0 definition.description ++
    renderTypeNode definition.name definition.directives definition.body

/-- The lines of a type extension. -/
def TypeExtension.render (node : TypeExtension) : String :=
  "extend " ++ renderTypeNode node.name node.directives node.body

/-- The name of a location. -/
def Location.render : Location → String
  | .query => "QUERY"
  | .mutation => "MUTATION"
  | .subscription => "SUBSCRIPTION"
  | .field => "FIELD"
  | .fragmentDefinition => "FRAGMENT_DEFINITION"
  | .fragmentSpread => "FRAGMENT_SPREAD"
  | .inlineFragment => "INLINE_FRAGMENT"
  | .schema => "SCHEMA"
  | .scalar => "SCALAR"
  | .object => "OBJECT"
  | .fieldDefinition => "FIELD_DEFINITION"
  | .argumentDefinition => "ARGUMENT_DEFINITION"
  | .interface => "INTERFACE"
  | .union => "UNION"
  | .enum => "ENUM"
  | .enumValue => "ENUM_VALUE"
  | .inputObject => "INPUT_OBJECT"
  | .inputFieldDefinition => "INPUT_FIELD_DEFINITION"
  | .variableDefinition => "VARIABLE_DEFINITION"

/-- The lines of a directive definition.  One without locations has nothing behind its name and
arguments, and is no text that could be read back. -/
def DirectiveDefinition.render (definition : DirectiveDefinition) : String :=
  renderDescriptionAbove 0 definition.description ++ "directive @" ++ definition.name ++
    renderArguments 0 definition.arguments ++
    (if definition.repeatable then " repeatable" else "") ++
    (if definition.locations.isEmpty then ""
      else " on " ++ separate " | " (definition.locations.map Location.render)) ++ "\n"

/-- The line for the root type of an operation, if it has one. -/
def renderOperation (operation : String) : Option String → String
  | none => ""
  | some type => memberLine (operation ++ ": " ++ type)

/-- The lines of a schema definition. -/
def SchemaDefinition.render (schema : SchemaDefinition) : String :=
  "schema" ++ renderDirectives 0 schema.directives ++ " \x7b\n" ++
    renderOperation "query" schema.query ++ renderOperation "mutation" schema.mutation ++
    renderOperation "subscription" schema.subscription ++ "\x7d\n"

/-- The lines of a top-level definition. -/
def Definition.render : Definition → String
  | .schema definition => definition.render
  | .type definition => definition.render
  | .extension node => node.render
  | .directive definition => definition.render

/-- The text of a document: its definitions with an empty line between them. -/
def Document.print (document : Document) : String :=
  separate "\n" (document.definitions.map Definition.render)

example : Document.print ∅ = "" := by decide +kernel

end SchemaAlgebra
