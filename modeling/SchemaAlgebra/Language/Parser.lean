import SchemaAlgebra.Language.Document
import SchemaAlgebra.Language.Token

/-!
# Reading documents

A document is read from a stream of tokens with one token of lookahead and without going back: an
optional part is read if the next token starts it, and once begun it must be complete.  Whatever
goes wrong is wrong at the next token, so an error is the place of that token, or of the end of
the stream.

Two rules look at a whole definition and fail at its keyword: a schema definition names each
operation at most once and no others, and an extension adds something to its type.

Repetition and nesting are bounded by the number of tokens of the text, because every item takes at
least one.

## Grammar

```text
document    = definition+
definition  = schema | "extend" type | STRING? (type | directive)
schema      = "schema" directives "{" (NAME ":" NAME)* "}"
type        = "scalar" NAME directives
            | ("type" | "interface") NAME implements directives ("{" field+ "}")?
            | "union" NAME directives ("=" "|"? NAME ("|" NAME)*)?
            | "enum" NAME directives ("{" (STRING? NAME directives)+ "}")?
            | "input" NAME directives ("{" input+ "}")?
directive   = "directive" "@" NAME ("(" input+ ")")? "repeatable"? "on" ("|"? NAME ("|" NAME)*)?
implements  = ("implements" "&"? NAME ("&" NAME)*)?
field       = STRING? NAME ("(" input+ ")")? ":" reference directives
input       = STRING? NAME ":" reference ("=" constant)? directives
reference   = (NAME | "[" reference "]") "!"?
directives  = ("@" NAME ("(" (NAME ":" value)+ ")")?)*
```
-/

namespace SchemaAlgebra

/-- Results that may be failures can be compared. -/
instance Except.decEq {ε α : Type} [DecidableEq ε] [DecidableEq α] : DecidableEq (Except ε α)
  | .ok a, .ok b => decidable_of_iff (a = b) (by simp)
  | .error a, .error b => decidable_of_iff (a = b) (by simp)
  | .ok _, .error _ | .error _, .ok _ => isFalse (by simp)

/-- Why a text is no document. -/
inductive ParseError where
  /-- The text does not go on as the grammar demands at this place. -/
  | unexpected (position : Position)
  /-- The common indent of a block string ends inside a character. -/
  | indentCutsCharacter
  deriving DecidableEq, Repr

/-- The text of a reading error. -/
def ParseError.message : ParseError → String
  | .unexpected position => s!"schema parse error: Parse error at {position.render}"
  | .indentCutsCharacter => "schema parse error: the indent of a block string cuts a character"

/-- A reader takes tokens off a stream and gives a result, or fails. -/
abbrev Reader := StateT Stream (Except ParseError)

namespace Reader

/-! ## Single tokens -/

/-- The next token, which stays in the stream. -/
def peek : Reader (Option Token) := do
  return (← get).tokens.head?.map Prod.snd

/-- The place of the next token. -/
def position : Reader Position := do
  let stream ← get
  return (stream.tokens.head?.map Prod.fst).getD stream.ending

/-- A number of tokens that is not exceeded by what is left. -/
def remaining : Reader Nat := do
  return (← get).bound

/-- Fails at the next token. -/
def refuse {α : Type} : Reader α := do
  throw (.unexpected (← position))

/-- Takes the next token if it is one that `accepts` has a value for, and fails otherwise. -/
def take {α : Type} (accepts : Token → Option α) : Reader α := do
  let stream ← get
  match stream.tokens with
  | (_, token) :: rest =>
    match accepts token with
    | some value =>
      set { stream with tokens := rest }
      return value
    | none => refuse
  | [] => refuse

/-- Whether the next token satisfies a condition. -/
def next (starts : Token → Bool) : Reader Bool := do
  return (← peek).any starts

/-- The text of a name. -/
def nameOf : Token → Option String
  | .name text => some text
  | _ => none

/-- Takes a name. -/
def name : Reader String := take nameOf

/-- Whether a token is a given punctuator. -/
def isMark (mark : Punctuator) (token : Token) : Bool := token = .punctuator mark

/-- Takes a given punctuator. -/
def mark (expected : Punctuator) : Reader Unit :=
  take fun token => if isMark expected token then some () else none

/-- Whether a token is a given name. -/
def isKeyword (word : String) (token : Token) : Bool := token = .name word

/-- Takes a given name. -/
def keyword (word : String) : Reader Unit :=
  take fun token => if isKeyword word token then some () else none

/-- Whether a token is a string or a block string. -/
def isText : Token → Bool
  | .string _ | .block _ => true
  | _ => false

/-- Takes a string or a block string and gives its value. -/
def text : Reader String := do
  let value ← take fun
    | .string value => some (some value)
    | .block content => some ((Block.decode content).map String.ofList)
    | _ => none
  match value with
  | some value => return value
  | none => throw .indentCutsCharacter

/-! ## Parts -/

/-- Reads an optional part: `item` if the next token starts it, `absent` otherwise. -/
def optional {α : Type} (starts : Token → Bool) (absent : α) (item : Reader α) : Reader α := do
  if ← next starts then item else return absent

/-- Reads items for as long as the next token starts one, at most `fuel` of them. -/
def manyUpTo {α : Type} (starts : Token → Bool) (item : Reader α) : Nat → Reader (List α)
  | 0 => return []
  | fuel + 1 => do
    if ← next starts then
      let first ← item
      return first :: (← manyUpTo starts item fuel)
    else return []

/-- Reads items for as long as the next token starts one. -/
def many {α : Type} (starts : Token → Bool) (item : Reader α) : Reader (List α) := do
  manyUpTo starts item (← remaining)

/-- Reads one item or more up to a closing punctuator, behind an opening one. -/
def enclosed {α : Type} (opening closing : Punctuator) (item : Reader α) : Reader (List α) := do
  mark opening
  let first ← item
  let rest ← many (!isMark closing ·) item
  mark closing
  return first :: rest

/-- Reads a list of items between an opening and a closing punctuator if there is one. -/
def enclosed? {α : Type} (opening closing : Punctuator) (item : Reader α) : Reader (List α) :=
  optional (isMark opening) [] (enclosed opening closing item)

/-- Reads names with a punctuator between them, which may also stand before the first. -/
def separated {α : Type} (separator : Punctuator) (item : Reader α) : Reader (List α) := do
  optional (isMark separator) () (mark separator)
  let first ← item
  let rest ← many (isMark separator) do
    mark separator
    item
  return first :: rest

/-! ## Values and types -/

/-- The value that a name stands for. -/
def namedValue : String → Value
  | "true" => .boolean true
  | "false" => .boolean false
  | "null" => .null
  | name => .enum name

/-- Reads a value.  A constant holds no variables.  The first argument bounds the nesting. -/
def valueUpTo (constant : Bool) : Nat → Reader Value
  | 0 => refuse
  | fuel + 1 => do
    match ← peek with
    | some (.punctuator .dollar) =>
      if constant then refuse
      mark .dollar
      return .var (← name)
    | some (.punctuator .bracketOpen) =>
      mark .bracketOpen
      let items ← many (!isMark .bracketClose ·) (valueUpTo constant fuel)
      mark .bracketClose
      return .list items
    | some (.punctuator .braceOpen) =>
      mark .braceOpen
      let fields ← many (!isMark .braceClose ·) do
        let key ← name
        mark .colon
        return (key, ← valueUpTo constant fuel)
      mark .braceClose
      return .ofFields fields
    | some (.string _) | some (.block _) => return .string (← text)
    | _ =>
      take fun
        | .name word => some (namedValue word)
        | .int number => some (.int number)
        | .float number => some (.float number)
        | _ => none

/-- Reads a value. -/
def value (constant : Bool) : Reader Value := do
  valueUpTo constant (← remaining)

/-- Reads a type reference.  The argument bounds the nesting. -/
def typeRefUpTo : Nat → Reader TypeRef
  | 0 => refuse
  | fuel + 1 => do
    let reference ←
      if ← next (isMark .bracketOpen) then
        mark .bracketOpen
        let element ← typeRefUpTo fuel
        mark .bracketClose
        pure (.list element)
      else
        pure (.named (← name))
    optional (isMark .bang) reference do
      mark .bang
      return .nonNull reference

/-- Reads a type reference. -/
def typeRef : Reader TypeRef := do
  typeRefUpTo (← remaining)

/-! ## Nodes -/

/-- Reads a description if there is one. -/
def description : Reader (Option String) :=
  optional isText none (some <$> text)

/-- Reads an argument of a directive. -/
def argument : Reader (String × Value) := do
  let key ← name
  mark .colon
  return (key, ← value false)

/-- Reads an application of a directive. -/
def directive : Reader Directive := do
  mark .atSign
  let name ← name
  let arguments ← enclosed? .parenOpen .parenClose argument
  return { name, arguments }

/-- Reads the directives of a node. -/
def directives : Reader (List Directive) :=
  many (isMark .atSign) directive

/-- Reads an argument declaration or an input field. -/
def inputValue : Reader InputValue := do
  let description ← description
  let name ← name
  mark .colon
  let type ← typeRef
  let defaultValue ← optional (isMark .equals) none do
    mark .equals
    return some (← value true)
  return { description, name, type, defaultValue, directives := ← directives }

/-- Reads an output field. -/
def field : Reader Field := do
  let description ← description
  let name ← name
  let arguments ← enclosed? .parenOpen .parenClose inputValue
  mark .colon
  let type ← typeRef
  return { description, name, arguments, type, directives := ← directives }

/-- Reads an enum value. -/
def enumValue : Reader EnumValue := do
  let description ← description
  let name ← name
  return { description, name, directives := ← directives }

/-- Reads the interfaces that a type implements. -/
def interfaces : Reader (List String) :=
  optional (isKeyword "implements") [] do
    keyword "implements"
    separated .ampersand name

/-- The kind that a keyword introduces. -/
def kindOf : Token → Option TypeKind
  | .name "scalar" => some .scalar
  | .name "type" => some .object
  | .name "interface" => some .interface
  | .name "union" => some .union
  | .name "enum" => some .enum
  | .name "input" => some .inputObject
  | _ => none

/-- Reads the keyword of a type, its name and what it consists of.  Definitions and extensions
have this part in common. -/
def typeNode : Reader TypeExtension := do
  let kind ← take kindOf
  let name ← name
  match kind with
  | .scalar =>
    return { name, directives := ← directives, body := .scalar }
  | .object =>
    let interfaces ← interfaces
    let directives ← directives
    let fields ← enclosed? .braceOpen .braceClose field
    return { name, directives, body := .object interfaces fields }
  | .interface =>
    let interfaces ← interfaces
    let directives ← directives
    let fields ← enclosed? .braceOpen .braceClose field
    return { name, directives, body := .interface interfaces fields }
  | .union =>
    let directives ← directives
    let members ← optional (isMark .equals) [] do
      mark .equals
      separated .pipe Reader.name
    return { name, directives, body := .union members }
  | .enum =>
    let directives ← directives
    let values ← enclosed? .braceOpen .braceClose enumValue
    return { name, directives, body := .enum values }
  | .inputObject =>
    let directives ← directives
    let fields ← enclosed? .braceOpen .braceClose inputValue
    return { name, directives, body := .inputObject fields }

/-! ## Definitions -/

/-- The location that a name stands for. -/
def locationOf : Token → Option Location
  | .name "QUERY" => some .query
  | .name "MUTATION" => some .mutation
  | .name "SUBSCRIPTION" => some .subscription
  | .name "FIELD" => some .field
  | .name "FRAGMENT_DEFINITION" => some .fragmentDefinition
  | .name "FRAGMENT_SPREAD" => some .fragmentSpread
  | .name "INLINE_FRAGMENT" => some .inlineFragment
  | .name "SCHEMA" => some .schema
  | .name "SCALAR" => some .scalar
  | .name "OBJECT" => some .object
  | .name "FIELD_DEFINITION" => some .fieldDefinition
  | .name "ARGUMENT_DEFINITION" => some .argumentDefinition
  | .name "INTERFACE" => some .interface
  | .name "UNION" => some .union
  | .name "ENUM" => some .enum
  | .name "ENUM_VALUE" => some .enumValue
  | .name "INPUT_OBJECT" => some .inputObject
  | .name "INPUT_FIELD_DEFINITION" => some .inputFieldDefinition
  | .name "VARIABLE_DEFINITION" => some .variableDefinition
  | _ => none

/-- Whether locations follow the word `on`.  Any name that stands there has to be a location. -/
def startsLocation (token : Token) : Bool := isMark .pipe token || (nameOf token).isSome

/-- Reads a directive definition, behind its description. -/
def directiveDefinition (description : Option String) : Reader DirectiveDefinition := do
  keyword "directive"
  mark .atSign
  let name ← name
  let arguments ← enclosed? .parenOpen .parenClose inputValue
  let repeatable ← optional (isKeyword "repeatable") false do
    keyword "repeatable"
    return true
  keyword "on"
  let locations ← optional startsLocation [] (separated .pipe (take locationOf))
  return { description, name, arguments, repeatable, locations }

/-- Puts an operation's root type into a schema definition; nothing if the operation is unknown
or has its type already. -/
def addOperation (schema : SchemaDefinition) : String × String → Option SchemaDefinition
  | ("query", type) => if schema.query.isNone then some { schema with query := type } else none
  | ("mutation", type) =>
    if schema.mutation.isNone then some { schema with mutation := type } else none
  | ("subscription", type) =>
    if schema.subscription.isNone then some { schema with subscription := type } else none
  | _ => none

/-- Reads a schema definition. -/
def schemaDefinition : Reader SchemaDefinition := do
  let start ← position
  keyword "schema"
  let directives ← directives
  mark .braceOpen
  let operations ← many (!isMark .braceClose ·) do
    let operation ← name
    mark .colon
    return (operation, ← name)
  mark .braceClose
  let bare : SchemaDefinition :=
    { directives, query := none, mutation := none, subscription := none }
  match operations.foldlM addOperation bare with
  | some schema => return schema
  | none => throw (.unexpected start)

/-- Whether an extension adds anything to its type.  The interfaces of an interface do not
count. -/
def addsSomething (node : TypeExtension) : Bool :=
  !node.directives.isEmpty ||
    match node.body with
    | .scalar => false
    | .object interfaces fields => !interfaces.isEmpty || !fields.isEmpty
    | body => !body.memberNames.isEmpty

/-- Reads a type extension. -/
def typeExtension : Reader TypeExtension := do
  keyword "extend"
  let start ← position
  let node ← typeNode
  -- The rule about the whole extension fails at its keyword, not where it ends.
  if addsSomething node then return node else throw (.unexpected start)

/-- Reads a top-level definition. -/
def definition : Reader Definition := do
  if ← next (isKeyword "schema") then return .schema (← schemaDefinition)
  if ← next (isKeyword "extend") then return .extension (← typeExtension)
  let description ← description
  if ← next (isKeyword "directive") then
    return .directive (← directiveDefinition description)
  let node ← typeNode
  return .type { node with description }

/-- Reads definitions up to the end of a text. -/
def document : Reader Document := do
  let first ← definition
  let rest ← many (fun _ => true) definition
  -- The tokens of a stream that is not complete end before a malformed one.
  unless (← get).complete do refuse
  return ⟨first :: rest⟩

end Reader

/-- The document that a text stands for.  A blank text is the empty document; a text of ignored
characters only is not a document unless they are all blank. -/
def Document.parse (text : String) : Except ParseError Document :=
  if allBlank text.toList then .ok ∅
  else (·.1) <$> Reader.document.run (Stream.ofText text.toList)

example : Document.parse " \n" = .ok ∅ := by decide +kernel
example : Document.parse "scalar A extend type B @c" =
    .ok ⟨[.type ⟨none, "A", [], .scalar⟩, .extension ⟨"B", [⟨"c", []⟩], .object [] []⟩]⟩ := by
  decide +kernel
example : Document.parse "# only" = .error (.unexpected ⟨1, 1⟩) := by decide +kernel
example : Document.parse "extend type B" = .error (.unexpected ⟨1, 8⟩) := by decide +kernel

end SchemaAlgebra
