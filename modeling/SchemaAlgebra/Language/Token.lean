import SchemaAlgebra.Number.Binary64
import SchemaAlgebra.Text.Quoted
import SchemaAlgebra.Text.Block

/-!
# Tokens

A text of the schema language is a sequence of tokens with ignored characters between them.
`Token.scan` cuts one token off the front of a text, and `Stream.ofText` cuts a whole text into
tokens, each with the place where it starts.

A text may hold a malformed token.  The stream then ends before it, at its place, and is marked as
incomplete: whoever reads the stream fails at that place if it gets so far, just as it does at
the end of a text that stops too early.
-/

namespace SchemaAlgebra

/-! ## Places in a text -/

/-- A place in a text, counted from line 1 and column 1. -/
structure Position where
  line : Nat
  column : Nat
  deriving DecidableEq, Repr

namespace Position

/-- The place where every text starts. -/
def start : Position := ⟨1, 1⟩

/-- The place `count` columns further on the same line. -/
def shift (p : Position) (count : Nat) : Position := ⟨p.line, p.column + count⟩

/-- The start of the next line. -/
def nextLine (p : Position) : Position := ⟨p.line + 1, 1⟩

/-- The place after a token: every line feed in it starts a line, every other character takes a
column. -/
def after (p : Position) (text : List Char) : Position :=
  text.foldl (fun q c => if c = '\n' then q.nextLine else q.shift 1) p

/-- A place as it is written in messages. -/
def render (p : Position) : String := s!"{p.line}:{p.column}"

end Position

/-! ## Tokens -/

/-- The punctuators of the language. -/
inductive Punctuator where
  | parenOpen | parenClose | bracketOpen | bracketClose | braceOpen | braceClose
  | bang | dollar | colon | equals | atSign | pipe | ampersand | ellipsis
  deriving DecidableEq, Repr

/-- A token.  The content of a block string is kept as it is written, because not every block
string has a value. -/
inductive Token where
  | punctuator (mark : Punctuator)
  | name (text : String)
  | int (number : Int)
  | float (number : Binary64)
  | string (value : String)
  | block (content : List Char)
  deriving DecidableEq, Repr

namespace Token

/-! ### Names and punctuators -/

/-- The characters that a name can start with. -/
def isNameStart (c : Char) : Bool := c.isAlpha || c = '_'

/-- The characters that a name can go on with. -/
def isNamePart (c : Char) : Bool := c.isAlphanum || c = '_'

/-- The punctuator of a single character. -/
def punctuator? : Char → Option Punctuator
  | '(' => some .parenOpen
  | ')' => some .parenClose
  | '[' => some .bracketOpen
  | ']' => some .bracketClose
  | '{' => some .braceOpen
  | '}' => some .braceClose
  | '!' => some .bang
  | '$' => some .dollar
  | ':' => some .colon
  | '=' => some .equals
  | '@' => some .atSign
  | '|' => some .pipe
  | '&' => some .ampersand
  | _ => none

/-! ### Numbers -/

/-- The characters before which a number ends. -/
def endsNumber (c : Char) : Bool :=
  c = ' ' || c = '\n' || c = '\r' || c = '\t' || c = ',' || c = '#' || (punctuator? c).isSome

/-- The number that a list of decimal digits stands for; nothing if there is another character or
no digit at all. -/
def digits? (text : List Char) : Option Nat :=
  if text ≠ [] ∧ text.all Char.isDigit then
    some (text.foldl (fun n c => n * 10 + (c.toNat - '0'.toNat)) 0)
  else none

/-- The sign of a number and the text after it. -/
def sign : List Char → Bool × List Char
  | '-' :: rest => (true, rest)
  | text => (false, text)

/-- The sign and the digits of an integer that is written without leading zeros. -/
def integer? (text : List Char) : Option (Bool × List Char) :=
  let (negative, magnitude) := sign text
  if magnitude = ['0'] ∨ magnitude.head? ≠ some '0' ∧ (digits? magnitude).isSome then
    some (negative, magnitude)
  else none

/-- The exponent after the letter `e`.  An exponent without a sign starts with one of the digits
`1` to `8`. -/
def exponent? : List Char → Option Int
  | '+' :: rest => (digits? rest).map fun n => (n : Int)
  | '-' :: rest => (digits? rest).map fun n => -(n : Int)
  | c :: rest =>
    if '1' ≤ c ∧ c ≤ '8' then (digits? (c :: rest)).map fun n => (n : Int) else none
  | [] => none

/-- Splits a text at the last character that satisfies a condition. -/
def splitLast? (separates : Char → Bool) (text : List Char) : Option (List Char × List Char) :=
  let back := text.reverse
  match back.dropWhile (!separates ·) with
  | [] => none
  | _ :: front => some (front.reverse, (back.takeWhile (!separates ·)).reverse)

example : splitLast? (· = '.') "1.2.3".toList = some ("1.2".toList, "3".toList) := by decide

/-- The integers that a token can hold: those of 64 bits with a sign. -/
def intFits (n : Int) : Bool := -9223372036854775808 ≤ n && n ≤ 9223372036854775807

/-- The token for the text of a number.  The last `e` splits off the exponent and the last point
before it the fraction; a point behind the last `e` is an error. -/
def number? (text : List Char) : Option Token := do
  let isLetter : Char → Bool := fun c => c = 'e' || c = 'E'
  let (mantissa, exponent) ← match splitLast? isLetter (text.drop 1) with
    | none => pure (text, (0 : Int))
    | some (front, back) => do
      -- A point behind the last letter belongs to no part of a number.
      if back.contains '.' then none
      pure (text.take 1 ++ front, ← exponent? back)
  match splitLast? (· = '.') (mantissa.drop 1) with
  | some (front, fraction) =>
    let (negative, whole) ← integer? (mantissa.take 1 ++ front)
    let _ ← digits? fraction
    let digits ← digits? (whole ++ fraction)
    return .float (.ofDecimal negative ⟨digits, exponent - fraction.length⟩)
  | none =>
    let (negative, whole) ← integer? mantissa
    let digits ← digits? whole
    if text.drop 1 |>.any isLetter then
      return .float (.ofDecimal negative ⟨digits, exponent⟩)
    else
      let n : Int := if negative then -(digits : Int) else digits
      if intFits n then return .int n else none

example : number? "-120".toList = some (.int (-120)) := by decide
example : number? "-0".toList = some (.int 0) := by decide
example : number? "01".toList = none := by decide
example : number? "1e0".toList = none := by decide
example : number? "15e-1".toList = number? "1.5".toList := by decide +kernel
example : number? "9223372036854775808".toList = none := by decide +kernel

/-! ### One token -/

/-- A token together with the text it is written as. -/
structure Lexeme where
  token : Token
  text : List Char
  deriving DecidableEq, Repr

/-- The string or block string in front of a text that starts behind a first `"`, with the text
behind it. -/
def scanText? : List Char → Option (Lexeme × List Char)
  | '"' :: '"' :: rest => do
    let (content, after) ← Block.content? false rest
    return (⟨.block content, ['"', '"', '"'] ++ content ++ ['"', '"', '"']⟩, after)
  | text => do
    let (content, after) ← Quoted.content? text
    let value ← Quoted.decode content
    return (⟨.string (String.ofList value), '"' :: content ++ ['"']⟩, after)

/-- Cuts a token off the front of a text.  Gives nothing if there is none or it is malformed. -/
def scan : List Char → Option (Lexeme × List Char)
  | [] => none
  | '.' :: '.' :: '.' :: rest => some (⟨.punctuator .ellipsis, ['.', '.', '.']⟩, rest)
  | '"' :: rest => scanText? rest
  | c :: rest =>
    if isNameStart c then
      let text := c :: rest.takeWhile isNamePart
      some (⟨.name (String.ofList text), text⟩, rest.dropWhile isNamePart)
    else if c = '-' || c.isDigit then
      let text := c :: rest.takeWhile (!endsNumber ·)
      (number? text).map fun token => (⟨token, text⟩, rest.dropWhile (!endsNumber ·))
    else (punctuator? c).map fun mark => (⟨.punctuator mark, [c]⟩, rest)

end Token

/-! ## Ignored characters -/

/-- Skips the characters that separate tokens and gives the place and the text after them.  A
comment runs to the next carriage return or line feed, which starts a new line; its own
characters take no place.  A tab takes eight columns, a byte order mark and a carriage return
none. -/
def skipIgnored (inComment : Bool) (p : Position) : List Char → Position × List Char
  | [] => (p, [])
  | c :: rest =>
    if inComment then
      if c = '\r' || c = '\n' then skipIgnored false p.nextLine rest else skipIgnored true p rest
    else if c = '\ufeff' || c = '\r' then skipIgnored false p rest
    else if c = '\t' then skipIgnored false (p.shift 8) rest
    else if c = '\n' then skipIgnored false p.nextLine rest
    else if c = ' ' || c = ',' then skipIgnored false (p.shift 1) rest
    else if c = '#' then skipIgnored true p rest
    else (p, c :: rest)

example : skipIgnored false .start "\t #x\r\n, a".toList = (⟨3, 3⟩, ['a']) := by decide

/-! ## Streams -/

/-- The tokens of a text with their places. -/
structure Stream where
  tokens : List (Position × Token)
  /-- Where the tokens end: at the end of the text or at a malformed token. -/
  ending : Position
  /-- Whether the tokens are those of the whole text. -/
  complete : Bool
  /-- A number of tokens that the stream does not exceed. -/
  bound : Nat
  deriving DecidableEq, Repr

namespace Stream

/-- The deepest nesting of brackets of all kinds together that a text may have. -/
def maxDepth : Nat := 50

/-- The nesting after a token; nothing if the token would nest too deep. -/
def depthAfter (depth : Nat) : Token → Option Nat
  | .punctuator .parenOpen | .punctuator .bracketOpen | .punctuator .braceOpen =>
    if depth < maxDepth then some (depth + 1) else none
  | .punctuator .parenClose | .punctuator .bracketClose | .punctuator .braceClose =>
    some (depth - 1)
  | _ => some depth

/-- Cuts a text into tokens.  A token takes at least one character, so the length of the text
bounds the number of steps. -/
def scanAll (fuel depth : Nat) (p : Position) (text : List Char) : Stream :=
  let (p, text) := skipIgnored false p text
  match fuel, text with
  | _, [] => ⟨[], p, true, 0⟩
  | 0, _ :: _ => ⟨[], p, false, 0⟩
  | fuel + 1, text =>
    match Token.scan text with
    | none => ⟨[], p, false, 0⟩
    | some (lexeme, rest) =>
      -- A bracket that nests too deep ends the stream like a malformed token.
      match depthAfter depth lexeme.token with
      | none => ⟨[], p, false, 0⟩
      | some depth =>
        let stream := scanAll fuel depth (p.after lexeme.text) rest
        { stream with tokens := (p, lexeme.token) :: stream.tokens, bound := stream.bound + 1 }

/-- The tokens of a text. -/
def ofText (text : List Char) : Stream := scanAll text.length 0 .start text

/-- The bound of a stream is the number of its tokens, so it is a bound. -/
theorem bound_scanAll (fuel depth : Nat) (p : Position) (text : List Char) :
    (scanAll fuel depth p text).bound = (scanAll fuel depth p text).tokens.length := by
  induction fuel generalizing depth p text with
  | zero => unfold scanAll; split <;> simp_all
  | succ fuel ih =>
    unfold scanAll
    split
    next => rfl
    next => rfl
    next =>
      split
      next => rfl
      next =>
        -- Only a token that is not nested too deep goes into the stream.
        split
        next => rfl
        next => simp_all

theorem bound_ofText (text : List Char) : (ofText text).bound = (ofText text).tokens.length :=
  bound_scanAll text.length 0 .start text

example : ofText "a , 1".toList =
    ⟨[(⟨1, 1⟩, .name "a"), (⟨1, 5⟩, .int 1)], ⟨1, 6⟩, true, 2⟩ := by decide +kernel
example : ofText "a ? b".toList = ⟨[(⟨1, 1⟩, .name "a")], ⟨1, 3⟩, false, 1⟩ := by decide +kernel

end Stream

end SchemaAlgebra
