import SchemaAlgebra.Text.Whitespace

/-!
# String literals on one line

A string literal stands on one line between two `"` characters.  `Quoted.content?` cuts one off
the front of a text, `Quoted.decode` gives the value that its content stands for and
`Quoted.encode` writes a value as a literal.

Reading knows the escapes `\" \\ \/ \b \f \n \r \t` and `\u` with four characters.  Writing
escapes the two marks, line feed, carriage return and tab; any other character outside of
`U+0020 … U+FFFF` is written as `\u` followed by its code point in decimal, with at least four
digits.  Such a character does therefore not read back as itself.
-/

namespace SchemaAlgebra.Quoted

/-! ## Reading -/

/-- Splits a text that stands after an opening `"` into the literal's content and what follows the
closing `"`.  A `"` after a `\` does not close the literal; a line feed, or the end of the text,
leaves it open. -/
def content? : List Char → Option (List Char × List Char)
  | [] => none
  | '"' :: rest => some ([], rest)
  | '\\' :: c :: rest =>
    if c = '\n' then none
    else (content? rest).map fun (content, after) => ('\\' :: c :: content, after)
  | c :: rest =>
    if c = '\n' then none
    else (content? rest).map fun (content, after) => (c :: content, after)

/-- The value of a hexadecimal digit of either case. -/
def hexDigit? (c : Char) : Option Nat :=
  if '0' ≤ c ∧ c ≤ '9' then some (c.toNat - '0'.toNat)
  else if 'a' ≤ c ∧ c ≤ 'f' then some (c.toNat - 'a'.toNat + 10)
  else if 'A' ≤ c ∧ c ≤ 'F' then some (c.toNat - 'A'.toNat + 10)
  else none

/-- Reads a number from hexadecimal digits, most significant first. -/
def hexNumber? (digits : List Char) : Option Nat :=
  digits.foldl (fun value c => do return (← value) * 16 + (← hexDigit? c)) (some 0)

/-- The character with a given code point, if there is one: surrogates have none. -/
def scalar? (code : Nat) : Option Char :=
  if code.isValidChar then some (Char.ofNat code) else none

/-- The character that the four characters after `\u` stand for.  The first of them may be a `+`
sign in front of three digits. -/
def unicode? : List Char → Option Char
  | '+' :: digits => hexNumber? digits >>= scalar?
  | digits => hexNumber? digits >>= scalar?

/-- The character that one of the short escapes stands for.  Note that `\b` gives `U+0010`. -/
def shortEscape? : Char → Option Char
  | '"' => some '"'
  | '\\' => some '\\'
  | '/' => some '/'
  | 'b' => some '\x10'
  | 'f' => some '\x0c'
  | 'n' => some '\n'
  | 'r' => some '\r'
  | 't' => some '\t'
  | _ => none

/-- The value of a literal's content, if all of its escapes are well formed. -/
def decode : List Char → Option (List Char)
  | [] => some []
  | '\\' :: 'u' :: a :: b :: c :: d :: rest => do
    let character ← unicode? [a, b, c, d]
    return character :: (← decode rest)
  | '\\' :: c :: rest => do
    let character ← shortEscape? c
    return character :: (← decode rest)
  | ['\\'] => none
  | c :: rest => (decode rest).map (c :: ·)

example : decode "a\\n\\u0041\\u+041".toList = some "a\nAA".toList := by decide
example : decode "\\ud800".toList = none := by decide
example : decode "\\u12".toList = none := by decide

/-! ## Writing -/

/-- The characters that stand for themselves when they are neither marks nor line ends. -/
def isPlain (c : Char) : Bool :=
  0x20 ≤ c.toNat && c.toNat ≤ 0xFFFF

/-- The decimal digits of a number, with zeros in front up to four digits. -/
def fourDigits (n : Nat) : List Char :=
  let digits := Nat.toDigits 10 n
  List.replicate (4 - digits.length) '0' ++ digits

/-- How a single character is written inside a literal. -/
def encodeChar (c : Char) : List Char :=
  match c with
  | '\r' => ['\\', 'r']
  | '\n' => ['\\', 'n']
  | '\t' => ['\\', 't']
  | '"' => ['\\', '"']
  | '\\' => ['\\', '\\']
  | _ => if isPlain c then [c] else '\\' :: 'u' :: fourDigits c.toNat

/-- The literal for a value, with its marks. -/
def encode (value : List Char) : List Char :=
  '"' :: value.flatMap encodeChar ++ ['"']

example : encode "a\"\n".toList = "\"a\\\"\\n\"".toList := by decide +kernel
example : encode ['\x1f'] = "\"\\u0031\"".toList := by decide +kernel

end SchemaAlgebra.Quoted
