import SchemaAlgebra.Text.Whitespace

/-!
# Block strings

A block string stands between two `"""` marks and may run over several lines.  Its value is its
text without the blank lines at both ends and without the indent that its lines have in common;
the first line, which follows the opening mark, neither counts for that indent nor loses it.

The indent is measured in bytes.  Lines that are indented by different blank characters may
therefore have a common indent that ends inside a character; `Block.decode` has no value then.
-/

namespace SchemaAlgebra.Block

/-! ## Reading -/

/-- Splits a text that stands after an opening `"""` into the block's content and what follows the
closing mark.  Marks are looked for from left to right without overlap, and one that directly
follows a `\` is part of the content.  `escaped` tells whether the character before the text is
a `\`. -/
def content? (escaped : Bool) : List Char → Option (List Char × List Char)
  | [] => none
  | '"' :: '"' :: '"' :: rest =>
    if escaped then
      (content? false rest).map fun (content, after) => ('"' :: '"' :: '"' :: content, after)
    else some ([], rest)
  | c :: rest => (content? (c = '\\') rest).map fun (content, after) => (c :: content, after)

/-- The number of bytes before the first character of a line that is not blank. -/
def indent (line : List Char) : Nat :=
  byteLength (line.takeWhile isBlank)

/-- The least indent of the lines that are not blank, if there is such a line. -/
def commonIndent (lines : List (List Char)) : Option Nat :=
  ((lines.filter (!allBlank ·)).map indent).min?

/-- A `"""` mark that was kept from closing the block loses its `\`. -/
def unescape : List Char → List Char
  | '\\' :: '"' :: '"' :: '"' :: rest => '"' :: '"' :: '"' :: unescape rest
  | c :: rest => c :: unescape rest
  | [] => []

/-- Drops the common indent from a line that is at least that long. -/
def dedent (common : Option Nat) (line : List Char) : Option (List Char) :=
  match common with
  | none => some line
  | some count => if count ≤ byteLength line then dropBytes count line else some line

/-- Removes the blank lines at both ends. -/
def trimBlankLines (lines : List (Bool × List Char)) : List (Bool × List Char) :=
  let blank : Bool × List Char → Bool := fun (_, line) => allBlank line
  ((lines.dropWhile blank).reverse.dropWhile blank).reverse

/-- Joins lines by line feeds. -/
def joinLines : List (List Char) → List Char
  | [] => []
  | [line] => line
  | line :: rest => line ++ '\n' :: joinLines rest

/-- The value of a block's content, or nothing if its common indent ends inside a character. -/
def decode (content : List Char) : Option (List Char) := do
  let all := lines content
  -- The first line stays marked, because it keeps its indent wherever the trimming leaves it.
  let marked := all.zipIdx.map fun (line, i) => (i == 0, line)
  let common := commonIndent (all.drop 1)
  let kept ← (trimBlankLines marked).mapM fun (first, line) =>
    if first then some line else dedent common line
  return joinLines (kept.map unescape)

example : decode "\n  a\n    b\n".toList = some "a\n  b".toList := by decide
example : decode "  a\n  b".toList = some "  a\nb".toList := by decide
example : decode " \n\t\n".toList = some [] := by decide
/-- A no-break space takes two bytes, of which the common indent covers one. -/
example : decode "\n\u00a0a\n b".toList = none := by decide

/-! ## Writing -/

/-- A value is written as a block if it has a line feed and only characters that a block can
hold as they are. -/
def isBlock (value : List Char) : Bool :=
  value.contains '\n' &&
    value.all fun c => c = '\n' || c = '\r' || c = '\t' || (0x20 ≤ c.toNat && c.toNat ≤ 0xFFFF)

/-- Puts a `\` before every `"""`. -/
def escape : List Char → List Char
  | '"' :: '"' :: '"' :: rest => '\\' :: '"' :: '"' :: '"' :: escape rest
  | c :: rest => c :: escape rest
  | [] => []

/-- One line of a block: an empty line for a blank one, otherwise the line two places further in
than the block. -/
def encodeLine (column : Nat) (line : List Char) : List Char :=
  if allBlank line then ['\n']
  else List.replicate (column + 2) ' ' ++ escape line ++ ['\n']

/-- The block for a value, with its marks, whose closing mark stands in the given column. -/
def encode (column : Nat) (value : List Char) : List Char :=
  ['"', '"', '"', '\n'] ++ (lines value).flatMap (encodeLine column) ++
    List.replicate column ' ' ++ ['"', '"', '"']

example : encode 0 "a\nb".toList = "\"\"\"\n  a\n  b\n\"\"\"".toList := by decide

end SchemaAlgebra.Block
