/-!
# Whitespace and lines

The characters that count as blank in schema text are those with the Unicode property
`White_Space`.  A text is cut into lines at line feeds; a carriage return directly before a line
feed belongs to the line's end, and the text after the last line feed is a line only if there is
any.

Both functions work on lists of characters, the form in which the rest of the library takes a
text apart.
-/

namespace SchemaAlgebra

/-! ## The blank characters -/

/-- The ranges of code points with the Unicode property `White_Space`, in increasing order. -/
def blankRanges : List (Nat × Nat) :=
  [(0x09, 0x0D), (0x20, 0x20), (0x85, 0x85), (0xA0, 0xA0), (0x1680, 0x1680), (0x2000, 0x200A),
    (0x2028, 0x2029), (0x202F, 0x202F), (0x205F, 0x205F), (0x3000, 0x3000)]

/-- A character is blank if its code point lies in one of the `blankRanges`. -/
def isBlank (c : Char) : Bool :=
  blankRanges.any fun (low, high) => low ≤ c.toNat && c.toNat ≤ high

/-- Twenty-five characters are blank. -/
example : (blankRanges.map fun (low, high) => high + 1 - low).sum = 25 := rfl

/-- The blank characters include the ones that the core library calls whitespace. -/
theorem isBlank_of_isWhitespace {c : Char} (h : c.isWhitespace = true) : isBlank c = true := by
  simp only [Char.isWhitespace, Bool.or_eq_true, decide_eq_true_eq] at h
  rcases h with ((rfl | rfl) | rfl) | rfl <;> decide

/-- A text of blank characters only, the empty one included. -/
def allBlank (text : List Char) : Bool :=
  text.all isBlank

/-! ## Lines -/

/-- The lines of a text, without the characters that end them. -/
def lines : List Char → List (List Char)
  | [] => []
  | '\r' :: '\n' :: rest => [] :: lines rest
  | '\n' :: rest => [] :: lines rest
  | c :: rest =>
    match lines rest with
    | [] => [[c]]
    | line :: more => (c :: line) :: more

example : lines "a\r\n\nb".toList = ["a".toList, [], "b".toList] := by decide
example : lines "a\n".toList = ["a".toList] := by decide
example : lines "a\r".toList = ["a\r".toList] := by decide

/-- The length of a text in bytes when it is written in UTF-8. -/
def byteLength : List Char → Nat
  | [] => 0
  | c :: rest => c.utf8Size + byteLength rest

/-- Drops `count` bytes from the front of a text, or fails if that would cut a character. -/
def dropBytes : Nat → List Char → Option (List Char)
  | 0, text => some text
  | _ + 1, [] => some []
  | count + 1, c :: rest =>
    if c.utf8Size ≤ count + 1 then dropBytes (count + 1 - c.utf8Size) rest else none

/-- The first `count` characters can always be dropped by their byte length. -/
theorem dropBytes_byteLength (front rest : List Char) :
    dropBytes (byteLength front) (front ++ rest) = some rest := by
  induction front with
  | nil => simp [byteLength, dropBytes]
  | cons c cs ih =>
    have positive := Char.utf8Size_pos c
    have size : byteLength (c :: cs) = c.utf8Size + byteLength cs := rfl
    obtain ⟨n, hn⟩ : ∃ n, byteLength (c :: cs) = n + 1 :=
      ⟨byteLength (c :: cs) - 1, by omega⟩
    have fits : c.utf8Size ≤ n + 1 := by omega
    have left : n + 1 - c.utf8Size = byteLength cs := by omega
    rw [hn]
    simp [dropBytes, fits, left, ih]

end SchemaAlgebra
