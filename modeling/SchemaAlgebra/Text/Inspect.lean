import SchemaAlgebra.Text.Hidden

/-!
# Texts for inspection

Descriptions of values show the texts in them between quotation marks, with an escape for every
character that could not be seen or that would end the quotation.
-/

namespace SchemaAlgebra

/-- How a character is shown. -/
def inspectChar (c : Char) : List Char :=
  match c with
  | '\x00' => ['\\', '0']
  | '\t' => ['\\', 't']
  | '\r' => ['\\', 'r']
  | '\n' => ['\\', 'n']
  | '"' => ['\\', '"']
  | '\\' => ['\\', '\\']
  | _ =>
    if isHidden c then ['\\', 'u', '{'] ++ Nat.toDigits 16 c.toNat ++ ['}'] else [c]

/-- A text as it is shown. -/
def inspect (text : String) : String :=
  String.ofList ('"' :: text.toList.flatMap inspectChar ++ ['"'])

/-- How a text that may be missing is shown. -/
def inspectOption : Option String → String
  | none => "None"
  | some text => "Some(" ++ inspect text ++ ")"

example : inspect "a\"\n" = "\"a\\\"\\n\"" := by decide +kernel

end SchemaAlgebra
