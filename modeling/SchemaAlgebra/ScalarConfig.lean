import SchemaAlgebra.OrderedMap
import SchemaAlgebra.Language.Value
import SchemaAlgebra.Text.Inspect

/-!
# Scalar configs

The behaviour of a custom scalar is not part of a schema document.  A `ScalarConfig` holds it: how
values of the scalar are serialized, and how values and literals that come in are parsed.  What is
not configured leaves values as they are.  Only parsing can fail.
-/

namespace SchemaAlgebra

/-- The behaviour of a custom scalar. -/
structure ScalarConfig where
  description : Option String
  parseLiteral : Option (Value → Option Value)
  parseValue : Option (Value → Option Value)
  serialize : Option (Value → Value)
  specifiedByUrl : Option String

namespace ScalarConfig

/-- The config that configures nothing. -/
def empty : ScalarConfig := ⟨none, none, none, none, none⟩

instance : EmptyCollection ScalarConfig := ⟨empty⟩
instance : Inhabited ScalarConfig := ⟨empty⟩

/-- The written form of a value of the scalar. -/
def serializeValue (config : ScalarConfig) (value : Value) : Value :=
  match config.serialize with
  | some serialize => serialize value
  | none => value

/-- The value of the scalar that a variable's value stands for. -/
def parseInputValue (config : ScalarConfig) (value : Value) : Option Value :=
  match config.parseValue with
  | some parse => parse value
  | none => some value

/-- The value of the scalar that a literal stands for. -/
def parseLiteralValue (config : ScalarConfig) (value : Value) : Option Value :=
  match config.parseLiteral with
  | some parse => parse value
  | none => some value

/-- The text that describes a config. -/
def describe (config : ScalarConfig) : String :=
  let literal := config.parseLiteral.isSome
  let value := config.parseValue.isSome
  let serialize := config.serialize.isSome
  let description := inspectOption config.description
  let url := inspectOption config.specifiedByUrl
  s!"ScalarConfig \x7b description: {description}, parse_literal: {literal}, " ++
    s!"parse_value: {value}, serialize: {serialize}, specified_by_url: {url} \x7d"

end ScalarConfig

end SchemaAlgebra
