import SchemaAlgebra.Policy
import SchemaAlgebra.Registry

/-!
# Merging scalar configs

For a scalar that both schemas define, the policy decides about the config.  It is shown the
configs that the registries of the two sides have.  If a side has no registry, the policy sees no
config for that side; its answer is then *degraded*, and an answer of "no config" does not take
away the one that was carried over.

The merged configs start from those of both sides, the right ones winning.  The policy's answers
come on top, and in the end only the configs of scalars that the merged document defines are kept.
-/

namespace SchemaAlgebra

/-- The policy's answer for a scalar. -/
structure ScalarAnswer (S : Type) where
  config : Option S
  /-- Whether the configs of some side could not be seen. -/
  degraded : Bool

/-- The registries that scalar configs are looked up in. -/
structure ScalarSides (S : Type) where
  target : Except RegistryError (Registry S)
  source : Except RegistryError (Registry S)

namespace ScalarSides

variable {S : Type}

/-- The registry of a side. -/
def registry (sides : ScalarSides S) : Side → Except RegistryError (Registry S)
  | .target => sides.target
  | .source => sides.source

/-- The config that a side has for a scalar, or why its configs cannot be seen. -/
def config? (sides : ScalarSides S) (side : Side) (scalar : String) :
    Except ConfigsUnavailable (Option S) :=
  match sides.registry side with
  | .ok registry => .ok (registry.config? scalar)
  | .error reason => .error ⟨side, reason⟩

/-- Whether the configs of some side cannot be seen. -/
def degraded (sides : ScalarSides S) : Bool :=
  !(sides.target.toBool && sides.source.toBool)

/-- The config that is shown to the policy.  One that cannot be seen is reported and left out. -/
def shown (sides : ScalarSides S) (side : Side) (scalar : String) : Asking S (Option S) :=
  match sides.config? side scalar with
  | .ok config => return config
  | .error cause => do
    Asking.note (.configsUnavailable cause)
    return none

/-- Asks the policy about a scalar that both sides define. -/
def settle (sides : ScalarSides S) (policy : Policy S) (left right : TypeDefinition) :
    Asking S (ScalarAnswer S) := do
  let leftConfig ← sides.shown .target right.name
  let rightConfig ← sides.shown .source right.name
  let config ← policy.askScalar left leftConfig right rightConfig
  return ⟨config, sides.degraded⟩

end ScalarSides

namespace ScalarAnswer

variable {S : Type}

/-- Puts the policy's answer for a scalar into the configs. -/
def apply (configs : OrderedMap String S) (scalar : String) (answer : ScalarAnswer S) :
    Noted (OrderedMap String S) :=
  match answer.config with
  | some config => return configs.insert scalar config
  | none =>
    if answer.degraded then do
      Traced.emit (.keepingConfig scalar)
      return configs
    else return configs.erase scalar

end ScalarAnswer

/-- Keeps the configs of the scalars that a document defines. -/
def retainScalars {S : Type} (document : Document) (configs : OrderedMap String S) :
    Noted (OrderedMap String S) := do
  (configs.keys.filter (!document.definedScalars.contains ·)).forM fun scalar =>
    Traced.emit (.droppingConfig scalar)
  return configs.filter fun scalar _ => document.definedScalars.contains scalar

/-- The configs of the merged schema, from those of both sides and the policy's answers. -/
def mergeScalars {S : Type} (left right : OrderedMap String S)
    (answers : OrderedMap String (ScalarAnswer S)) (document : Document) :
    Noted (OrderedMap String S) := do
  let carried := left.insertAll right.entries
  let settled ← answers.entries.foldlM
    (fun configs (scalar, answer) => answer.apply configs scalar) carried
  retainScalars document settled

end SchemaAlgebra
