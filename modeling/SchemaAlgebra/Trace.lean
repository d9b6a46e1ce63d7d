import SchemaAlgebra.Fault

/-!
# Traces

An operation reports what it does while it does it.  A computation of type `Traced ε α` has a value
and the list of the events on the way, in order; running one computation after another appends
their events.  The value never depends on the events, so it can be reasoned about on its own.

Most events are `Notice`s: statements about what is being done, each with a level and a wording.
-/

namespace SchemaAlgebra

/-! ## Traced computations -/

/-- A value together with the events that led to it. -/
structure Traced (ε α : Type) where
  value : α
  events : List ε

namespace Traced

variable {ε δ α β : Type}

/-- Two computations are the same if they agree on value and events. -/
theorem ext {x y : Traced ε α} (hv : x.value = y.value) (he : x.events = y.events) : x = y := by
  cases x; cases y; simp_all

instance : Monad (Traced ε) where
  pure a := ⟨a, []⟩
  bind x f :=
    let y := f x.value
    ⟨y.value, x.events ++ y.events⟩

@[simp] theorem value_pure (a : α) : (pure a : Traced ε α).value = a := rfl

@[simp] theorem events_pure (a : α) : (pure a : Traced ε α).events = [] := rfl

@[simp] theorem value_bind (x : Traced ε α) (f : α → Traced ε β) :
    (x >>= f).value = (f x.value).value := rfl

@[simp] theorem events_bind (x : Traced ε α) (f : α → Traced ε β) :
    (x >>= f).events = x.events ++ (f x.value).events := rfl

@[simp] theorem value_map (f : α → β) (x : Traced ε α) : (f <$> x).value = f x.value := rfl

@[simp] theorem events_map (f : α → β) (x : Traced ε α) : (f <$> x).events = x.events := by
  show x.events ++ [] = x.events
  simp

instance : LawfulMonad (Traced ε) :=
  LawfulMonad.mk' (Traced ε) (fun _ => ext rfl (by simp)) (fun _ _ => ext rfl (by simp))
    (fun _ _ _ => ext rfl (by simp))

/-- The value of a loop is the loop over the values of its steps. -/
@[simp] theorem value_foldlM (f : β → α → Traced ε β) (init : β) (items : List α) :
    (items.foldlM f init).value = items.foldl (fun acc item => (f acc item).value) init := by
  induction items generalizing init with
  | nil => rfl
  | cons first rest ih => simp [ih]

/-- Reports one event. -/
def emit (event : ε) : Traced ε Unit := ⟨(), [event]⟩

@[simp] theorem events_emit (event : ε) : (emit event).events = [event] := rfl

/-- Replaces each event. -/
def mapEvents (f : ε → δ) (x : Traced ε α) : Traced δ α := ⟨x.value, x.events.map f⟩

@[simp] theorem value_mapEvents (f : ε → δ) (x : Traced ε α) : (x.mapEvents f).value = x.value := rfl

@[simp] theorem events_mapEvents (f : ε → δ) (x : Traced ε α) :
    (x.mapEvents f).events = x.events.map f := rfl

end Traced

/-! ## Notices -/

/-- How much a notice matters. -/
inductive Level where
  | trace | debug | info | warn | error
  deriving DecidableEq, Repr

/-- The name of a level. -/
def Level.label : Level → String
  | .trace => "TRACE"
  | .debug => "DEBUG"
  | .info => "INFO"
  | .warn => "WARN"
  | .error => "ERROR"

/-- What an operation can report. -/
inductive Notice where
  /-- A schema that was handed to an operation has no text. -/
  | unprintable (operation : Operation) (side : Side) (received : String)
  /-- An extension is turned into a definition. -/
  | normalizing (type : String)
  /-- A merge begins. -/
  | merging (sourceCount targetCount : Nat)
  /-- A pare begins. -/
  | paring (sourceCount targetCount : Nat)
  | replacingDirective (name : String)
  | addingDirective (name : String)
  | addingType (kind : TypeKind) (type : String)
  | mergingType (source : TypeKind) (type : String) (target : TypeKind)
  /-- A later target node of a type becomes part of the first one. -/
  | folding (type : String)
  /-- A later target node of a type has another kind than the first one. -/
  | foreignNode (type : String) (extended defined : TypeKind)
  /-- Two sides give a type kinds whose members cannot be merged. -/
  | directivesOnly (type : String) (target source : TypeKind)
  | resolvingConflict (owner name : String)
  | addingNode (owner name : String)
  /-- The policy answered with an input field where an output field belongs. -/
  | unexpectedInputField (type field : String)
  /-- The policy answered with an output field where an input field belongs. -/
  | unexpectedOutputField (type field : String)
  | configsUnavailable (cause : ConfigsUnavailable)
  /-- A config stays although the policy gave none, because it did not see both sides. -/
  | keepingConfig (scalar : String)
  | droppingConfig (scalar : String)
  | orphanedResolver (path : String)
  /-- A directive of the source is new to the target of a pare. -/
  | absentDirective (name : String)
  /-- A type of the source is new to the target of a pare. -/
  | absentType (name : String)
  | leavingSchema
  | droppingScalar (name : String)
  /-- Two sides give a type kinds whose members cannot be pared from each other. -/
  | nothingPared (type : String) (target source : TypeKind)
  /-- A node lost its last member. -/
  | droppingEmptied (kind : TypeKind) (type : String)
  | paredMembers (type : String) (members : List String)
  | removedResolver (type field : String)
  | removedFlattened (type field : String)
  /-- A root field's resolver stays because another root type declares the field. -/
  | keepingFlattened (field : String)
  | unableToFlatten (type field : String)
  /-- A root field's resolver stays where it is because no root type declares the field. -/
  | notARootField (field : String)
  deriving DecidableEq, Repr

namespace Notice

/-- The level of each notice. -/
def level : Notice → Level
  | .normalizing _ | .resolvingConflict _ _ | .addingNode _ _ | .leavingSchema
  | .removedResolver _ _ | .removedFlattened _ _ => .trace
  | .foreignNode _ _ _ | .directivesOnly _ _ _ | .unexpectedInputField _ _
  | .unexpectedOutputField _ _ | .nothingPared _ _ _ | .unableToFlatten _ _ => .warn
  | _ => .debug

/-- The wording of each notice. -/
def text : Notice → String
  | .unprintable operation side received =>
    s!"`{operation.label}` could not print its {side.label} input: {received}"
  | .normalizing type => s!"Normalizing extension of `{type}` into a type definition."
  | .merging sourceCount targetCount =>
    s!"Merging {sourceCount} source definitions into {targetCount} target definitions."
  | .paring sourceCount targetCount =>
    s!"Paring {sourceCount} source definitions from {targetCount} target definitions."
  | .replacingDirective name => s!"Replacing directive definition `@{name}`."
  | .addingDirective name => s!"Adding directive definition `@{name}`."
  | .addingType kind type => s!"Adding new {kind.label} `{type}`."
  | .mergingType source type target =>
    s!"Merging {source.label} `{type}` into existing {target.label}."
  | .folding type => s!"Folding a later `{type}` node into its first definition."
  | .foreignNode type extended defined =>
    s!"`{type}` is extended as a {extended.label} but defined as a {defined.label}; leaving " ++
      "that extension as it is."
  | .directivesOnly type target source =>
    s!"`{type}` is a {target.label} in the target but a {source.label} in the source; only its " ++
      "directives were merged."
  | .resolvingConflict owner name => s!"Resolving conflict on `{owner}.{name}`."
  | .addingNode owner name => s!"Adding `{owner}.{name}`."
  | .unexpectedInputField type field =>
    s!"The field resolver returned an input field for `{type}.{field}`; keeping the source field."
  | .unexpectedOutputField type field =>
    s!"The field resolver returned an output field for `{type}.{field}`; keeping the source field."
  | .configsUnavailable cause => cause.message
  | .keepingConfig scalar =>
    s!"Keeping the carried-over scalar config for `{scalar}`: a side's registry was unavailable " ++
      "to the scalar resolver."
  | .droppingConfig scalar =>
    s!"Dropping the scalar config for `{scalar}`: it no longer names a scalar in the merged schema."
  | .orphanedResolver path => s!"Dropped orphaned resolver `{path}`."
  | .absentDirective name =>
    s!"Directive `@{name}` is not defined in the target; adding it as a merge would."
  | .absentType name => s!"`{name}` is not defined in the target; adding it as a merge would."
  | .leavingSchema => "Leaving the target's schema definition untouched."
  | .droppingScalar name => s!"Dropping scalar `{name}`."
  | .nothingPared type target source =>
    s!"`{type}` is a {target.label} in the target but a {source.label} in the source; nothing " ++
      "was pared from it."
  | .droppingEmptied kind type => s!"Dropping {kind.label} `{type}`: nothing is left in it."
  | .paredMembers type members =>
    let count := members.length
    let names := String.intercalate ", " members
    s!"Pared {count} members from `{type}`: {names}."
  | .removedResolver type field => s!"Removed resolver for `{type}.{field}`."
  | .removedFlattened type field => s!"Removed flattened resolver for `{type}.{field}`."
  | .keepingFlattened field =>
    s!"Keeping flattened resolver `{field}`: another root operation type still declares it."
  | .unableToFlatten type field =>
    s!"Unable to flatten `{type}.{field}`: a top-level `{field}` entry already exists."
  | .notARootField field =>
    s!"Top-level resolver `{field}` does not name a root operation field; leaving it in place."

/-- A notice as one line of a log. -/
def line (notice : Notice) : String := notice.level.label ++ " " ++ notice.text

end Notice

/-- A computation whose only events are notices. -/
abbrev Noted (α : Type) := Traced Notice α

end SchemaAlgebra
