import SchemaAlgebra.OrderedMap
import SchemaAlgebra.Language.Value

/-!
# Resolvers

A resolver computes the value of a field from the value of its parent object and the field's
arguments.  Resolvers are composed in chains: each one gets the value of the one before it as its
parent value, and all get the same arguments.
-/

namespace SchemaAlgebra

/-- The arguments of a field by name. -/
abbrev Arguments := OrderedMap String Value

/-- Computes a field's value from its parent value and its arguments. -/
abbrev Resolver := Value → Arguments → Value

/-- Resolvers that are run one after the other. -/
structure ResolverChain where
  resolvers : List Resolver

namespace ResolverChain

/-- The chain without resolvers. -/
def empty : ResolverChain := ⟨[]⟩

/-- The number of resolvers. -/
def size (chain : ResolverChain) : Nat := chain.resolvers.length

/-- Whether a chain has no resolvers. -/
def isEmpty (chain : ResolverChain) : Bool := chain.resolvers.isEmpty

/-- Adds a resolver that runs after the others. -/
def push (chain : ResolverChain) (resolver : Resolver) : ResolverChain :=
  ⟨chain.resolvers ++ [resolver]⟩

/-- Runs the chain.  The empty chain gives the parent value itself. -/
def resolve (chain : ResolverChain) (parent : Value) (arguments : Arguments) : Value :=
  chain.resolvers.foldl (fun value resolver => resolver value arguments) parent

/-- The chain as a single resolver. -/
def toResolver (chain : ResolverChain) : Resolver := chain.resolve

@[simp] theorem resolve_empty (parent : Value) (arguments : Arguments) :
    empty.resolve parent arguments = parent := rfl

@[simp] theorem resolve_push (chain : ResolverChain) (resolver : Resolver) (parent : Value)
    (arguments : Arguments) :
    (chain.push resolver).resolve parent arguments =
      resolver (chain.resolve parent arguments) arguments := by
  simp [resolve, push]

/-- The text that describes a chain. -/
def describe (chain : ResolverChain) : String := s!"ResolverChain \x7b len: {chain.size} \x7d"

end ResolverChain

end SchemaAlgebra
