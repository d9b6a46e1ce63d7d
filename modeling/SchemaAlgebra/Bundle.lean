import SchemaAlgebra.Language.Printer
import SchemaAlgebra.Normalize
import SchemaAlgebra.Registry
import SchemaAlgebra.ResolverMap

/-!
# Bundles

A schema document travels together with what lies outside of it: the resolvers of its fields and
the configs of its scalars.  Merging and paring keep the three in step.

The types of resolvers and configs are parameters, because no operation on bundles looks into
them.
-/

namespace SchemaAlgebra

/-- A document with its resolvers and scalar configs. -/
structure Bundle (R S : Type) where
  document : Document
  resolvers : ResolverMap R
  scalars : OrderedMap String S

namespace Bundle

variable {R S : Type}

/-- A document without resolvers and configs. -/
def ofDocument (document : Document) : Bundle R S := ⟨document, ∅, ∅⟩

instance : EmptyCollection (Bundle R S) := ⟨ofDocument ∅⟩
instance : Inhabited (Bundle R S) := ⟨∅⟩

/-- The text of a bundle's document. -/
def print (bundle : Bundle R S) : String := bundle.document.print

/-- The registry of a bundle's document and configs. -/
def registry (bundle : Bundle R S) : Except RegistryError (Registry S) :=
  Registry.build bundle.document bundle.scalars

/-- The bundle with another resolver map. -/
def withResolvers (bundle : Bundle R S) (resolvers : ResolverMap R) : Bundle R S :=
  { bundle with resolvers }

/-- The bundle with other scalar configs. -/
def withScalars (bundle : Bundle R S) (scalars : OrderedMap String S) : Bundle R S :=
  { bundle with scalars }

/-- The bundle with a config for a scalar, in place of the one that the scalar has. -/
def withScalarConfig (bundle : Bundle R S) (scalar : String) (config : S) : Bundle R S :=
  { bundle with scalars := bundle.scalars.insert scalar config }

/-- The bundle with its document normalized. -/
def normalize (bundle : Bundle R S) : Noted (Bundle R S) := do
  return { bundle with document := ← bundle.document.normalize }

/-- The bundle with its resolver map in flattened or in nested form. -/
def exportResolvers (bundle : Bundle R S) (flattened : Bool) : Noted (Bundle R S) := do
  return { bundle with resolvers := ← bundle.resolvers.export flattened bundle.document }

end Bundle

end SchemaAlgebra
