import SchemaAlgebra.Main
import SchemaAlgebra.Resolver
import SchemaAlgebra.ScalarConfig
import SchemaAlgebra.Proofs.Siblings
import SchemaAlgebra.Proofs.Nodes
import SchemaAlgebra.Proofs.Slots
import SchemaAlgebra.Proofs.MergedDocument
import SchemaAlgebra.Proofs.RightBiasedUnion
import SchemaAlgebra.Proofs.ParedDocument
import SchemaAlgebra.Proofs.Subtraction
import SchemaAlgebra.Proofs.Consistency
import SchemaAlgebra.Proofs.MergedResolvers
import SchemaAlgebra.Proofs.ScalarConfigs
import SchemaAlgebra.Proofs.FoldedExtensions
import SchemaAlgebra.Proofs.Lexing
import SchemaAlgebra.Proofs.Literals
import SchemaAlgebra.Proofs.WrittenWords
import SchemaAlgebra.Proofs.Reading
import SchemaAlgebra.Proofs.Rereading
import SchemaAlgebra.Proofs.RereadDefinitions
import SchemaAlgebra.Proofs.ReaderInvariants
import SchemaAlgebra.Proofs.ParsedNodes
import SchemaAlgebra.Proofs.Legibility
import SchemaAlgebra.Proofs.ReadableMerge
import SchemaAlgebra.Proofs.CutMaps
import SchemaAlgebra.Proofs.ParedResolvers
import SchemaAlgebra.Proofs.Overlays
import SchemaAlgebra.Proofs.MergeThenPare
import SchemaAlgebra.Proofs.Bracketing
import SchemaAlgebra.Proofs.KeptTarget
import SchemaAlgebra.Proofs.MergedRegistry
import SchemaAlgebra.Proofs.CarriedConfigs
import SchemaAlgebra.Proofs.NestedResolvers
import SchemaAlgebra.Proofs.Collisions
import SchemaAlgebra.Proofs.AskedQuestions
import SchemaAlgebra.Proofs.KeyedSteps
import SchemaAlgebra.Proofs.Additions
import SchemaAlgebra.Proofs.MergedRoots
import SchemaAlgebra.Proofs.RepeatedMerge
import SchemaAlgebra.Proofs.Annotations
import SchemaAlgebra.Proofs.Survivors
import SchemaAlgebra.Proofs.CommutingOperations
import SchemaAlgebra.Proofs.FlattenedResolvers
import SchemaAlgebra.Proofs.LiftedResolvers
import SchemaAlgebra.Proofs.Removals
import SchemaAlgebra.Proofs.NearestNumbers
import SchemaAlgebra.Proofs.ShortestDigits
import SchemaAlgebra.Proofs.RereadNumbers
import SchemaAlgebra.Proofs.KeptTexts
import SchemaAlgebra.Proofs.KeptNodes
import SchemaAlgebra.Proofs.SettledNodes
import SchemaAlgebra.Proofs.SourceForms
import SchemaAlgebra.Proofs.ScannedCollections
import SchemaAlgebra.Proofs.ArenaEdits
import SchemaAlgebra.Proofs.FirstViolations
import SchemaAlgebra.Proofs.Walks
import SchemaAlgebra.Proofs.LoadedSides
