import GlyphField.Activation.Interpreter
import GlyphField.Activation.Projection
import GlyphField.Activation.State
import GlyphField.Angle
import GlyphField.CommandLine.Options
import GlyphField.CommandLine.Session
import GlyphField.Decimal.Fixed
import GlyphField.Decimal.Numeral
import GlyphField.Glyph.Reader
import GlyphField.Json.Reader
import GlyphField.Keyed
import GlyphField.Lineage.Walk
import GlyphField.Main
import GlyphField.Proofs.ChecksumResidual
import GlyphField.Quantity
import GlyphField.Registry
import GlyphField.Script.Reader
import GlyphField.SelfTest
import GlyphField.Settings
import GlyphField.Substrate.Grid
import GlyphField.Substrate.Operation
import GlyphField.Substrate.Snapshot
import GlyphField.Substrate.Status
import GlyphField.Text.Blank
import GlyphField.Text.Column
import GlyphField.Text.Split
import GlyphField.Text.Utf8
import GlyphField.Vault.Load
import GlyphField.Proofs.Chains
import GlyphField.Proofs.WalkInvariant
import GlyphField.Proofs.LineageLimit
import GlyphField.Proofs.MemoTable
import GlyphField.Proofs.MemoSound
import GlyphField.Proofs.ActivationLimit
import GlyphField.Proofs.AncestorOrder
import GlyphField.Proofs.FloatParts
import GlyphField.Proofs.FloatOrder
import GlyphField.Proofs.FloatRounding
import GlyphField.Proofs.FloatArithmetic
import GlyphField.Proofs.CellBounds
import GlyphField.Proofs.CleanSync
import GlyphField.Proofs.DefinitionLines
import GlyphField.Proofs.DecimalText
import GlyphField.Proofs.FieldValues
import GlyphField.Proofs.DefinitionImage
import GlyphField.Proofs.SnapshotRoundTrip
import GlyphField.Proofs.OverrideOrder
import GlyphField.Proofs.ErrorCertificates
import GlyphField.Proofs.DirectoryLoad
import GlyphField.Proofs.Locality
import GlyphField.Proofs.BatchIsolation
import GlyphField.Proofs.JsonRoundTrip
import GlyphField.Proofs.StepListing
import GlyphField.Proofs.ListedOnce
import GlyphField.Proofs.ActivationSteps
import GlyphField.Proofs.TraceLog
import GlyphField.Proofs.FileGates
import GlyphField.Proofs.PouchFrame
import GlyphField.Proofs.QuantumCells
import GlyphField.Proofs.SessionOutcome
import GlyphField.Proofs.WaveFronts
import GlyphField.Proofs.WaveReach
import GlyphField.Proofs.FloatTruncation
import GlyphField.Proofs.Tampering
import GlyphField.Proofs.ProjectionFailure
import GlyphField.Proofs.PostOrder
import GlyphField.Proofs.Repetitions
import GlyphField.Proofs.SameParents
import GlyphField.Proofs.DanglingParents
import GlyphField.Proofs.ScriptPieces
import GlyphField.Proofs.IdleCommands
import GlyphField.Proofs.NumeralGrammar
import GlyphField.Proofs.CommandGrammar
import GlyphField.Proofs.FloatNearest
import GlyphField.Proofs.ShortestDigits
import GlyphField.Proofs.ShortestText
import GlyphField.Proofs.LiteralRounding
import GlyphField.Proofs.ScriptRoundTrip
import GlyphField.Proofs.OperationHistory
import GlyphField.Proofs.CheckedWave
import GlyphField.Proofs.Accounting
import GlyphField.Proofs.Normalization
import GlyphField.Proofs.ProjectionEffect
import GlyphField.Proofs.EditOrder
import GlyphField.Proofs.RegistryHistory
import GlyphField.Proofs.WorkLoop
import GlyphField.Proofs.PreservedStates
import GlyphField.Proofs.StateRanges
import GlyphField.Proofs.FloatOverflow
import GlyphField.Proofs.ScriptStates
import GlyphField.Proofs.FiniteNumbers
import GlyphField.Proofs.ChecksumTerms
