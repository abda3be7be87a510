import PathQuery.Main
import PathQuery.Path.Equality
import PathQuery.Session
import PathQuery.Proofs.Document.LocationOrder
import PathQuery.Proofs.Document.DistinctKeys
import PathQuery.Proofs.Document.Rebuild
import PathQuery.Proofs.Document.ReadKeys
import PathQuery.Proofs.Outcome
import PathQuery.Proofs.Query.Provenance
import PathQuery.Proofs.Query.PreOrder
import PathQuery.Proofs.Query.Reach
import PathQuery.Proofs.Query.KeyPattern
import PathQuery.Proofs.Edit.Removal
import PathQuery.Proofs.Edit.Replacement
import PathQuery.Proofs.Edit.Creation
import PathQuery.Proofs.Query.Failure
import PathQuery.Proofs.Edit.Atomicity
import PathQuery.Proofs.Query.Composition
import PathQuery.Proofs.Edit.LastStep
import PathQuery.Proofs.Edit.Enlargement
import PathQuery.Proofs.Edit.Positions
import PathQuery.Proofs.Text.Trimming
import PathQuery.Proofs.Text.NumeralText
import PathQuery.Proofs.Double.Rounding
import PathQuery.Proofs.Double.ReadBack
import PathQuery.Proofs.Double.StandardLayout
import PathQuery.Proofs.Json.NumberText
import PathQuery.Proofs.Json.PrettyText
import PathQuery.Proofs.Path.Nesting
import PathQuery.Proofs.Path.Splitting
import PathQuery.Proofs.Path.OperatorScan
import PathQuery.Proofs.Path.StringSpelling
import PathQuery.Proofs.Path.QuotedText
import PathQuery.Proofs.Path.Inversion
import PathQuery.Proofs.Path.QuotedNames
import PathQuery.Proofs.Path.WellFormed
import PathQuery.Proofs.Path.BareName
import PathQuery.Proofs.Path.Faithful
import PathQuery.Proofs.Path.PrintedText
import PathQuery.Proofs.Path.PrintedPieces
import PathQuery.Proofs.Path.PrintedEnds
import PathQuery.Proofs.Path.SelectorText
import PathQuery.Proofs.Path.StepText
import PathQuery.Proofs.Path.ExpressionText
import PathQuery.Proofs.Path.RoundTrip
import PathQuery.Proofs.Text.ByteSlices
import PathQuery.Proofs.Path.Slicing
import PathQuery.Proofs.Path.MarkPlaces
import PathQuery.Proofs.Path.SlicedPieces
import PathQuery.Proofs.Path.SlicedOperators
import PathQuery.Proofs.Path.Bytewise
import PathQuery.Proofs.Path.Safety
import PathQuery.Proofs.Query.MatchByMatch
import PathQuery.Proofs.Query.Locations
import PathQuery.Proofs.Query.LocationText
import PathQuery.Proofs.Agreement
import PathQuery.Proofs.Path.DepthLimit
import PathQuery.Proofs.Query.Correspondence
import PathQuery.Proofs.Query.TwoRuns
import PathQuery.Proofs.Edit.DepthLimit
import PathQuery.Proofs.Query.PlainPaths
import PathQuery.Proofs.Query.ChangedDocument
import PathQuery.Proofs.Edit.QueryAfterSet
import PathQuery.Proofs.Edit.RemoveCreated
import PathQuery.Proofs.Query.Blindness
import PathQuery.Proofs.Edit.Pruned
import PathQuery.Proofs.Edit.Idempotence
import PathQuery.Proofs.Query.SliceBounds
import PathQuery.Proofs.Query.SliceWalk
import PathQuery.Proofs.Query.BracketSpelling
import PathQuery.Proofs.Path.EscapedName
import PathQuery.Proofs.Path.Placement
import PathQuery.Proofs.Path.Relocation
import PathQuery.Proofs.Path.OperatorChain
import PathQuery.Proofs.Path.LeftOperand
import PathQuery.Proofs.Query.Traversal
import PathQuery.Proofs.Query.DeepScanSpelling
import PathQuery.Proofs.Edit.DistinctMatches
import PathQuery.Proofs.Path.WrittenText
import PathQuery.Proofs.Path.OperandRow
import PathQuery.Proofs.Path.Precedence
import PathQuery.Proofs.Query.DocumentOrder
import PathQuery.Proofs.Query.IntegerArithmetic
import PathQuery.Proofs.Path.SignedNumbers
import PathQuery.Proofs.Path.Balance
import PathQuery.Proofs.Path.Reassembly
import PathQuery.Proofs.Path.Unsourced
import PathQuery.Proofs.Query.SourceText
import PathQuery.Proofs.Edit.Interchange
import PathQuery.Proofs.CommandLine.SameAnswers
