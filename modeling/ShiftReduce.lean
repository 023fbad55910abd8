import ShiftReduce.Text.Blank
import ShiftReduce.Text.Digit
import ShiftReduce.Text.Display
import ShiftReduce.Text.Utf8
import ShiftReduce.Number.Integer
import ShiftReduce.Number.Decimal
import ShiftReduce.Number.Shortest
import ShiftReduce.Lex.Span
import ShiftReduce.Lex.Cursor
import ShiftReduce.Wire.Reader
import ShiftReduce.Value
import ShiftReduce.Table.Reader
import ShiftReduce.File
import ShiftReduce.Rules
import ShiftReduce.Source.Input
import ShiftReduce.Machine
import ShiftReduce.Grammar.Bundled
import ShiftReduce.Main
import ShiftReduce.Proofs.Delivery
import ShiftReduce.Proofs.Runs
import ShiftReduce.Proofs.ParseTrees
import ShiftReduce.Proofs.Paths
import ShiftReduce.Proofs.SettingsLanguage
import ShiftReduce.Proofs.Utf8
import ShiftReduce.Proofs.WireLine
import ShiftReduce.Proofs.PhysicalLines
import ShiftReduce.Proofs.WireStream
import ShiftReduce.Proofs.NestingLanguage
import ShiftReduce.Proofs.StreamRefinement
import ShiftReduce.Proofs.MaximalMunch
import ShiftReduce.Proofs.Agreement
import ShiftReduce.Proofs.TextEvents
import ShiftReduce.Proofs.WireParsing
import ShiftReduce.Proofs.ContextFree
import ShiftReduce.Proofs.Descent
import ShiftReduce.Proofs.Safety
import ShiftReduce.Proofs.BundledSafety
import ShiftReduce.Proofs.ViablePrefixes
import ShiftReduce.Proofs.FirstFault
import ShiftReduce.Proofs.Evaluation
import ShiftReduce.Proofs.PassedOver
import ShiftReduce.Proofs.FailedSteps
import ShiftReduce.Proofs.Lookahead
import ShiftReduce.Proofs.OpenInputs
import ShiftReduce.Proofs.Tracing
import ShiftReduce.Proofs.TextCommand
import ShiftReduce.Proofs.LineNumbers
import ShiftReduce.Proofs.Respelling
import ShiftReduce.Proofs.SettingsMeaning
import ShiftReduce.Proofs.SettingsReadBack
import ShiftReduce.Proofs.Numerals
import ShiftReduce.Proofs.LiteralValues
import ShiftReduce.Proofs.CanonicalLiterals
import ShiftReduce.Proofs.TableLines
import ShiftReduce.Proofs.TableText
import ShiftReduce.Proofs.LogicalLines
import ShiftReduce.Proofs.DumpedStreams
import ShiftReduce.Proofs.LinesApart
import ShiftReduce.Proofs.SharedCursor
