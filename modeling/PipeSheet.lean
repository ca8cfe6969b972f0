import PipeSheet.Descent
import PipeSheet.Evaluation.Session
import PipeSheet.Files.Directory
import PipeSheet.Main
import PipeSheet.Grid
import PipeSheet.Formula.Tree
import PipeSheet.Proofs.Sheet.Solvable
import PipeSheet.Proofs.Sheet.Witness
import PipeSheet.Proofs.Evaluation.Call
import PipeSheet.Proofs.Formula.Sum
import PipeSheet.Proofs.Table.Reading
import PipeSheet.Proofs.Table.Weight
import PipeSheet.Proofs.Table.Shape
import PipeSheet.Proofs.Evaluation.Meaning
import PipeSheet.Proofs.Evaluation.Naive
import PipeSheet.Proofs.Evaluation.History
import PipeSheet.Proofs.Formula.Records
import PipeSheet.Proofs.Formula.Language
import PipeSheet.Proofs.Evaluation.FixedPoint
import PipeSheet.Proofs.Evaluation.Bookkeeping
import PipeSheet.Proofs.Evaluation.Machine
import PipeSheet.Proofs.Evaluation.Failure
import PipeSheet.Proofs.Evaluation.Accounting
import PipeSheet.Proofs.Evaluation.Noninterference
import PipeSheet.Proofs.Evaluation.Frame
import PipeSheet.Proofs.Evaluation.Retry
import PipeSheet.Proofs.Formula.Lexer
import PipeSheet.Proofs.Table.Block
import PipeSheet.Proofs.Formula.Extract
import PipeSheet.Proofs.Safety.Stores
import PipeSheet.Proofs.Command.Dump
import PipeSheet.Proofs.Formula.Allocation
import PipeSheet.Proofs.Formula.Copy
import PipeSheet.Proofs.Evaluation.Appending
import PipeSheet.Proofs.Evaluation.Moved
import PipeSheet.Proofs.Table.Formulas
import PipeSheet.Proofs.Table.ErrorSpans
import PipeSheet.Proofs.Formula.Defects
import PipeSheet.Proofs.Command.Outcome
import PipeSheet.Proofs.Safety.Command
import PipeSheet.Proofs.Safety.Padding
import PipeSheet.Proofs.Safety.Display
import PipeSheet.Proofs.Command.Options
import PipeSheet.Proofs.Formula.CellName
import PipeSheet.Proofs.Command.FileText
import PipeSheet.Proofs.Command.Parse
import PipeSheet.Proofs.Command.BrokenText
