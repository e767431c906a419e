import FormulaPlot.Text.Blank
import FormulaPlot.Text.Offset
import FormulaPlot.Text.Line
import FormulaPlot.Plot.Block
import FormulaPlot.Number.Shortest
import FormulaPlot.Number.Remainder
import FormulaPlot.Builtin
import FormulaPlot.Operator
import FormulaPlot.Expr.Display
import FormulaPlot.Expr.Eval
import FormulaPlot.Formula.Parse
import FormulaPlot.Session
import FormulaPlot.Proofs.Formula.Grammar
import FormulaPlot.Proofs.Formula.Reading
import FormulaPlot.Proofs.Formula.Soundness
import FormulaPlot.Proofs.Formula.Acceptance
import FormulaPlot.Proofs.Number.Bits
import FormulaPlot.Proofs.Number.Nearest
import FormulaPlot.Proofs.Number.RoundTrip
import FormulaPlot.Proofs.Formula.Keywords
import FormulaPlot.Proofs.Formula.RoundTrip
import FormulaPlot.Proofs.Engine.Recency
import FormulaPlot.Proofs.Formula.Depth
import FormulaPlot.Proofs.Formula.Calls
import FormulaPlot.Proofs.Engine.Values
import FormulaPlot.Proofs.Formula.Composition
import FormulaPlot.Proofs.Plot.Directives
import FormulaPlot.Proofs.Plot.BlankValues
import FormulaPlot.Proofs.Plot.Samples
import FormulaPlot.Proofs.Number.NotANumber
import FormulaPlot.Proofs.Formula.WellFormed
import FormulaPlot.Proofs.Engine.Undefined
import FormulaPlot.Proofs.Number.Order
import FormulaPlot.Proofs.Formula.Faults
import FormulaPlot.Proofs.Engine.Case
import FormulaPlot.Proofs.Plot.Fallbacks
import FormulaPlot.Proofs.Formula.Prepared
import FormulaPlot.Proofs.Formula.Precedence
import FormulaPlot.Proofs.Formula.Numerals
import FormulaPlot.Proofs.Number.Numerals
import FormulaPlot.Proofs.Number.Operations
import FormulaPlot.Proofs.Plot.Points
import FormulaPlot.Proofs.Plot.Places
import FormulaPlot.Proofs.Number.LongestNumeral
import FormulaPlot.Proofs.Formula.Positions
import FormulaPlot.Proofs.Formula.Registers
