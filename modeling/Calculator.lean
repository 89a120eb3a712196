import Calculator.Main
import Calculator.Proofs.Eval.Alias
import Calculator.Proofs.Eval.Arguments
import Calculator.Proofs.Eval.Arity
import Calculator.Proofs.Eval.Callers
import Calculator.Proofs.Eval.Depth
import Calculator.Proofs.Eval.Height
import Calculator.Proofs.Eval.Limit
import Calculator.Proofs.Eval.OpenCalls
import Calculator.Proofs.Eval.Parameters
import Calculator.Proofs.Eval.Reach
import Calculator.Proofs.Number.Extremum
import Calculator.Proofs.Number.Integral
import Calculator.Proofs.Parse.Finish
import Calculator.Proofs.Parse.Grammar
import Calculator.Proofs.Parse.Progress
import Calculator.Proofs.Parse.Writing
import Calculator.Proofs.Run.CommandLine
import Calculator.Proofs.Run.Joining
import Calculator.Proofs.Run.Message
import Calculator.Proofs.Run.Numbers
import Calculator.Proofs.Run.Operands
import Calculator.Proofs.Token.Values
