import Calculator.CallStack

/-!
# Options

What a run can be told to do differently: how frames are scoped, whether a wrong number of arguments
is an error, whether `tan` is another name of `cos`, and how deep calls may be nested.
-/

namespace Calculator

structure Options where
  scoping      : Scoping := .shared
  strictArity  : Bool    := false
  legacyTan    : Bool    := false
  maxCallDepth : Nat     := 256
deriving DecidableEq

end Calculator
