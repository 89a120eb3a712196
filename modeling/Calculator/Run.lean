import Calculator.Eval
import Calculator.Expr.Parse
import Calculator.Token.Scan

/-!
# Runs

A source text is scanned as a whole before it is parsed, and parsed as a whole before any of it is
evaluated. The answer to a run is its output, or else the message of its error.
-/

namespace Calculator

def program (source : String) : Except SyntaxError (List Expr) := scan source >>= parse

-- Runs a source text in a context, which an error in the text leaves as it was.
def Context.run (c : Context) (source : String) : Except Error String × Context :=
  match program source with
  | .error e  => (.error (.read e), c)
  | .ok statements =>
    let (result, c) := evaluate statements c
    (result.mapError .eval, c)

def run (source : String) (options : Options) (draws : Draws) : Except Error String :=
  ((Context.fresh options draws).run source).1

def answer (source : String) (options : Options) (draws : Draws) : String :=
  match run source options draws with
  | .ok output => output
  | .error e   => e.message

end Calculator
