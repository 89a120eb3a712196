import Calculator.CommandLine

/-!
# The program

Carries out its command line on the files of the system, with random numbers from a fresh seed.
-/

namespace Calculator.CommandLine

def contents? (file : String) : IO (Option ByteArray) := do
  try
    return some (← IO.FS.readBinFile file)
  catch _ =>
    return none

end Calculator.CommandLine

open Calculator in
def main (args : List String) : IO UInt32 := do
  let bytes ← IO.getRandomBytes 8
  let seed : UInt64 := bytes.foldl (fun seed byte => seed * 256 + byte.toUInt64) 0
  let outcome ← CommandLine.respond CommandLine.contents? (.ofSeed seed) args
  IO.print outcome.stdout
  IO.eprint outcome.stderr
  return outcome.status
