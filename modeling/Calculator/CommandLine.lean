import Calculator.Run

/-!
# The command line

The program takes one argument: a source text, or the name of a file that holds one. Options may
stand before and after it, up to a `--`. An option is given at most once. The first argument that is
wrong ends the reading of the command line, and so does a request for the version or for help. What is
printed about the usage, on such a request or on a wrong argument, is left out here.
-/

namespace Calculator.CommandLine

inductive Flag
  | file
  | nestedFrames
  | strictArity
  | legacyTan
deriving DecidableEq

def Flag.name : Flag → String
  | file         => "file"
  | nestedFrames => "nested-frames"
  | strictArity  => "strict-arity"
  | legacyTan    => "legacy-tan"

def Flag.ofName? (name : String) : Option Flag :=
  [file, nestedFrames, strictArity, legacyTan].find? (·.name = name)

inductive UsageError
  | unknown
  | repeated
  | missingValue
  | unexpectedValue
  | badDepth
  | extra
  | missingContents
deriving DecidableEq

inductive Request
  | evaluate (contents : String) (fromFile : Bool) (options : Options)
  | version
  | help
deriving DecidableEq

-- The arguments read so far.
structure Arguments where
  flags        : List Flag     := []
  maxCallDepth : Option Nat    := none
  contents     : Option String := none

-- A 64-bit whole number in decimal, with or without a plus sign.
def depth? : List Char → Option Nat
  | '+' :: digits => value? digits
  | digits        => value? digits
where
  value? (digits : List Char) : Option Nat :=
    let value := Number.ofDigits digits
    if digits ≠ [] ∧ digits.all Char.isDigit ∧ value < 1 <<< 64 then some value else none

namespace Arguments

variable (a : Arguments)

def addFlag (f : Flag) : Except UsageError Arguments :=
  if f ∈ a.flags then .error .repeated else .ok { a with flags := f :: a.flags }

def setDepth (value : List Char) : Except UsageError Arguments :=
  match depth? value, a.maxCallDepth with
  | none,       _      => .error .badDepth
  | some _,     some _ => .error .repeated
  | some depth, none   => .ok { a with maxCallDepth := some depth }

def addContents (contents : String) : Except UsageError Arguments :=
  if a.contents.isSome then .error .extra else .ok { a with contents := some contents }

def options : Options where
  scoping      := if .nestedFrames ∈ a.flags then .nested else .shared
  strictArity  := .strictArity ∈ a.flags
  legacyTan    := .legacyTan ∈ a.flags
  maxCallDepth := a.maxCallDepth.getD 256

def request : Except UsageError Request :=
  match a.contents with
  | some contents => .ok (.evaluate contents (.file ∈ a.flags) a.options)
  | none          => .error .missingContents

-- Reads the letters of an argument such as `-f`.
def addLetters (a : Arguments) : List Char → Except UsageError (Request ⊕ Arguments)
  | []      => .ok (.inr a)
  | 'f' :: cs => do (← a.addFlag .file).addLetters cs
  | 'V' :: _  => .ok (.inl .version)
  | 'h' :: _  => .ok (.inl .help)
  | _ :: _    => .error .unknown

-- Reads an argument such as `--file`, whose name may be followed by an equals sign and a value.
def addOption (a : Arguments) (name : String) (value : Option (List Char)) :
    Except UsageError (Request ⊕ Arguments) :=
  match name, Flag.ofName? name, value with
  | "version", _,      none   => .ok (.inl .version)
  | "help",    _,      none   => .ok (.inl .help)
  | "version", _,      some _ => .error .unexpectedValue
  | "help",    _,      some _ => .error .unexpectedValue
  | _,         some f, none   => .inr <$> a.addFlag f
  | _,         some _, some _ => .error .unexpectedValue
  | _,         none,   _      => .error .unknown

end Arguments

-- An option where a value is expected is not taken for one. A single dash is no option.
def isOption : List Char → Bool
  | '-' :: _ :: _ => true
  | _             => false

def readFrom (a : Arguments) : List String → Except UsageError Request
  | [] => a.request
  | arg :: rest =>
    match arg.toList with
    | ['-', '-'] => do (← rest.foldlM Arguments.addContents a).request
    | '-' :: '-' :: option =>
      let name := String.ofList (option.takeWhile (· ≠ '='))
      let value := (option.dropWhile (· ≠ '=')).tail?
      if name = "max-call-depth" then
        match value, rest with
        | some value, rest      => do readFrom (← a.setDepth value) rest
        | none,       []        => .error .missingValue
        | none,       v :: rest =>
          if isOption v.toList then .error .missingValue
          else do readFrom (← a.setDepth v.toList) rest
      else do
        match ← a.addOption name value with
        | .inl request => return request
        | .inr a       => readFrom a rest
    | '-' :: c :: cs => do
      match ← a.addLetters (c :: cs) with
      | .inl request => return request
      | .inr a       => readFrom a rest
    | _ => do readFrom (← a.addContents arg) rest

def read (args : List String) : Except UsageError Request := readFrom {} args

def version : String := "tdcalc 0.1.0\n"

-- What a run of the program leaves behind.
structure Outcome where
  status : UInt32
  stdout : String
  stderr : String
deriving DecidableEq

def Outcome.printing (text : String) : Outcome := ⟨0, text, ""⟩

-- Carries out a command line, where `contents?` gives the bytes of a file that can be read.
def respond {m : Type → Type} [Monad m] (contents? : String → m (Option ByteArray)) (draws : Draws)
    (args : List String) : m Outcome :=
  match read args with
  | .error _     => return ⟨2, "", ""⟩
  | .ok .version => return .printing version
  | .ok .help    => return .printing ""
  | .ok (.evaluate source false options) => return .printing (answer source options draws ++ "\n")
  | .ok (.evaluate file true options) => do
    match (← contents? file).bind String.fromUTF8? with
    | some source => return .printing (answer source options draws ++ "\n")
    | none =>
      return ⟨1, "", "Failed to read the input file '" ++ file ++
        "'. Perhaps this file does not exist?\n"⟩

end Calculator.CommandLine
