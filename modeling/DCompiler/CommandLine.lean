import DCompiler.Session

/-!
# The command line

What the arguments ask for, and what a run shows for it. A run reads one source text, analyses it
and shows one of several results; diagnostics go to the error output.
-/

namespace DCompiler

inductive Shown where
  | summary
  | arrayOps
  | object
  | diagnostics
  deriving Repr, DecidableEq, Inhabited

structure CommandLine where
  input : Option String := none
  output : Option String := none
  shown : Shown := .summary
  options : Options := {}
  deriving Repr, DecidableEq, Inhabited

structure Outcome where
  exit : Nat
  output : String
  errors : String
  deriving Repr, DecidableEq, Inhabited

namespace CommandLine

/-! ## Arguments -/

def number? (text : String) : Option Nat :=
  let digits :=
    match text.toList with
    | '+' :: rest => rest
    | all => all
  if digits.isEmpty || digits.any (!·.isDigit) then none
  else
    let n := digits.foldl (fun n c => n * 10 + (c.toNat - '0'.toNat)) 0
    if n < 2 ^ 32 then some n else none

def setOption (c : CommandLine) (name value : String) : Except String CommandLine :=
  let invalid := "invalid value '" ++ value ++ "' for '" ++ name ++ "'"
  match name with
  | "--input" | "-i" => .ok { c with input := some value }
  | "--output" | "-o" => .ok { c with output := some value }
  | "--emit" =>
    match value with
    | "summary" => .ok { c with shown := .summary }
    | "arrayops" => .ok { c with shown := .arrayOps }
    | "object" => .ok { c with shown := .object }
    | "diagnostics" => .ok { c with shown := .diagnostics }
    | _ => .error invalid
  | "--target" =>
    match value with
    | "x86" => .ok { c with options := { c.options with target := .x86 } }
    | "x86_64" => .ok { c with options := { c.options with target := .x86With64Bits } }
    | _ => .error invalid
  | "--max-call-depth" =>
    match number? value with
    | some n => .ok { c with options := { c.options with maxCallDepth := n } }
    | none => .error invalid
  | _ => .error ("unexpected argument '" ++ name ++ "' found")

def isVerbose (arg : String) : Bool :=
  arg == "--verbose" ||
    match arg.toList with
    | '-' :: 'v' :: rest => rest.all (· == 'v')
    | _ => false

/-- Read arguments. A value stands behind its option, or after a `=` in the same argument. -/
def parse (c : CommandLine) : List String → Except String CommandLine
  | [] => .ok c
  | "--no-line-numbers" :: rest =>
    parse { c with options := { c.options with lineNumbers := false } } rest
  | arg :: rest =>
    if isVerbose arg then parse c rest
    else
      match arg.splitOn "=", rest with
      | name :: first :: more, rest =>
        match c.setOption name (String.intercalate "=" (first :: more)) with
        | .ok c => parse c rest
        | .error e => .error e
      | _, value :: rest =>
        match c.setOption arg value with
        | .ok c => parse c rest
        | .error e => .error e
      | _, [] => .error ("unexpected argument '" ++ arg ++ "' found")

/-! ## Runs -/

/-- The end of a run that failed. A cause stands indented behind the message. -/
def failure (output errors message : String) (cause : Option String) : Outcome :=
  let caused :=
    match cause with
    | none => ""
    | some cause =>
      "\n\nCaused by:\n    " ++ String.intercalate "\n    " (cause.splitOn "\n")
  ⟨1, output, errors ++ "Error: " ++ message ++ caused ++ "\n"⟩

def unreadable (path reason : String) : Outcome :=
  failure "" "" ("failed to read input file " ++ path) (some reason)

def result (c : CommandLine) (s : Session) (module : SymbolId) : Except String String :=
  match c.shown with
  | .diagnostics => .ok (Text.ofLines s.diagnostics)
  | .summary => .ok (s.program.summary module)
  | .arrayOps => .ok s.program.arrayOpReport
  | .object =>
    match s.check with
    | .error e => .error e.message
    | .ok _ =>
      match s.emit.1 with
      | .error e => .error e.message
      | .ok emission => .ok (Text.ofLines emission.file.dump)

def execute (c : CommandLine) (name text : String) : Outcome :=
  match (Session.new c.options).analyse name text with
  | (.error e, _) => failure "" "" ("failed to parse " ++ name) (some e.message)
  | (.ok module, s) =>
    let errors := if c.shown = .diagnostics then "" else Text.ofLines s.diagnostics
    match c.result s module with
    | .error message => failure "" errors message none
    | .ok output =>
      match s.check with
      | .error e => failure output errors e.message none
      | .ok _ => ⟨0, output, errors⟩

def standardInputName : String := "stdin.d"

def run (c : CommandLine) (standardInput : String) (readFile : String → Except String String) :
    Outcome :=
  match c.input with
  | none => c.execute standardInputName standardInput
  | some path =>
    match readFile path with
    | .ok text => c.execute path text
    | .error reason => unreadable path reason

end CommandLine

end DCompiler
