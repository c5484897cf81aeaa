import DCompiler.Analysis.Analyser
import DCompiler.Emission

/-!
# Sessions

A session keeps the tables of the program and the object file in the making while source texts are
analysed and emitted one after the other. It shows of an analysed module its declarations with their
types, and the array operations with the functions that their calls go to.
-/

namespace DCompiler

/-- The name of a module that names none: that of its file without the last extension. -/
def moduleName (path : String) : String :=
  let parts := (path.splitOn "/").filter fun part => part != "" && part != "."
  match parts.getLast? with
  | none | some ".." => "main"
  | some file =>
    match (file.splitOn ".").dropLast with
    | [] | [""] => file
    | stem => String.intercalate "." stem

namespace Program

def belongsWithin (p : Program) (ancestor : SymbolId) : Nat → Option SymbolId → Bool
  | 0, _ | _, none => false
  | steps + 1, some s =>
    s = ancestor || p.belongsWithin ancestor steps (p.symbols.symbol s).parent

def belongsTo (p : Program) (s ancestor : SymbolId) : Bool :=
  p.belongsWithin ancestor (p.symbols.size + 1) (p.symbols.symbol s).parent

def summaryLine? (p : Program) (s : SymbolId) : Option String :=
  let name := p.symbols.qualifiedName s
  match p.symbols.kind s with
  | .func f =>
    if f.isArrayOp then none else some ("function " ++ name ++ ": " ++ p.types.text f.type)
  | .var v => if v.isGlobal then some ("variable " ++ name ++ ": " ++ p.types.text v.type) else none
  | .aggregate _ => some ((p.symbols.symbol s).kindName ++ " " ++ name)
  | .enumeration _ => some ("enum " ++ name)
  | _ => none

def summary (p : Program) (module : SymbolId) : String :=
  let members := p.symbols.ids.filter (p.belongsTo · module)
  Text.ofLines (["module " ++ p.symbols.name module] ++ members.filterMap p.summaryLine? ++
    ["array operations: " ++ toString p.arrayOps.size])

def arrayOpReport (p : Program) : String :=
  Text.ofLines (p.arrayOps.entries.map fun (name, entry) =>
    let binding :=
      match entry.interpretable, entry.runtime with
      | none, _ => "unsupported"
      | some _, some _ => "runtime"
      | some _, none => "synthesised"
    name ++ " " ++ binding)

end Program

inductive CompileError where
  | unreadable (error : ReadError)
  | faulty (count : Nat)
  | undefinedStatic (name : String)
  | endless
  | fault (cause : Fault)
  deriving Repr, DecidableEq, Inhabited

def CompileError.message : CompileError → String
  | unreadable error => error.message
  | faulty count => "compilation failed with " ++ toString count ++ " error(s)"
  | undefinedStatic name => "no definition for static " ++ name
  | endless => "the analysis has no end"
  | fault cause => cause.message

structure Session where
  program : Program
  assembly : Assembly
  source : SourceText
  deriving Inhabited

namespace Session

def new (options : Options) : Session :=
  ⟨.empty options, .empty options.target.pointerSize, ⟨"", ""⟩⟩

/-- Read and analyse a source text. The module that names none is named after the file. -/
def analyse (s : Session) (file text : String) : Except CompileError SymbolId × Session :=
  let s := { s with source := ⟨file, text⟩ }
  match s.program.read (·.readModule text (moduleName file)) with
  | .error e => (.error (.unreadable e), s)
  | .ok (m, p) =>
    match p.analyseModule m with
    | none => (.error .endless, s)
    | some (module, p) => (.ok module, { s with program := p })

def diagnostics (s : Session) : List String :=
  s.program.log.reported.toList.map (·.render s.source)

def check (s : Session) : Except CompileError Unit :=
  if s.program.log.errors = 0 then .ok () else .error (.faulty s.program.log.errors)

def emit (s : Session) : Except CompileError Emission × Session :=
  let (result, assembly) := (Emission.emit s.program s.source).run s.assembly
  let result :=
    match result with
    | .error cause => .error (.fault cause)
    | .ok (.error name) => .error (.undefinedStatic name)
    | .ok (.ok emission) => .ok emission
  (result, { s with assembly := assembly })

end Session

end DCompiler
