import DCompiler.Source

/-!
# Diagnostics

Messages about a source text, and the log that collects them. While the log is gagged, errors are
counted and dropped: this is how an attempt that may fail is made. Gags nest.
-/

namespace DCompiler

inductive Severity where
  | error | warning | deprecation
  deriving Repr, DecidableEq, Inhabited

def Severity.text : Severity → String
  | error => "Error" | warning => "Warning" | deprecation => "Deprecation"

structure Diagnostic where
  severity : Severity
  message : String
  span : Span
  code : Option String := none
  notes : List String := []
  deriving Repr, DecidableEq, Inhabited

namespace Diagnostic

def isError (d : Diagnostic) : Bool := d.severity == .error

/-- The lines shown for a diagnostic: place, severity, code and message, then the notes. -/
def render (d : Diagnostic) (source : SourceText) : String :=
  let place := source.position d.span.start
  let code := match d.code with
    | some code => "[" ++ code ++ "] "
    | none => ""
  source.name ++ "(" ++ toString place.line ++ "," ++ toString place.column ++ "): " ++
    d.severity.text ++ ": " ++ code ++ d.message ++
    String.join (d.notes.map fun note => "\n       " ++ note)

end Diagnostic

structure DiagnosticLog where
  reported : Array Diagnostic
  errors : Nat
  gagged : Nat
  gagDepth : Nat
  deriving Repr, Inhabited

namespace DiagnosticLog

def empty : DiagnosticLog := ⟨#[], 0, 0, 0⟩

def isGagged (l : DiagnosticLog) : Bool := 0 < l.gagDepth

/-- Report a diagnostic, or drop it under a gag. Only errors are counted. -/
def report (l : DiagnosticLog) (d : Diagnostic) : DiagnosticLog :=
  let count := if d.isError then 1 else 0
  if l.isGagged then { l with gagged := l.gagged + count }
  else { l with errors := l.errors + count, reported := l.reported.push d }

def gag (l : DiagnosticLog) : DiagnosticLog := { l with gagDepth := l.gagDepth + 1 }

def ungag (l : DiagnosticLog) : DiagnosticLog := { l with gagDepth := l.gagDepth - 1 }

def firedSince (l before : DiagnosticLog) : Bool := before.gagged < l.gagged

def take (l : DiagnosticLog) : List Diagnostic × DiagnosticLog :=
  (l.reported.toList, { l with reported := #[] })

end DiagnosticLog

end DCompiler
