import DCompiler.CommandLine

/-!
# The program

Reads the arguments and the source text, runs, and writes what the run gives.
-/

namespace DCompiler

partial def readAll (stream : IO.FS.Stream) (read : ByteArray) : IO ByteArray := do
  let more ← stream.read 65536
  if more.isEmpty then return read else readAll stream (read ++ more)

def textOf (bytes : ByteArray) : Except String String :=
  match String.fromUTF8? bytes with
  | some text => .ok text
  | none => .error "stream did not contain valid UTF-8"

def readFailure : IO.Error → String
  | .noFileOrDirectory _ code _ =>
    "No such file or directory (os error " ++ toString code.toNat ++ ")"
  | .permissionDenied _ code _ => "Permission denied (os error " ++ toString code.toNat ++ ")"
  | e => toString e

def readSourceFile (path : String) : IO (Except String String) := do
  try
    return textOf (← IO.FS.readBinFile path)
  catch e => return .error (readFailure e)

def runOn (c : CommandLine) : IO Outcome := do
  match c.input with
  | none =>
    match textOf (← readAll (← IO.getStdin) .empty) with
    | .ok text => return c.run text fun _ => .error ""
    | .error reason => return CommandLine.failure "" "" reason none
  | some path =>
    let text ← readSourceFile path
    return c.run "" fun _ => text

def writeResult (c : CommandLine) (text : String) : IO Unit := do
  match c.output with
  | none => IO.print text
  | some path => IO.FS.writeFile path text

end DCompiler

open DCompiler

def main (args : List String) : IO UInt32 := do
  match ({} : CommandLine).parse args with
  | .error message =>
    IO.eprintln ("error: " ++ message)
    return 2
  | .ok c =>
    let outcome ← runOn c
    writeResult c outcome.output
    IO.eprint outcome.errors
    return outcome.exit.toUInt32
