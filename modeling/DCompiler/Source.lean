import DCompiler.Text.Bytes

/-!
# Source text and places in it

A place is a byte offset, and a stretch of text is a pair of offsets. Line and column are computed
on demand from the offsets at which lines start. Lines and columns count from 1, and columns
count bytes.
-/

namespace DCompiler

structure Span where
  start : Nat
  stop : Nat
  deriving Repr, DecidableEq, Inhabited

namespace Span

def synthetic : Span := ⟨0, 0⟩

def cover (s t : Span) : Span :=
  ⟨min s.start t.start, max s.stop t.stop⟩

def length (s : Span) : Nat := s.stop - s.start

def isEmpty (s : Span) : Bool := s.length == 0

end Span

structure Position where
  line : Nat
  column : Nat
  deriving Repr, DecidableEq, Inhabited

structure SourceText where
  name : String
  text : String
  deriving Repr, Inhabited

namespace SourceText

/-- Offsets after each newline, where the head of the bytes stands at `offset`. -/
def startsAfterNewlines : Nat → List UInt8 → List Nat
  | _, [] => []
  | offset, b :: bs =>
    if b = 10 then (offset + 1) :: startsAfterNewlines (offset + 1) bs
    else startsAfterNewlines (offset + 1) bs

def lineStarts (s : SourceText) : List Nat :=
  0 :: startsAfterNewlines 0 (Text.bytes s.text)

/-- Search for a key in the stretch from `low` to `high` of ascending numbers. Gives its index, or
else the index of the first greater number as an error. -/
def searchWithin (xs : List Nat) (key low high : Nat) : Except Nat Nat :=
  if low < high then
    let middle := (low + high) / 2
    match compare (xs.getD middle 0) key with
    | .lt => searchWithin xs key (middle + 1) high
    | .eq => .ok middle
    | .gt => searchWithin xs key low middle
  else .error low
termination_by high - low

/-- The index of the last line that starts up to an offset, if there is one. -/
def lineIndex? (starts : List Nat) (offset : Nat) : Option Nat :=
  match searchWithin starts offset 0 starts.length with
  | .ok line => some line
  | .error next => if next = 0 then none else some (next - 1)

/-- Line and column of an offset. An offset past the end belongs to the last line. -/
def position? (s : SourceText) (offset : Nat) : Option Position := do
  let line ← lineIndex? s.lineStarts offset
  let start ← s.lineStarts[line]?
  if start ≤ offset then some ⟨line + 1, offset - start + 1⟩ else none

def position (s : SourceText) (offset : Nat) : Position := (s.position? offset).getD default

def snippet (s : SourceText) (span : Span) : String :=
  Text.slice s.text span.start span.stop

end SourceText

end DCompiler
