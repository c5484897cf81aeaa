import DCompiler.Code.Builder

/-!
# Object files

What an object file knows about a name: whether it is defined here, where it is placed, and what
data it holds. A name has one symbol.

An object file has segments of bytes, references from places in segments to symbols or to other
places, and the names that it defines or needs. A reference keeps its addend in the bytes it refers
from.
-/

namespace DCompiler

inductive Segment where
  | code
  | data
  | constData
  | zeroData
  deriving Repr, DecidableEq, Inhabited

namespace Segment

def all : List Segment := [code, data, constData, zeroData]

def name : Segment → String
  | code => "Code" | data => "Data" | constData => "Cdata" | zeroData => "Udata"

end Segment

inductive SymbolClass where
  /-- Known in this file only, which has to define it. -/
  | static
  | global
  | external
  /-- Defined in several files, of which one is kept. -/
  | comdat
  deriving Repr, DecidableEq, Inhabited

structure SymbolFlags where
  bits : UInt32
  deriving Repr, DecidableEq, Inhabited

namespace SymbolFlags

def none : SymbolFlags := ⟨0⟩
/-- Would be static, but was used before its definition. -/
def wasStatic : SymbolFlags := ⟨0x1⟩
def weak : SymbolFlags := ⟨0x2⟩
def written : SymbolFlags := ⟨0x4⟩

def contains (a b : SymbolFlags) : Bool := a.bits &&& b.bits == b.bits

instance : OrOp SymbolFlags := ⟨fun a b => ⟨a.bits ||| b.bits⟩⟩

end SymbolFlags

structure ObjectSymbol where
  name : String
  cls : SymbolClass
  /-- Missing until the symbol is placed. -/
  segment : Option Segment := none
  offset : UInt64 := 0
  /-- The number among the external names, from 1; 0 for a symbol that is not external. -/
  externIndex : Nat := 0
  size : UInt64
  flags : SymbolFlags := .none
  operandClass : OperandClass
  data : Chain := none
  deriving Repr, DecidableEq, Inhabited

def ObjectSymbol.isDefined (s : ObjectSymbol) : Bool := s.segment.isSome

structure ObjectSymbolTable where
  symbols : Array ObjectSymbol
  deriving Repr, Inhabited

namespace ObjectSymbolTable

def empty : ObjectSymbolTable := ⟨#[]⟩

def size (t : ObjectSymbolTable) : Nat := t.symbols.size

def get? (t : ObjectSymbolTable) (id : ObjectSymbolId) : Option ObjectSymbol :=
  t.symbols[id.index]?

def modify (t : ObjectSymbolTable) (id : ObjectSymbolId) (f : ObjectSymbol → ObjectSymbol) :
    ObjectSymbolTable :=
  ⟨t.symbols.modify id.index f⟩

def lookup (t : ObjectSymbolTable) (name : String) : Option ObjectSymbolId :=
  (t.symbols.findIdx? (·.name == name)).map ObjectSymbolId.mk

def declare (t : ObjectSymbolTable) (name : String) (cls : SymbolClass) (size : UInt64) :
    ObjectSymbolId × ObjectSymbolTable :=
  match t.lookup name with
  | some id => (id, t)
  | none =>
    let operandClass := if cls = .external then OperandClass.external else .data
    (⟨t.symbols.size⟩,
      ⟨t.symbols.push { name := name, cls := cls, size := size, operandClass := operandClass }⟩)

def internal (t : ObjectSymbolTable) (base : String) (size : UInt64) :
    ObjectSymbolId × ObjectSymbolTable :=
  t.declare (base ++ toString t.symbols.size) .static size

end ObjectSymbolTable

inductive RelocationTarget where
  | symbol (name : String)
  | place (segment : Segment) (offset : UInt64)
  deriving Repr, DecidableEq, Inhabited

structure Relocation where
  segment : Segment
  offset : UInt64
  target : RelocationTarget
  addend : Int64
  width : Nat
  selfRelative : Bool
  deriving Repr, DecidableEq, Inhabited

structure Definition where
  name : String
  segment : Segment
  offset : UInt64
  isGlobal : Bool
  deriving Repr, DecidableEq, Inhabited

structure CommonBlock where
  name : String
  size : UInt64
  deriving Repr, DecidableEq, Inhabited

structure LineRecord where
  segment : Segment
  offset : UInt64
  place : SourcePlace
  deriving Repr, DecidableEq, Inhabited

def LineRecord.text (r : LineRecord) : String :=
  r.segment.name ++ "+" ++ toString r.offset.toNat ++ " " ++ toString r.place.line.toNat ++ ":" ++
    toString r.place.column.toNat

/-- The bytes of the segments; a segment that was never written to is missing. -/
structure Segments where
  code : Option (List UInt8) := none
  data : Option (List UInt8) := none
  constData : Option (List UInt8) := none
  zeroData : Option (List UInt8) := none
  deriving Repr, DecidableEq, Inhabited

namespace Segments

def get? (s : Segments) : Segment → Option (List UInt8)
  | .code => s.code
  | .data => s.data
  | .constData => s.constData
  | .zeroData => s.zeroData

def set (s : Segments) (segment : Segment) (bytes : List UInt8) : Segments :=
  match segment with
  | .code => { s with code := some bytes }
  | .data => { s with data := some bytes }
  | .constData => { s with constData := some bytes }
  | .zeroData => { s with zeroData := some bytes }

end Segments

structure ObjectFile where
  pointerSize : Nat
  segments : Segments := {}
  relocations : List Relocation := []
  externals : List String := []
  weakExternals : List String := []
  defined : List Definition := []
  commons : List CommonBlock := []
  lines : List LineRecord := []
  deriving Repr, DecidableEq, Inhabited

def writeAt (offset : Nat) (bytes data : List UInt8) : List UInt8 :=
  data.take offset ++ List.replicate (offset - data.length) 0 ++ bytes ++
    data.drop (offset + bytes.length)

/-- The bytes of a field that refers. On a target with 64-bit pointers it has four, unless all are
asked for. -/
def relocationWidth (pointerSize : Nat) (flags : CodeFlags) : Nat :=
  if pointerSize = 8 && !flags.contains .wideOffset then 4 else pointerSize

namespace ObjectFile

def empty (pointerSize : Nat) : ObjectFile := { pointerSize := pointerSize }

def segment (f : ObjectFile) (s : Segment) : List UInt8 := (f.segments.get? s).getD []

def segmentSize (f : ObjectFile) (s : Segment) : UInt64 := (f.segment s).length.toUInt64

def write (f : ObjectFile) (s : Segment) (offset : UInt64) (bytes : List UInt8) : ObjectFile :=
  { f with segments := f.segments.set s (writeAt offset.toNat bytes (f.segment s)) }

def read (f : ObjectFile) (s : Segment) (offset : UInt64) (width : Nat) : Except Fault Int64 :=
  let data := f.segment s
  let stop := offset.toNat + width
  if 8 < width then .error (.fieldOutOfRange width 8)
  else if data.length < stop then .error (.fieldOutOfRange stop data.length)
  else
    let raw := Text.ofLittleEndian ((data.drop offset.toNat).take width)
    .ok (match width with
      | 1 => raw.toUInt8.toInt8.toInt64
      | 2 => raw.toUInt16.toInt16.toInt64
      | 4 => raw.toUInt32.toInt32.toInt64
      | _ => raw.toUInt64.toInt64)

def relocationsAt (f : ObjectFile) (s : Segment) (offset : UInt64) : List Relocation :=
  f.relocations.filter fun r => r.segment = s && r.offset = offset

def fieldWidth (f : ObjectFile) (flags : CodeFlags) : Nat := relocationWidth f.pointerSize flags

def referToSymbol (f : ObjectFile) (s : Segment) (offset : UInt64) (name : String) (addend : Int64)
    (flags : CodeFlags) : ObjectFile :=
  let width := f.fieldWidth flags
  let written := f.write s offset (Text.littleEndian width addend.toUInt64)
  { written with relocations := f.relocations ++
      [⟨s, offset, .symbol name, addend, width, flags.contains .selfRelative⟩] }

def referToPlace (f : ObjectFile) (s : Segment) (offset : UInt64) (target : Segment)
    (targetOffset : UInt64) (flags : CodeFlags) : ObjectFile :=
  let width := f.fieldWidth flags
  let written := f.write s offset (Text.littleEndian width targetOffset)
  { written with relocations := f.relocations ++
      [⟨s, offset, .place target targetOffset, targetOffset.toInt64, width, false⟩] }

def external (f : ObjectFile) (name : String) : Nat × ObjectFile :=
  match f.externals.idxOf? name with
  | some i => (i + 1, f)
  | none => (f.externals.length + 1, { f with externals := f.externals ++ [name] })

def weakExternal (f : ObjectFile) (name : String) : ObjectFile :=
  if f.weakExternals.contains name then f
  else { f with weakExternals := f.weakExternals ++ [name] }

def define (f : ObjectFile) (s : ObjectSymbol) : ObjectFile :=
  match s.segment with
  | none => f
  | some segment =>
    { f with defined := f.defined ++ [⟨s.name, segment, s.offset, s.cls != .static⟩] }

def addCommon (f : ObjectFile) (name : String) (size : UInt64) : ObjectFile :=
  { f with commons := f.commons ++ [⟨name, size⟩] }

def addLine (f : ObjectFile) (s : Segment) (offset : UInt64) (place : SourcePlace) : ObjectFile :=
  { f with lines := f.lines ++ [⟨s, offset, place⟩] }

/-! ## The dump -/

def piecesWithin (length : Nat) : Nat → List UInt8 → List (List UInt8)
  | 0, _ | _, [] => []
  | steps + 1, bytes => bytes.take length :: piecesWithin length steps (bytes.drop length)

def byteLines (bytes : List UInt8) : List String :=
  (piecesWithin 16 bytes.length bytes).zipIdx.map fun (piece, i) =>
    "  " ++ Text.padLeft 6 '0' (Text.hex (i * 16)) ++ ": " ++
      String.intercalate " " (piece.map Text.hexByte)

def placeText (s : Segment) (offset : UInt64) : String :=
  s.name ++ "+" ++ Fault.hexText offset.toNat

def signedText (n : Int64) : String :=
  if n.toInt < 0 then toString n.toInt else "+" ++ toString n.toInt

def relocationLine (r : Relocation) : String :=
  let target :=
    match r.target with
    | .symbol name => name
    | .place s offset => placeText s offset
  "reloc " ++ placeText r.segment r.offset ++ " " ++ (if r.selfRelative then "rel" else "abs") ++
    toString (r.width * 8) ++ " -> " ++ target ++ " " ++ signedText r.addend

def definitionLine (d : Definition) : String :=
  "define " ++ d.name ++ (if d.isGlobal then " global " else " local ") ++
    placeText d.segment d.offset

def segmentLines (f : ObjectFile) (s : Segment) : List String :=
  match f.segments.get? s with
  | none => []
  | some bytes =>
    ("segment " ++ s.name ++ " (" ++ toString bytes.length ++ " bytes)") :: byteLines bytes

def dump (f : ObjectFile) : List String :=
  Segment.all.flatMap f.segmentLines ++ f.defined.map definitionLine ++
    f.commons.map (fun c => "common " ++ c.name ++ " " ++ toString c.size.toNat) ++
    f.externals.map ("extern " ++ ·) ++ f.weakExternals.map ("weak " ++ ·) ++
    f.relocations.map relocationLine

end ObjectFile

/-! ## Open references

A reference to a symbol that is not placed yet is kept until it is. Its field holds zeros for the
time being. When the symbol is placed, a reference within its segment becomes a distance, and any
other becomes a relocation. -/

structure Fixup where
  segment : Segment
  flags : CodeFlags
  offset : UInt64
  addend : Int64
  width : Nat
  deriving Repr, DecidableEq, Inhabited

structure FixupQueue where
  symbol : ObjectSymbolId
  fixups : List Fixup
  deriving Repr, DecidableEq, Inhabited

/-- The fields that wait, by symbol. -/
structure FixupTable where
  queues : List FixupQueue
  /-- The symbols with queues, in the order in which they were first referred to. -/
  order : List ObjectSymbolId
  /-- All references are being closed, and no queue is taken away until that is done. -/
  flushing : Bool := false
  deriving Repr, DecidableEq, Inhabited

namespace Fixup

def isLocal (f : Fixup) (target : ObjectSymbol) : Bool :=
  target.segment = some f.segment && (target.cls = .static || target.cls = .global) &&
    target.externIndex = 0 && f.flags.contains .selfRelative

/-- The distance from behind the field to the symbol, and the addend. -/
def distance (f : Fixup) (target : ObjectSymbol) : Except Fault Int64 := do
  let behind ← Fault.wordOr .sumOverflow (f.offset.toNat + f.width)
  let distance ← Fault.signedWordOr .differenceOverflow
    (target.offset.toInt64.toInt - behind.toInt64.toInt)
  Fault.signedWordOr .sumOverflow (distance.toInt + f.addend.toInt)

def apply (target : ObjectSymbol) (file : ObjectFile) (f : Fixup) : Except Fault ObjectFile := do
  if f.isLocal target then
    let distance ← f.distance target
    return file.write f.segment f.offset (Text.littleEndian f.width distance.toUInt64)
  else return file.referToSymbol f.segment f.offset target.name f.addend f.flags

end Fixup

namespace FixupTable

def empty : FixupTable := { queues := [], order := [] }

def waiting (t : FixupTable) (s : ObjectSymbolId) : List Fixup :=
  ((t.queues.find? (·.symbol = s)).map (·.fixups)).getD []

def isEmpty (t : FixupTable) : Bool := t.queues.all (·.fixups.isEmpty)

def addTo (s : ObjectSymbolId) (f : Fixup) : List FixupQueue → List FixupQueue
  | [] => [⟨s, [f]⟩]
  | q :: qs => if q.symbol = s then ⟨s, q.fixups ++ [f]⟩ :: qs else q :: addTo s f qs

def add (t : FixupTable) (s : ObjectSymbolId) (f : Fixup) : FixupTable :=
  { t with
    queues := addTo s f t.queues
    order := if t.queues.any (·.symbol = s) then t.order else t.order ++ [s] }

def erase (t : FixupTable) (s : ObjectSymbolId) : FixupTable :=
  if t.flushing then
    { t with queues := t.queues.map fun q => if q.symbol = s then ⟨s, []⟩ else q }
  else { t with queues := t.queues.filter (·.symbol ≠ s), order := t.order.filter (· ≠ s) }

def fill (t : FixupTable) (s : ObjectSymbolId) (target : ObjectSymbol) (file : ObjectFile) :
    Except Fault ObjectFile :=
  (t.waiting s).reverse.foldlM (Fixup.apply target) file

end FixupTable

end DCompiler
