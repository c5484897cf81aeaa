import DCompiler.Scope
import DCompiler.Pool

/-!
# Making descriptions of data

A `DataBuilder` appends records to a chain. Zeros behind zeros lengthen the last record, and
repeated data takes the shortest of three forms: a longer run of zeros, bytes in one record, or, if
there are pointers, a copy of each record.
-/

namespace DCompiler

inductive DataRecord where
  | zeros (size : UInt64)
  | inline (bytes : List UInt8)
  | bytes (bytes : List UInt8)
  /-- A pointer to a copy of bytes that are only read. -/
  | constant (width : Nat) (offset : UInt64) (bytes : List UInt8)
  | address (width : Nat) (symbol : ObjectSymbolId) (offset : UInt64)
  | codeAddress (width : Nat) (offset : UInt64)
  /-- A block that is shared between object files. -/
  | common (size : UInt64)
  deriving Repr, DecidableEq

namespace DataRecord

instance : Inhabited DataRecord := ⟨zeros 0⟩

def inlineLimit : Nat := 24

def ofBytes (bs : List UInt8) : DataRecord :=
  if bs.length < inlineLimit then inline bs else bytes bs

def size : DataRecord → UInt64
  | zeros size => size
  | inline bs | bytes bs => bs.length.toUInt64
  | constant width _ _ | address width _ _ | codeAddress width _ => width.toUInt64
  | common _ => 0

def isZeros : DataRecord → Bool
  | zeros _ => true
  | _ => false

def isPointer : DataRecord → Bool
  | constant _ _ _ | address _ _ _ | codeAddress _ _ => true
  | _ => false

def flat? : DataRecord → Option (List UInt8)
  | zeros size => some (List.replicate size.toNat 0)
  | inline bs | bytes bs => some bs
  | _ => none

def bytesText (bs : List UInt8) : String :=
  "[" ++ String.intercalate ", " (bs.map fun b => toString b.toNat) ++ "]"

def text (r : DataRecord) : String :=
  let parts (name : String) (fields : List (String × String)) : String :=
    name ++ " \x7b " ++ String.intercalate ", " (fields.map fun (f, v) => f ++ ": " ++ v) ++ " \x7d"
  let num (n : UInt64) : String := toString n.toNat
  match r with
  | zeros size => parts "Azeros" [("size", num size)]
  | inline bs =>
    parts "Ibytes" [("len", toString bs.length),
      ("data", bytesText (bs ++ List.replicate (inlineLimit - bs.length) 0))]
  | bytes bs => parts "Nbytes" [("bytes", bytesText bs)]
  | constant width offset bs =>
    parts "Abytes" [("width", toString width), ("offset", num offset), ("bytes", bytesText bs)]
  | address width symbol offset =>
    parts "Xoff" [("width", toString width),
      ("sym", "ObjSymbolId(" ++ toString symbol.index ++ ")"), ("offset", num offset)]
  | codeAddress width offset => parts "Coff" [("width", toString width), ("offset", num offset)]
  | common size => parts "Common" [("size", num size)]

end DataRecord

abbrev DataPool := ChainPool DataRecord

abbrev DataWork := ChainWork DataRecord

def DataPool.empty : DataPool := Pool.empty 64

namespace Data

def sizeOf (rs : List DataRecord) : UInt64 := rs.foldr (fun r size => r.size + size) 0

def size (c : Chain) : DataWork UInt64 := return sizeOf (← ChainWork.items c)

def isZeroRun (c : Chain) : DataWork Bool := do
  match c with
  | none => return false
  | some h =>
    let r ← ChainWork.record h
    return r.item.isZeros && r.next.isNone

def hasPointers (c : Chain) : DataWork Bool :=
  return (← ChainWork.items c).any DataRecord.isPointer

def toCommon (c : Chain) : DataWork Chain := do
  if ← isZeroRun c then
    match c with
    | none => return c
    | some h =>
      let total ← size c
      ChainWork.modifyItem h fun _ => .common total
      return c
  else throw .commonNotZero

def patchOffset (h : Handle) (offset : UInt64) : DataWork Unit := do
  match (← ChainWork.record h).item with
  | .address width symbol _ => ChainWork.modifyItem h fun _ => .address width symbol offset
  | other => throw (.notAnAddress other.text)

end Data

structure DataBuilder where
  chain : ChainBuilder := {}
  pointerSize : Nat
  deriving Repr, DecidableEq, Inhabited

namespace DataBuilder

def empty (pointerSize : Nat) : DataBuilder := { pointerSize := pointerSize }

def push (b : DataBuilder) (r : DataRecord) : DataWork (Handle × DataBuilder) := do
  let (h, chain) ← b.chain.push r
  return (h, { b with chain := chain })

def bytes (b : DataBuilder) (bs : List UInt8) : DataWork (Option Handle × DataBuilder) := do
  if bs.isEmpty then return (none, b)
  let (h, b) ← b.push (.ofBytes bs)
  return (some h, b)

def constant (b : DataBuilder) (offset : UInt64) (bs : List UInt8) (zeros : Nat) :
    DataWork DataBuilder :=
  return (← b.push (.constant b.pointerSize offset (bs ++ List.replicate zeros 0))).2

def zeros (b : DataBuilder) (size : UInt64) : DataWork DataBuilder := do
  if size = 0 then return b
  match b.chain.last with
  | none => return (← b.push (.zeros size)).2
  | some tail =>
    match (← ChainWork.record tail).item with
    | .zeros run =>
      ChainWork.modifyItem tail fun _ => .zeros (run + size)
      return b
    | _ => return (← b.push (.zeros size)).2

def number (b : DataBuilder) (width : Nat) (n : UInt64) : DataWork DataBuilder := do
  if n = 0 then b.zeros width.toUInt64
  else return (← b.bytes (Text.littleEndian width n)).2

def word (b : DataBuilder) (n : UInt32) : DataWork DataBuilder := b.number 4 n.toUInt64

def length (b : DataBuilder) (n : UInt64) : DataWork DataBuilder := b.number b.pointerSize n

def address (b : DataBuilder) (s : ObjectSymbolId) (offset : UInt64) :
    DataWork (Handle × DataBuilder) :=
  b.push (.address b.pointerSize s offset)

def codeAddress (b : DataBuilder) (offset : UInt64) : DataWork DataBuilder :=
  return (← b.push (.codeAddress b.pointerSize offset)).2

def appendChain (b : DataBuilder) (c : Chain) : DataWork DataBuilder :=
  return { b with chain := ← b.chain.appendChain c }

def append (b other : DataBuilder) : DataWork DataBuilder :=
  return { b with chain := ← b.chain.append other.chain }

def pushAll (b : DataBuilder) : List DataRecord → DataWork DataBuilder
  | [] => return b
  | r :: rs => do pushAll (← b.push r).2 rs

/-- Append the zeros of a repeated run. A builder with nothing but zeros keeps one run. -/
def repeatZeros (b : DataBuilder) (size : UInt64) : DataWork DataBuilder := do
  match b.chain.first with
  | none => b.zeros size
  | some h =>
    if ← Data.isZeroRun b.chain.first then
      ChainWork.modifyItem h fun r => .zeros (r.size + size)
      return b
    else b.zeros size

def flatten : List DataRecord → Except Fault (List UInt8)
  | [] => .ok []
  | r :: rs =>
    match r.flat? with
    | none => .error (.notFlat r.text)
    | some bs => (flatten rs).map (bs ++ ·)

def repeatChain (b : DataBuilder) (c : Chain) (count : UInt64) : DataWork DataBuilder := do
  if count = 0 then return b
  let rs ← ChainWork.items c
  let size := Data.sizeOf rs
  if size = 0 then return b
  if ← Data.isZeroRun c then b.repeatZeros (size * count)
  else if rs.any DataRecord.isPointer then
    b.pushAll (List.replicate count.toNat rs).flatten
  else
    let bs ← liftExcept (flatten rs)
    return (← b.push (.bytes (List.replicate count.toNat bs).flatten)).2

def size (b : DataBuilder) : DataWork UInt64 := Data.size b.chain.first

def mergeZeros (h : Handle) : Nat → DataWork Unit
  | 0 => return
  | steps + 1 => do
    let r ← ChainWork.record h
    match r.item, r.next with
    | .zeros size, some next =>
      let s ← ChainWork.record next
      match s.item with
      | .zeros more =>
        ChainWork.modifyRecord h fun _ => ⟨.zeros (size + more), s.next⟩
        let _ ← ChainWork.remove next
        mergeZeros h steps
      | _ => return
    | _, _ => return

/-- Give the chain, with its zeros at the start in one record. -/
def finish (b : DataBuilder) : DataWork Chain := do
  match b.chain.first with
  | none => return none
  | some h =>
    mergeZeros h ((← get).live + 1)
    return some h

end DataBuilder

end DCompiler
