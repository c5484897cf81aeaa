import DCompiler.Data.Builder
import DCompiler.Object.File

/-!
# Assembling an object file

The pools of code and data, the symbols and the open references of an object file in the making,
and the steps that write data, refer to symbols, and close the file.
-/

namespace DCompiler

structure Assembly where
  code : CodePool
  data : DataPool
  symbols : ObjectSymbolTable
  fixups : FixupTable
  file : ObjectFile
  deriving Repr, Inhabited

abbrev Assemble := Work Assembly

namespace Assembly

def empty (pointerSize : Nat) : Assembly :=
  ⟨.empty, .empty, .empty, .empty, .empty pointerSize⟩

end Assembly

namespace Assemble

def onCode {α : Type} (w : CodeWork α) : Assemble α :=
  Work.onPart (·.code) (fun code a => { a with code := code }) w

def onData {α : Type} (w : DataWork α) : Assemble α :=
  Work.onPart (·.data) (fun data a => { a with data := data }) w

def modifyFile (f : ObjectFile → ObjectFile) : Assemble Unit :=
  modify fun a => { a with file := f a.file }

def symbol (s : ObjectSymbolId) : Assemble ObjectSymbol := do
  let symbols := (← get).symbols
  match symbols.get? s with
  | some found => return found
  | none => throw (.noObjectSymbol symbols.size s.index)

def modifySymbol (s : ObjectSymbolId) (f : ObjectSymbol → ObjectSymbol) : Assemble Unit := do
  let _ ← symbol s
  modify fun a => { a with symbols := a.symbols.modify s f }

def declare (name : String) (cls : SymbolClass) (size : UInt64) : Assemble ObjectSymbolId :=
  modifyGet fun a =>
    let (id, symbols) := a.symbols.declare name cls size
    (id, { a with symbols := symbols })

def internal (base : String) (size : UInt64) : Assemble ObjectSymbolId :=
  modifyGet fun a =>
    let (id, symbols) := a.symbols.internal base size
    (id, { a with symbols := symbols })

/-! ## Data -/

def flagsOfWidth (width : Nat) : CodeFlags := if width = 8 then .wideOffset else .none

def writeRecord (s : Segment) (position : UInt64) (r : DataRecord) : Assemble Unit := do
  match r with
  | .zeros size => modifyFile (·.write s position (List.replicate size.toNat 0))
  | .inline bs | .bytes bs => modifyFile (·.write s position bs)
  | .constant width offset bs =>
    let literal := (← get).file.segmentSize .constData
    modifyFile (·.write .constData literal bs)
    let place ← liftExcept (Fault.wordOr .sumOverflow (literal.toNat + offset.toNat))
    modifyFile (·.referToPlace s position .constData place (flagsOfWidth width))
  | .address width target offset =>
    let target ← symbol target
    modifyFile (·.referToSymbol s position target.name offset.toInt64 (flagsOfWidth width))
  | .codeAddress width offset =>
    modifyFile (·.referToPlace s position .code offset (flagsOfWidth width))
  | .common _ => throw .commonInsideData

def writeRecords (s : Segment) (position : UInt64) : List DataRecord → Assemble Unit
  | [] => return
  | r :: rs => do
    writeRecord s position r
    writeRecords s (position + r.size) rs

def commonSize? (c : Chain) : DataWork (Option UInt64) := do
  match c with
  | none => return none
  | some h =>
    match (← ChainWork.record h).item with
    | .common size => return some size
    | _ => return none

def isZeroData (c : Chain) : Assemble Bool :=
  if c.isNone then return true else onData (Data.isZeroRun c)

/-- Write zeros for all of a symbol's type, or for its data if that is longer. -/
def writeZeros (s : ObjectSymbolId) (segment : Segment) (offset : UInt64)
    (records : List DataRecord) : Assemble Unit := do
  let size := max (Data.sizeOf records) (← symbol s).size
  modifyFile (·.write segment offset (List.replicate size.toNat 0))

def placeIn (s : ObjectSymbolId) (segment : Segment) (offset : UInt64) (write : Assemble Unit) :
    Assemble Unit := do
  modifySymbol s fun sym => { sym with segment := some segment, offset := offset }
  write
  let placed ← symbol s
  modifyFile (·.define placed)

/-- Place a symbol behind a segment and write its data there. A symbol without data, or with zeros
only, goes to the zero segment. -/
def placeSymbol (s : ObjectSymbolId) (c : Chain) : Assemble Unit := do
  let records ← onData (ChainWork.items c)
  let isZero ← isZeroData c
  let file := (← get).file
  if isZero then
    let base := file.segmentSize .zeroData
    placeIn s .zeroData base (writeZeros s .zeroData base records)
  else
    let base := file.segmentSize .data
    placeIn s .data base (writeRecords .data base records)

def writeData (s : ObjectSymbolId) : Assemble Unit := do
  let sym ← symbol s
  modifySymbol s fun sym => { sym with data := none }
  match ← onData (commonSize? sym.data) with
  | some size => modifyFile (·.addCommon sym.name size)
  | none => placeSymbol s sym.data
  modifySymbol s fun sym => { sym with flags := sym.flags ||| .written }
  onData (ChainWork.release sym.data)

def initCommon (s : ObjectSymbolId) : Assemble Unit := do
  let size := (← symbol s).size
  if 0 < size then
    let h ← onData (ChainWork.make (.common size))
    modifySymbol s fun sym => { sym with data := some h }

def dataAddress (b : DataBuilder) (c : Chain) (offset : UInt64) :
    Assemble (ObjectSymbolId × DataBuilder) := do
  let s ← internal "__dtoff" (← onData (Data.size c))
  modifySymbol s fun sym => { sym with data := c }
  writeData s
  let (_, b) ← onData (b.address s offset)
  return (s, b)

/-! ## References -/

/-- Refer to a symbol that may not be placed yet, and give the width of the field. -/
def addFixup (s : ObjectSymbolId) (segment : Segment) (offset : UInt64) (addend : Int64)
    (flags : CodeFlags) : Assemble Nat := do
  let width := (← get).file.fieldWidth flags
  modify fun a => { a with
    fixups := a.fixups.add s ⟨segment, flags, offset, addend, width⟩
    file := a.file.write segment offset (List.replicate width 0) }
  return width

def resolve (s : ObjectSymbolId) : Assemble Unit := do
  if ((← get).fixups.waiting s).isEmpty then return
  let target ← symbol s
  let a ← get
  let file ← liftExcept (a.fixups.fill s target a.file)
  set { a with fixups := a.fixups.erase s, file := file }

def makeExternal (s : ObjectSymbolId) : Assemble Unit := do
  let sym ← symbol s
  let number ← modifyGet fun a =>
    let (number, file) := a.file.external sym.name
    (number, { a with file := file })
  modifySymbol s fun sym => { sym with
    cls := .external
    operandClass := .external
    externIndex := number }
  if sym.flags.contains .weak then modifyFile (·.weakExternal sym.name)

def placeStatic (s : ObjectSymbolId) : Assemble Unit := do
  let size := (← symbol s).size
  let pointerSize := (← get).file.pointerSize
  let data ← onData do (← (DataBuilder.empty pointerSize).zeros size).finish
  modifySymbol s fun sym => { sym with cls := .static, operandClass := .undefined, data := data }
  writeData s

/-- Close the references that still wait for symbols. Gives the name of the first static symbol
that nothing defines, if there is one. -/
def closeAll : List ObjectSymbolId → Assemble (Option String)
  | [] => return none
  | s :: rest => do
    if ((← get).fixups.waiting s).isEmpty then closeAll rest
    else
      let sym ← symbol s
      if sym.cls = .static && sym.externIndex = 0 then return some sym.name
      if sym.flags.contains .wasStatic then placeStatic s else makeExternal s
      resolve s
      closeAll rest

def flush : Assemble (Option String) := do
  modify fun a => { a with fixups := { a.fixups with flushing := true } }
  let undefined ← closeAll (← get).fixups.order
  modify fun a => { a with fixups := .empty }
  return undefined

end Assemble

end DCompiler
