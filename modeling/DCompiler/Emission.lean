import DCompiler.Object.Assembly
import DCompiler.Program

/-!
# Emission

Writes an analysed program into an object file: first the data of all global variables, then the
code of all functions with a body. The code of a function sets up its frame, makes the calls of its
body in the order of evaluation, and returns.
-/

namespace DCompiler

structure Emission where
  file : ObjectFile
  functions : List String
  globals : List String
  deriving Repr, Inhabited

namespace Program

abbrev pointerSize (p : Program) : Nat := p.options.target.pointerSize

/-! ## What is emitted -/

def isEmittedGlobal (p : Program) (s : SymbolId) : Bool :=
  (p.symbols.var? s).any fun v =>
    v.owner.isNone &&
      !v.storage.intersects (.field ||| .parameter ||| .manifest ||| .external) &&
      !v.storage.isRef && !p.types.isError v.type

/-- Whether a symbol is a function with code in the object file. A function for an array operation
has code only when calls go to it. -/
def isEmittedFunction (p : Program) (s : SymbolId) : Bool :=
  (p.symbols.func? s).any fun f =>
    f.body.isSome && f.progress = .bodyDone && (!f.isArrayOp || p.arrayOps.binds s)

def linkName (p : Program) (s : SymbolId) : String :=
  match p.types.signature? (p.functionType s) with
  | some ⟨_, _, _, .c⟩ => p.symbols.name s
  | _ => p.symbols.qualifiedName s

/-! ## What a body does -/

inductive Event where
  | line (place : Span)
  | call (func : SymbolId)
  deriving Repr, DecidableEq, Inhabited

def callsWithin (p : Program) : Nat → ExprId → List Event
  | 0, _ => []
  | depth + 1, e =>
    let operands := (p.exprs.children e).flatMap (p.callsWithin depth)
    match p.exprs.kind e with
    | .call callee _ =>
      match p.exprs.kind callee with
      | .symbolRef s => if p.isFunction s then operands ++ [.call s] else operands
      | _ => operands
    | _ => operands

def calls (p : Program) (e : ExprId) : List Event := p.callsWithin (p.exprs.size + 1) e

def eventsWithin (p : Program) : Nat → StmtId → List Event
  | 0, _ => []
  | depth + 1, s =>
    let node := p.stmts.node s
    let here := [Event.line node.span]
    let stmt := p.eventsWithin depth
    match node.kind with
    | .expr e => here ++ p.calls e
    | .varDecl _ _ init storage _ =>
      here ++ (if storage.contains .static then [] else init.toList.flatMap p.calls)
    | .funcDecl _ _ => []
    | .block stmts => stmts.flatMap stmt
    | .scope body | .label _ body => stmt body
    | .ifElse test yes no => here ++ p.calls test ++ stmt yes ++ no.toList.flatMap stmt
    | .whileLoop test body => here ++ p.calls test ++ stmt body
    | .forLoop init test incr body =>
      init.toList.flatMap stmt ++ here ++ test.toList.flatMap p.calls ++ stmt body ++
        incr.toList.flatMap p.calls
    | .foreachRange _ lower upper body _ => here ++ p.calls lower ++ p.calls upper ++ stmt body
    | .ret value => here ++ value.toList.flatMap p.calls
    | .breakLoop | .continueLoop => here

def events (p : Program) (s : SymbolId) : List Event :=
  match (p.symbols.func? s).bind (·.body) with
  | some body => p.eventsWithin (p.stmts.size + 1) body
  | none => []

end Program

namespace Emission

open Assemble

def sizeOf (p : Program) (type : TypeId) : Assemble UInt64 :=
  liftExcept (p.types.byteSize p.symbols p.pointerSize type)

def objectSymbol (p : Program) (s : SymbolId) : Assemble ObjectSymbolId := do
  match p.symbols.func? s with
  | some f =>
    let cls := if f.body.isSome then SymbolClass.global else .external
    let made ← declare (p.linkName s) cls 0
    modifySymbol made fun sym => { sym with operandClass := .func }
    return made
  | none =>
    let size ←
      match p.symbols.var? s with
      | some v => sizeOf p v.type
      | none => pure 0
    declare (p.symbols.qualifiedName s) .global size

/-! ## Data -/

/-- Append a number in the size of its type, with zeros behind the first eight bytes. -/
def scalarData (b : DataBuilder) (value size : UInt64) : DataWork DataBuilder := do
  if size = 4 then b.word value.toUInt32
  else if value = 0 then b.zeros size
  else
    let width := min size 8
    let (_, b) ← b.bytes (Text.littleEndian width.toNat value)
    b.zeros (size - width)

def eachData (data : DataBuilder → ExprId → Assemble DataBuilder) (b : DataBuilder) :
    List ExprId → Assemble DataBuilder
  | [] => return b
  | e :: es => do eachData data (← data b e) es

/-- Append the data of an array literal with finished elements: the elements themselves, or a
length and a pointer to them. -/
def arrayData (b contents : DataBuilder) (isDynamic : Bool) (count : Nat) (size : UInt64) :
    Assemble DataBuilder := do
  if isDynamic then
    let elements ← onData contents.finish
    let b ← onData (b.length count.toUInt64)
    return (← dataAddress b elements 0).2
  else
    let used ← onData contents.size
    let b ← onData (b.append contents)
    onData (b.zeros (if used < size then size - used else 0))

/-- Append the data of a value that is not repeated. What cannot be computed is zero. The elements
of an array literal are appended by `data`. -/
def plainData (p : Program) (data : DataBuilder → TypeId → ExprId → Assemble DataBuilder)
    (b : DataBuilder) (type : TypeId) (size : UInt64) (e : ExprId) : Assemble DataBuilder := do
  let zero : Assemble DataBuilder := onData (b.zeros size)
  match p.exprs.kind e with
  | .integer value _ => onData (scalarData b value size)
  | .real value _ =>
    let bits := if size = 4 then value.toSingleBits.toUInt64 else value.bits
    onData (scalarData b bits size)
  | .array elems =>
    let elem := (p.types.next? type).getD type
    let contents ← eachData (fun b e => data b elem e) (.empty p.pointerSize) elems
    let isDynamic :=
      match p.types.kind type with
      | .dynArray _ => true
      | _ => false
    arrayData b contents isDynamic elems.length size
  | .unary .addressOf operand =>
    match p.exprs.kind operand with
    | .symbolRef target =>
      let target ← objectSymbol p target
      return (← onData (b.address target 0)).2
    | _ => zero
  | _ => zero

def repeatedData (p : Program) (data : DataBuilder → TypeId → ExprId → Assemble DataBuilder)
    (b : DataBuilder) (elem : TypeId) (count : UInt64) (e : ExprId) : Assemble DataBuilder := do
  let element ← data (.empty p.pointerSize) elem e
  onData do
    let chain ← element.finish
    let b ← b.repeatChain chain count
    ChainWork.release chain
    return b

def valueDataWithin (p : Program) : Nat → DataBuilder → TypeId → ExprId → Assemble DataBuilder
  | 0, b, _, _ => return b
  | depth + 1, b, type, e => do
    let size ← sizeOf p type
    let e := p.belowCasts e
    let plain := plainData p (valueDataWithin p depth) b type size e
    match p.types.kind type with
    | .staticArray elem count =>
      if p.types.isArray ((p.exprs.type? e).getD type) then plain
      else repeatedData p (valueDataWithin p depth) b elem count e
    | _ => plain

def variableData (p : Program) (b : DataBuilder) (type : TypeId) (init : Option ExprId) :
    Assemble DataBuilder := do
  match init with
  | none => onData (b.zeros (← sizeOf p type))
  | some e => valueDataWithin p (p.exprs.size + p.types.size + 1) b type e

def emitGlobal (p : Program) (s : SymbolId) : Assemble String := do
  let v := (p.symbols.var? s).getD default
  let b ← variableData p (.empty p.pointerSize) v.type v.init
  let made ← objectSymbol p s
  let data ← onData b.finish
  modifySymbol made fun sym => { sym with data := data }
  writeData made
  resolve made
  return (← symbol made).name

/-! ## Code -/

def instruction? (p : Program) (source : SourceText) : Program.Event → Assemble (Option Instruction)
  | .line place =>
    if p.options.lineNumbers then
      let position := source.position place.start
      return some (.lineNumber ⟨position.line.toUInt32, position.column.toUInt32⟩)
    else return none
  | .call func => do
    let callee ← objectSymbol p func
    return some (.withOperand Opcode.call 0 .func (.symbol callee 0))

def eventCode (p : Program) (source : SourceText) (b : CodeBuilder) :
    List Program.Event → Assemble CodeBuilder
  | [] => return b
  | event :: rest => do
    let i ← instruction? p source event
    let (_, b) ← onCode (CodeBuilder.push? b i)
    eventCode p source b rest

def functionCode (p : Program) (source : SourceText) (s : SymbolId) : Assemble Chain := do
  let rex : UInt32 := if p.pointerSize = 8 then Rex.w.toUInt32 <<< 16 else 0
  let b ← onCode do
    let (_, b) ← ChainBuilder.push .empty (Instruction.plain Opcode.pushRbp)
    return (← b.push (Instruction.regMem Opcode.move (0xec ||| rex))).2
  let b ← eventCode p source b (p.events s)
  onCode do
    let (_, b) ← b.push (Instruction.plain Opcode.popRbp)
    return (← b.push (Instruction.plain Opcode.ret)).2.first

def encodedBytes (i : Instruction) : List UInt8 :=
  (if i.rex = 0 then [] else [0x40 ||| i.rex]) ++ [i.op.toUInt8] ++
    (if i.op = Opcode.move then [i.rm] else [])

def encode (position : UInt64) (i : Instruction) : Assemble UInt64 := do
  if i.op &&& 0xff = Opcode.escape then
    match i.operand1 with
    | .place place =>
      if i.op = Opcode.lineNumber then modifyFile (·.addLine .code position place)
    | _ => pure ()
    return position
  else
    let bytes := encodedBytes i
    modifyFile (·.write .code position bytes)
    let behind := position + bytes.length.toUInt64
    match i.operand2 with
    | .symbol target offset =>
      if i.op = Opcode.call then
        let width ← addFixup target .code behind offset .selfRelative
        if (← symbol target).isDefined then resolve target
        return behind + width.toUInt64
      else return behind
    | _ => return behind

def encodeAll (position : UInt64) : List Instruction → Assemble Unit
  | [] => return
  | i :: rest => do encodeAll (← encode position i) rest

def emitFunction (p : Program) (source : SourceText) (s : SymbolId) : Assemble String := do
  let made ← objectSymbol p s
  let code ← functionCode p source s
  let start := (← get).file.segmentSize .code
  modifySymbol made fun sym => { sym with segment := some .code, offset := start, cls := .global }
  let placed ← symbol made
  modifyFile (·.define placed)
  encodeAll start (← onCode (ChainWork.items code))
  resolve made
  onCode (ChainWork.release code)
  return placed.name

/-- Write all of a program into a new object file. Gives the name of a static symbol that nothing
defines instead, if there is one. -/
def emit (p : Program) (source : SourceText) : Assemble (Except String Emission) := do
  modifyFile fun _ => .empty p.pointerSize
  let globals ← (p.symbols.ids.filter p.isEmittedGlobal).mapM (emitGlobal p)
  let functions ← (p.symbols.ids.filter p.isEmittedFunction).mapM (emitFunction p source)
  match ← flush with
  | some name => return .error name
  | none => return .ok ⟨(← get).file, functions, globals⟩

end Emission

end DCompiler
