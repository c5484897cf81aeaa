import DCompiler.Scope
import DCompiler.Pool

/-!
# Instructions

The records of code before it is encoded. An instruction has an opcode, the bytes that select
registers and memory, flags for its encoding, and two operands.
-/

namespace DCompiler

/-! ## Opcodes -/

namespace Opcode

def pushRbp : UInt32 := 0x55
def popRbp : UInt32 := 0x5d
def move : UInt32 := 0x8b
def nop : UInt32 := 0x90
def ret : UInt32 := 0xc3
def call : UInt32 := 0xe8
def jump : UInt32 := 0xeb
def jumpParity : UInt32 := 0x7a
def jumpNoParity : UInt32 := 0x7b
def asm : UInt32 := 0x36
/-- Marks what is no instruction; the second byte says what it is. -/
def escape : UInt32 := 0x3c
def lineNumber : UInt32 := escape ||| 0x100
def adjustStack : UInt32 := escape ||| 0x700
def adjustFloatStack : UInt32 := escape ||| 0xd00

end Opcode

/-! ## Flags -/

structure CodeFlags where
  bits : UInt32
  deriving Repr, DecidableEq, Inhabited

namespace CodeFlags

def none : CodeFlags := ⟨0⟩
def offset : CodeFlags := ⟨0x1⟩
def wideJump : CodeFlags := ⟨0x10⟩
def target : CodeFlags := ⟨0x20⟩
def selfRelative : CodeFlags := ⟨0x40⟩
def wideOffset : CodeFlags := ⟨0x80⟩

def contains (a b : CodeFlags) : Bool := a.bits &&& b.bits == b.bits

instance : OrOp CodeFlags := ⟨fun a b => ⟨a.bits ||| b.bits⟩⟩

end CodeFlags

/-! ## Extending bits

Bits that extend register numbers and operand sizes. -/

namespace Rex

def b : UInt8 := 1
def x : UInt8 := 2
def r : UInt8 := 4
def w : UInt8 := 8

end Rex

/-! ## Operands -/

inductive OperandClass where
  | undefined | const | offset | func | external | data | zeroData | code | block | localVar
  | param | asm
  deriving Repr, DecidableEq, Inhabited

structure SourcePlace where
  line : UInt32
  column : UInt32
  deriving Repr, DecidableEq, Inhabited

inductive Operand where
  | none
  | const (value : Int64)
  | symbol (s : ObjectSymbolId) (offset : Int64)
  | code (h : Handle)
  | block (number : UInt32)
  | place (p : SourcePlace)
  | bytes (bs : List UInt8)
  deriving Repr, DecidableEq, Inhabited

def Operand.const? : Operand → Option Int64
  | const value => some value
  | _ => Option.none

/-! ## Instructions -/

structure Instruction where
  op : UInt32 := 0
  /-- Register and memory selection in the first byte, the scaled index in the second, and the
  extending bits in the third. -/
  ea : UInt32 := 0
  flags : CodeFlags := .none
  class1 : OperandClass := .undefined
  operand1 : Operand := .none
  class2 : OperandClass := .undefined
  operand2 : Operand := .none
  deriving Repr, DecidableEq, Inhabited

namespace Instruction

def rm (i : Instruction) : UInt8 := i.ea.toUInt8

def sib (i : Instruction) : UInt8 := (i.ea >>> 8).toUInt8

def rex (i : Instruction) : UInt8 := (i.ea >>> 16).toUInt8

def isAsm (i : Instruction) : Bool := i.op == Opcode.asm

def withRex (i : Instruction) (bits : UInt8) : Instruction :=
  { i with ea := (i.ea &&& (0xff00ffff : UInt32)) ||| (bits.toUInt32 <<< 16) }

def orFlags (flags : CodeFlags) (i : Instruction) : Instruction :=
  { i with flags := i.flags ||| flags }

def orRex (bits : UInt8) (i : Instruction) : Instruction := i.withRex (i.rex ||| bits)

/-! ### Forms -/

def plain (op : UInt32) : Instruction := { op := op }

def regMem (op rm : UInt32) : Instruction := { op := op, ea := rm }

/-- With a scaled index. The third bytes of `rm` and `sib` hold extending bits: those of `rm` are
kept, and the index adds its base bit as it is and its register bit as the index bit. -/
def indexed (op rm sib : UInt32) : Instruction :=
  let base := ((rm ||| (sib &&& (Rex.b.toUInt32 <<< 16))) >>> 16).toUInt8
  let extended := if sib &&& (Rex.r.toUInt32 <<< 16) != 0 then base ||| Rex.x else base
  { op := op
    ea := (rm &&& (0xff : UInt32)) ||| ((sib &&& (0xff : UInt32)) <<< 8) |||
      (extended.toUInt32 <<< 16) }

def asm (bytes : List UInt8) : Instruction :=
  { op := Opcode.asm, class1 := .asm, operand1 := .bytes bytes }

def withOperand (op ea : UInt32) (cls : OperandClass) (value : Operand) : Instruction :=
  { op := op, ea := ea, class2 := cls, operand2 := value }

def withConst (op ea : UInt32) (value : Int64) : Instruction :=
  { op := op, ea := ea, flags := .offset, class2 := .const, operand2 := .const value }

def withOffset (op ea : UInt32) (cls : OperandClass) (value : Operand) : Instruction :=
  { op := op, ea := ea, flags := .offset, class1 := cls, operand1 := value }

def withBoth (op ea : UInt32) (class1 : OperandClass) (operand1 : Operand) (class2 : OperandClass)
    (operand2 : Operand) : Instruction :=
  { op := op, ea := ea, flags := .offset, class1 := class1, operand1 := operand1, class2 := class2,
    operand2 := operand2 }

def lineNumber (p : SourcePlace) : Instruction :=
  { op := Opcode.lineNumber, operand1 := .place p }

def adjustStack? (n : Int64) : Option Instruction :=
  if n = 0 then none else some { op := Opcode.adjustStack, operand1 := .const n }

def adjustFloatStack? (n : Int64) : Option Instruction :=
  if n = 0 then none else some { op := Opcode.adjustFloatStack, operand1 := .const n }

def nop : Instruction := plain Opcode.nop

/-- A jump with the low byte of an opcode. Only the plain jump has a narrow displacement. -/
def jump (op : UInt32) (cls : OperandClass) (target : Operand) : Instruction :=
  let op := op &&& 0xff
  { op := op, flags := if op = Opcode.jump then .none else .wideJump, class2 := cls,
    operand2 := target }

end Instruction

/-! ## Chains of instructions -/

abbrev CodePool := ChainPool Instruction

abbrev CodeWork := ChainWork Instruction

def CodePool.empty : CodePool := Pool.empty 120

namespace Code

def append (c : Chain) (i : Instruction) : CodeWork Chain := do
  ChainWork.append c (some (← ChainWork.make i))

def orFlags (c : Chain) (flags : CodeFlags) : CodeWork Unit := do
  match ← ChainWork.last c with
  | none => return
  | some h => ChainWork.modifyItem h (Instruction.orFlags flags)

def orRex (c : Chain) (bits : UInt8) : CodeWork Unit := do
  match ← ChainWork.last c with
  | none => return
  | some h => ChainWork.modifyItem h (Instruction.orRex bits)

end Code

abbrev CodeBuilder := ChainBuilder

namespace CodeBuilder

def push? (b : CodeBuilder) (i : Option Instruction) :
    CodeWork (Option Handle × CodeBuilder) := do
  match i with
  | none => return (none, b)
  | some i =>
    let (h, b) ← ChainBuilder.push b i
    return (some h, b)

def markTarget (cls : OperandClass) (target : Operand) : CodeWork Unit :=
  match cls, target with
  | .code, .code h => ChainWork.modifyItem h (Instruction.orFlags .target)
  | _, _ => return

def plainJump (b : CodeBuilder) (op : UInt32) (cls : OperandClass) (target : Operand) :
    CodeWork CodeBuilder := do
  markTarget cls target
  return (← ChainBuilder.push b (.jump op cls target)).2

/-- Append a jump to an instruction or a block. The second byte of the opcode may ask for a jump
that is also taken on parity, or for one that is taken only without parity: such a jump is stepped
over by a parity jump to an empty instruction behind it. -/
def jump (b : CodeBuilder) (opcode : UInt32) (cls : OperandClass) (target : Operand) :
    CodeWork CodeBuilder := do
  markTarget cls target
  let parity := (opcode >>> 8) &&& 0xff
  let i := Instruction.jump opcode cls target
  if parity = 0 then return (← ChainBuilder.push b i).2
  else if parity = Opcode.jumpParity then
    let (_, b) ← ChainBuilder.push b i
    return (← ChainBuilder.push b { i with op := Opcode.jumpParity }).2
  else if parity = Opcode.jumpNoParity then
    let (landing, behind) ← ChainBuilder.push .empty Instruction.nop
    let b ← plainJump b Opcode.jumpParity .code (.code landing)
    let (_, b) ← ChainBuilder.push b i
    ChainBuilder.append b behind
  else throw (.parityOfJump parity opcode)

def orFlags (b : CodeBuilder) (flags : CodeFlags) : CodeWork Unit :=
  match b.last with
  | none => return
  | some h => ChainWork.modifyItem h (Instruction.orFlags flags)

def orRex (b : CodeBuilder) (bits : UInt8) : CodeWork Unit :=
  match b.last with
  | none => return
  | some h => ChainWork.modifyItem h (Instruction.orRex bits)

end CodeBuilder

end DCompiler
