

/-!
# Basic types

The scalar types and `void`, with the tables that describe them: names, one-letter codes, classes,
sizes and widths; the common type of two operands, and which basic types widen to which.

The value of an integral literal is kept in a 64-bit word, sign-extended when its type is signed.
`normalize` cuts a word to the width of a type; `number` reads the number that a word of a type
stands for; `range` gives the numbers that a type can hold.
-/

namespace DCompiler

inductive Scalar where
  | void | bool | byte | ubyte | short | ushort | int | uint | long | ulong
  | float32 | float64 | float80
  | imaginary32 | imaginary64 | imaginary80
  | complex32 | complex64 | complex80
  | char | wchar | dchar
  deriving Repr, DecidableEq, Inhabited

namespace Scalar

def all : List Scalar :=
  [void, bool, byte, ubyte, short, ushort, int, uint, long, ulong, float32, float64, float80,
   imaginary32, imaginary64, imaginary80, complex32, complex64, complex80, char, wchar, dchar]

def index (s : Scalar) : Nat := all.idxOf s

def name : Scalar → String
  | void => "void" | bool => "bool" | byte => "byte" | ubyte => "ubyte" | short => "short"
  | ushort => "ushort" | int => "int" | uint => "uint" | long => "long" | ulong => "ulong"
  | float32 => "float" | float64 => "double" | float80 => "real"
  | imaginary32 => "ifloat" | imaginary64 => "idouble" | imaginary80 => "ireal"
  | complex32 => "cfloat" | complex64 => "cdouble" | complex80 => "creal"
  | char => "char" | wchar => "wchar" | dchar => "dchar"

def ofName? (text : String) : Option Scalar := all.find? (·.name == text)

def letter : Scalar → Char
  | void => 'v' | bool => 'b' | byte => 'g' | ubyte => 'h' | short => 's' | ushort => 't'
  | int => 'i' | uint => 'k' | long => 'l' | ulong => 'm'
  | float32 => 'f' | float64 => 'd' | float80 => 'e'
  | imaginary32 => 'o' | imaginary64 => 'p' | imaginary80 => 'j'
  | complex32 => 'q' | complex64 => 'r' | complex80 => 'c'
  | char => 'a' | wchar => 'u' | dchar => 'w'

/-! ## Classes -/

def isUnsigned : Scalar → Bool
  | bool | ubyte | ushort | uint | ulong | char | wchar | dchar => true
  | _ => false

def isIntegral : Scalar → Bool
  | byte | short | int | long => true
  | s => s.isUnsigned

def isReal : Scalar → Bool
  | float32 | float64 | float80 => true
  | _ => false

def isImaginary : Scalar → Bool
  | imaginary32 | imaginary64 | imaginary80 => true
  | _ => false

def isComplex : Scalar → Bool
  | complex32 | complex64 | complex80 => true
  | _ => false

def isFloating (s : Scalar) : Bool := s.isReal || s.isImaginary || s.isComplex

def isArithmetic (s : Scalar) : Bool := s.isIntegral || s.isFloating

/-- 0, 1 or 2 for the 32, 64 and 80 bit floating families. -/
def precision : Scalar → Option Nat
  | float32 | imaginary32 | complex32 => some 0
  | float64 | imaginary64 | complex64 => some 1
  | float80 | imaginary80 | complex80 => some 2
  | _ => none

def realOf : Nat → Scalar
  | 0 => float32 | 1 => float64 | _ => float80

def imaginaryOf : Nat → Scalar
  | 0 => imaginary32 | 1 => imaginary64 | _ => imaginary80

def complexOf : Nat → Scalar
  | 0 => complex32 | 1 => complex64 | _ => complex80

/-! ## Sizes -/

/-- Size in bytes; the widest floating family depends on the size of a pointer. -/
def size (pointerSize : Nat) : Scalar → Nat
  | void | bool | byte | ubyte | char => 1
  | short | ushort | wchar => 2
  | int | uint | dchar | float32 | imaginary32 => 4
  | long | ulong | float64 | imaginary64 | complex32 => 8
  | complex64 => 16
  | float80 | imaginary80 => if pointerSize = 8 then 16 else 12
  | complex80 => if pointerSize = 8 then 32 else 24

def bits : Scalar → Nat
  | bool => 1
  | byte | ubyte | char => 8
  | short | ushort | wchar => 16
  | int | uint | dchar => 32
  | _ => 64

def promote : Scalar → Scalar
  | bool | byte | ubyte | short | ushort | char | wchar => int
  | dchar => uint
  | s => s

end Scalar

end DCompiler

namespace DCompiler.Scalar

/-- Cut a word to the width of the type and extend it back to 64 bits. For `bool` every word but
zero is one. -/
def normalize (value : UInt64) (s : Scalar) : UInt64 :=
  if s = .bool then (if value = 0 then 0 else 1)
  else if 64 ≤ s.bits then value
  else
    let low := value.toNat % 2 ^ s.bits
    if s.isUnsigned || low < 2 ^ (s.bits - 1) then low.toUInt64
    else (2 ^ 64 - 2 ^ s.bits + low).toUInt64

def number (value : UInt64) (s : Scalar) : Int :=
  if s.isUnsigned then value.toNat else value.toInt64.toInt

def range (s : Scalar) : Int × Int :=
  match s with
  | .bool => (0, 1)
  | .dchar => (0, 0x10FFFF)
  | s =>
    if s.isUnsigned then (0, 2 ^ s.bits - 1)
    else (-2 ^ (s.bits - 1), 2 ^ (s.bits - 1) - 1)

def holds (s : Scalar) (n : Int) : Bool :=
  s.range.1 ≤ n && n ≤ s.range.2

/-- What two operands become: the type of the result and the type each side is converted to. -/
structure Combined where
  result : Scalar
  lhs : Scalar
  rhs : Scalar
  deriving Repr, DecidableEq, Inhabited

/-- The common integral type: 64 bits if one side has them, unsigned if one side is. -/
def commonIntegral (a b : Scalar) : Scalar :=
  let wide := a.promote.bits == 64 || b.promote.bits == 64
  let unsigned := a.promote.isUnsigned || b.promote.isUnsigned
  match wide, unsigned with
  | true, true => .ulong
  | true, false => .long
  | false, true => .uint
  | false, false => .int

/-- The floating type of the same kind at a precision; an integral type counts as real. -/
def atPrecision (precision : Nat) (s : Scalar) : Scalar :=
  if s.isImaginary then imaginaryOf precision
  else if s.isComplex then complexOf precision
  else realOf precision

def widerPrecision (a b : Scalar) : Option Nat :=
  match a.precision, b.precision with
  | some p, some q => some (max p q)
  | some p, none => some p
  | none, q => q

/-- The usual arithmetic conversions. Integral operands take their common integral type. With a
floating operand the higher precision wins; a complex operand makes the result complex, two
imaginary ones make it imaginary, and all else is real. `void` does not combine. -/
def combine (a b : Scalar) : Option Combined :=
  if a = .void ∨ b = .void then none
  else if a.isIntegral && b.isIntegral then
    let common := commonIntegral a b
    some ⟨common, common, common⟩
  else
    let precision := (widerPrecision a b).getD 0
    let result :=
      if a.isComplex || b.isComplex then complexOf precision
      else if a.isImaginary && b.isImaginary then imaginaryOf precision
      else realOf precision
    some ⟨result, atPrecision precision a, atPrecision precision b⟩

/-- `a` has a floating precision at most that of `b`. Having none counts as lowest. -/
def precisionAtMost (a b : Scalar) : Bool :=
  match a.precision, b.precision with
  | none, _ => true
  | some _, none => false
  | some p, some q => p ≤ q

def widensTo (a b : Scalar) : Bool :=
  if a = b then true
  else if a = .void ∨ b = .void ∨ b = .bool then false
  else if a.isIntegral then
    if b.isIntegral then a.bits ≤ b.bits else b.isReal || b.isComplex
  else if a.isReal then (b.isReal || b.isComplex) && precisionAtMost a b
  else if a.isImaginary then (b.isImaginary || b.isComplex) && precisionAtMost a b
  else b.isComplex && precisionAtMost a b

end DCompiler.Scalar
