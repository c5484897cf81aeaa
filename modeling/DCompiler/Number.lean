

/-!
# Floating numbers

A magnitude of a binary format is stored as one number: the exponent field followed by the
fraction. Read as a natural number it grows with the magnitude, and the carry of a significand
that rounds up to the next power of two lands in the exponent field by itself. `encode` finds the
stored number of the magnitude nearest to a quotient; a tie goes to the even neighbour and what is
too large becomes infinity.

A double is its 64 bits. The operations that analysis needs are exact on the bits: conversions go
through the rational number that the bits stand for.

Among the decimals that round to a given double there is a least number of digits, and among the
decimals of that length one nearest to the double. `shortest` finds it by exact arithmetic: for one
digit, two digits and so on it tests the two neighbours of the value on the decimal grid of that
length against the interval of numbers that round to the double. An exact tie goes up.
-/

-- Powers are those of numbers, also where powers in monoids are known.
attribute [instance (2000), default_instance 20000] instPowNat

namespace DCompiler.Number

/-- The nearest natural number to `num / den`; a half goes to the even neighbour. -/
def roundQuotient (num den : Nat) : Nat :=
  let whole := num / den
  let rest := 2 * (num % den)
  if rest < den then whole
  else if den < rest then whole + 1
  else whole + whole % 2

def floorLog2 (num den : Nat) : Int :=
  let guess : Int := (num.log2 : Int) - (den.log2 : Int)
  if num * 2 ^ (-guess).toNat < den * 2 ^ guess.toNat then guess - 1 else guess

/-- A binary floating format: the bits of its significand, the exponent of its least magnitude,
and the bits of its exponent field. -/
structure BinaryFormat where
  precision : Nat
  minExponent : Int
  exponentBits : Nat
  deriving Repr, DecidableEq

namespace BinaryFormat

def binary32 : BinaryFormat := ⟨24, -149, 8⟩

def binary64 : BinaryFormat := ⟨53, -1074, 11⟩

def infinity (f : BinaryFormat) : Nat :=
  (2 ^ f.exponentBits - 1) * 2 ^ (f.precision - 1)

def encode (f : BinaryFormat) (num den : Nat) : Nat :=
  if num = 0 then 0
  else
    let exponent := max f.minExponent (floorLog2 num den - (f.precision - 1 : Nat))
    let significand := roundQuotient (num * 2 ^ (-exponent).toNat) (den * 2 ^ exponent.toNat)
    min f.infinity ((exponent - f.minExponent).toNat * 2 ^ (f.precision - 1) + significand)

end BinaryFormat

end DCompiler.Number

namespace DCompiler

structure Double where
  bits : UInt64
  deriving Repr, DecidableEq, Inhabited, Hashable

namespace Double

def signBit : UInt64 := 0x8000000000000000

def nan : Double := ⟨0x7ff8000000000000⟩

def isNegative (x : Double) : Bool := x.bits &&& signBit != 0

def magnitude (x : Double) : Nat := x.bits.toNat % 2 ^ 63

def isNaN (x : Double) : Bool := Number.BinaryFormat.binary64.infinity < x.magnitude

def isFinite (x : Double) : Bool := x.magnitude < Number.BinaryFormat.binary64.infinity

def neg (x : Double) : Double := ⟨x.bits ^^^ signBit⟩

def exponentField (x : Double) : Nat := x.magnitude / 2 ^ 52

/-- The significand of a finite number, which stands for `significand * 2 ^ exponent`. -/
def significand (x : Double) : Nat :=
  let fraction := x.magnitude % 2 ^ 52
  if x.exponentField = 0 then fraction else fraction + 2 ^ 52

def exponent (x : Double) : Int := (max x.exponentField 1 : Nat) - (1075 : Int)

def ofQuotient (negative : Bool) (num den : Nat) : Double :=
  let magnitude := (Number.BinaryFormat.binary64.encode num den).toUInt64
  ⟨if negative then magnitude ||| signBit else magnitude⟩

def ofInt (n : Int) : Double := ofQuotient (n < 0) n.natAbs 1

/-- The nearest double to `digits * 10 ^ exponent`. A decimal that is far outside the range
settles without computing its power of ten. -/
def ofDecimal (negative : Bool) (digits : Nat) (exponent : Int) : Double :=
  let order := exponent + (Nat.toDigits 10 digits).length
  if digits = 0 ∨ order < -400 then ofQuotient negative 0 1
  else if 400 < order then ofQuotient negative (10 ^ 400) 1
  else ofQuotient negative (digits * 10 ^ exponent.toNat) (10 ^ (-exponent).toNat)

def truncate (x : Double) : Int :=
  let whole := x.significand * 2 ^ x.exponent.toNat / 2 ^ (-x.exponent).toNat
  if x.isNegative then -(whole : Int) else whole

/-- The whole part as an unsigned word; what is out of range goes to the nearest bound. -/
def toUnsigned (x : Double) : UInt64 :=
  (min (2 ^ 64 - 1) x.truncate.toNat).toUInt64

/-- The whole part as the word of a signed number; what is out of range goes to the nearest
bound. -/
def toSigned (x : Double) : UInt64 :=
  (Int64.ofInt (max (-2 ^ 63) (min (2 ^ 63 - 1) x.truncate))).toUInt64

/-- The bits of the nearest single precision number. A NaN keeps its sign and the high bits of its
fraction. -/
def toSingleBits (x : Double) : UInt32 :=
  let magnitude :=
    if x.isNaN then
      Number.BinaryFormat.binary32.infinity + (x.magnitude % 2 ^ 52) / 2 ^ 29
    else if x.isFinite then
      Number.BinaryFormat.binary32.encode
        (x.significand * 2 ^ x.exponent.toNat) (2 ^ (-x.exponent).toNat)
    else Number.BinaryFormat.binary32.infinity
  (if x.isNegative then magnitude + 2 ^ 31 else magnitude).toUInt32

end Double

end DCompiler

namespace DCompiler.Number

structure Decimal where
  digits : Nat
  exponent : Int
  deriving Repr, DecidableEq, Inhabited

namespace Decimal

def floorLog10 (num den : Nat) : Int :=
  if den ≤ num then (Nat.toDigits 10 (num / den)).length - 1
  else -(((List.range 400).find? fun t => den ≤ num * 10 ^ t).getD 400 : Nat)

/-- The decimal with exponent `unit` that lies in the rounding interval of `significand * 2 ^
exponent` and is nearest to it, if one lies there. The interval reaches half a unit up, and half a
unit down or a quarter when the unit below is half as large. -/
def onGrid (significand : Nat) (exponent : Int) (halved : Bool) (unit : Int) : Option Decimal :=
  let scale := 2 ^ (exponent - 2).toNat * 10 ^ (-unit).toNat
  let step := 2 ^ (2 - exponent).toNat * 10 ^ unit.toNat
  let value := 4 * significand * scale
  let low := (4 * significand - if halved then 1 else 2) * scale
  let high := (4 * significand + 2) * scale
  let closed := significand % 2 == 0
  let inside (n : Nat) : Bool :=
    if closed then low ≤ n * step && n * step ≤ high else low < n * step && n * step < high
  let below := value / step
  let downwards := value - below * step
  let upwards := (below + 1) * step - value
  match inside below, inside (below + 1) with
  | true, true => some ⟨if downwards < upwards then below else below + 1, unit⟩
  | true, false => some ⟨below, unit⟩
  | false, true => some ⟨below + 1, unit⟩
  | false, false => none

def stripZeros : Nat → Decimal → Decimal
  | 0, d => d
  | fuel + 1, d =>
    if d.digits ≠ 0 ∧ d.digits % 10 = 0 then stripZeros fuel ⟨d.digits / 10, d.exponent + 1⟩ else d

def shortest (x : Double) : Decimal :=
  let significand := x.significand
  let exponent := x.exponent
  let halved := significand == 2 ^ 52 && 1 < x.exponentField
  let order := floorLog10 (significand * 2 ^ exponent.toNat) (2 ^ (-exponent).toNat)
  let found := (List.range 17).findSome? fun (n : Nat) =>
    onGrid significand exponent halved (order - (n : Int))
  let decimal := found.getD ⟨0, 0⟩
  stripZeros 20 decimal

def positional (d : Decimal) : String :=
  let digits := Nat.toDigits 10 d.digits
  if 0 ≤ d.exponent then String.ofList (digits ++ List.replicate d.exponent.toNat '0')
  else
    let places := (-d.exponent).toNat
    let padded := List.replicate (places + 1 - digits.length) '0' ++ digits
    let whole := padded.length - places
    String.ofList (padded.take whole) ++ "." ++ String.ofList (padded.drop whole)

end Decimal

end DCompiler.Number

namespace DCompiler.Double

def text (x : Double) : String :=
  if x.isNaN then "NaN"
  else
    let sign := if x.isNegative then "-" else ""
    let digits :=
      if !x.isFinite then "inf"
      else if x.magnitude = 0 then "0"
      else (Number.Decimal.shortest x).positional
    sign ++ digits

end DCompiler.Double

namespace DCompiler.Number

/-! ## Numerals -/

def hexDigit? (c : Char) : Option Nat :=
  if '0' ≤ c ∧ c ≤ '9' then some (c.toNat - 48)
  else if 'a' ≤ c ∧ c ≤ 'f' then some (c.toNat - 87)
  else if 'A' ≤ c ∧ c ≤ 'F' then some (c.toNat - 55)
  else none

def decimalDigit? (c : Char) : Option Nat :=
  if '0' ≤ c ∧ c ≤ '9' then some (c.toNat - 48) else none

def digitsValue (base : Nat) (digit? : Char → Option Nat) : Nat → List Char → Option Nat
  | acc, [] => some acc
  | acc, c :: cs => do digitsValue base digit? (acc * base + (← digit? c)) cs

def natural? (base : Nat) (digit? : Char → Option Nat) (cs : List Char) : Option Nat :=
  if cs.isEmpty then none else digitsValue base digit? 0 cs

def exponent? : List Char → Option Int
  | '+' :: cs => (natural? 10 decimalDigit? cs).map fun n => (n : Int)
  | '-' :: cs => (natural? 10 decimalDigit? cs).map fun n => -(n : Int)
  | cs => (natural? 10 decimalDigit? cs).map fun n => (n : Int)

/-- A decimal numeral: digits with at most one point, at least one of them, and an optional
exponent. -/
def decimal? (cs : List Char) : Option Decimal := do
  let mark := fun c : Char => c != 'e' && c != 'E'
  let mantissa := cs.takeWhile mark
  let exponent ← match cs.dropWhile mark with
    | [] => some 0
    | _ :: tail => exponent? tail
  let whole := mantissa.takeWhile (· != '.')
  let fraction := (mantissa.dropWhile (· != '.')).drop 1
  let digits ← natural? 10 decimalDigit? (whole ++ fraction)
  return ⟨digits, exponent - fraction.length⟩

end DCompiler.Number
