import DCompiler.Pool
import DCompiler.Symbol.Table

/-!
# Conversions and sizes of types

How well a value of one type serves where another type is wanted, and the size and alignment of a
value. Sizes are 64-bit words, and one that is too large for a word is a fault. A struct that
contains itself has no size; the depth of the search is bounded by the number of types.
-/

namespace DCompiler

inductive MatchLevel where
  | none | convert | exact
  deriving Repr, DecidableEq, Inhabited

namespace MatchLevel

def rank : MatchLevel → Nat
  | none => 0 | convert => 1 | exact => 2

def worse (a b : MatchLevel) : MatchLevel := if a.rank ≤ b.rank then a else b

def ofBool (b : Bool) : MatchLevel := if b then convert else none

end MatchLevel

namespace TypeTable

/-- How a value of type `source` converts to `target` without a cast, where the types before
`source` convert as `below` says. The error type converts both ways, so that one fault is reported
once. -/
def conversionBy (t : TypeTable) (symbols : SymbolTable) (below : TypeId → TypeId → MatchLevel)
    (source target : TypeId) : MatchLevel :=
  if source = target then .exact
  else if t.isError source || t.isError target then .convert
  else
    match t.kind source, t.kind target with
    | .enumType _ _ base, _ => (below base target).worse .convert
    | .scalar a, .scalar b => .ofBool (a.widensTo b)
    | .null, .pointer _ | .null, .dynArray _ | .null, .assocArray _ _ | .null, .classType _ _
    | .null, .delegate _ => .convert
    | .staticArray a _, .dynArray b => .ofBool (a == b || t.isVoid b)
    | .dynArray _, .dynArray b => .ofBool (t.isVoid b)
    | .pointer _, .pointer b => .ofBool (t.isVoid b)
    | .staticArray a _, .pointer b => .ofBool (a == b)
    | .classType derived _, .classType base _ => .ofBool (symbols.derivesFrom derived base)
    | .tuple as, .tuple bs =>
      if as.length = bs.length then
        (as.zip bs).foldl (fun level (a, b) => level.worse (below a b)) .exact
      else .none
    | _, _ => .none

def conversion (t : TypeTable) (symbols : SymbolTable) (source target : TypeId) : MatchLevel :=
  t.conversionBy symbols (fun next target =>
    if next.index < source.index then t.conversion symbols next target else .none) source target
termination_by source.index

end TypeTable

structure Layout where
  size : UInt64
  align : UInt64
  deriving Repr, DecidableEq, Inhabited

namespace Layout

def alignUp (offset align : UInt64) : Except Fault UInt64 :=
  if offset % align = 0 then .ok offset
  else Fault.wordOr .sumOverflow (offset.toNat + (align - offset % align).toNat)

def natural (size : UInt64) : UInt64 := max 1 (min 8 size)

/-- Put one more field behind others, and keep the greatest alignment. -/
def addField (fields field : Layout) : Except Fault Layout := do
  let start ← alignUp fields.size field.align
  let stop ← Fault.wordOr .sumOverflow (start.toNat + field.size.toNat)
  return ⟨stop, max fields.align field.align⟩

end Layout

namespace TypeTable

def scalarLayout (pointerSize : Nat) (s : Scalar) : Layout :=
  let size := s.size pointerSize
  let align :=
    if s.isComplex then (size / 2).toUInt64
    else match s with
      | .float80 | .imaginary80 => (max pointerSize 4).toUInt64
      | _ => Layout.natural size.toUInt64
  ⟨size.toUInt64, align⟩

/-- The layout of a value of a type, from those of the values in it. -/
def layoutBy (t : TypeTable) (symbols : SymbolTable) (pointerSize : Nat)
    (below : TypeId → Except Fault Layout) (id : TypeId) : Except Fault Layout := do
  let pointer := pointerSize.toUInt64
  match t.kind id with
  | .scalar s => return scalarLayout pointerSize s
  | .error | .named _ | .function _ => return ⟨1, 1⟩
  | .pointer _ | .assocArray _ _ | .classType _ _ | .typeInfo | .null =>
    return ⟨pointer, Layout.natural pointer⟩
  | .dynArray _ | .delegate _ => return ⟨pointer * 2, pointer⟩
  | .staticArray elem length =>
    let l ← below elem
    return ⟨← Fault.wordOr .productOverflow (l.size.toNat * length.toNat), l.align⟩
  | .enumType _ _ base =>
    let l ← below base
    return ⟨l.size, Layout.natural l.size⟩
  | .tuple elems =>
    let addElem (sum : UInt64) (elem : TypeId) := do
      Fault.wordOr .sumOverflow (sum.toNat + (← below elem).size.toNat)
    return ⟨← elems.foldlM addElem 0, pointer⟩
  | .structType symbol _ =>
    match symbols.aggregate? symbol with
    | none => return ⟨0, pointer⟩
    | some a =>
      let addVar (fields : Layout) (v : Variable) := do fields.addField (← below v.type)
      let fields ← (a.fields.filterMap symbols.var?).foldlM addVar ⟨0, 1⟩
      return ⟨max (← Layout.alignUp fields.size fields.align) 1, pointer⟩

def layoutWithin (t : TypeTable) (symbols : SymbolTable) (pointerSize : Nat) :
    Nat → TypeId → Except Fault Layout
  | 0, _ => .error .endlessType
  | depth + 1, id => t.layoutBy symbols pointerSize (t.layoutWithin symbols pointerSize depth) id

/-- The size of a value of a type in bytes. -/
def byteSize (t : TypeTable) (symbols : SymbolTable) (pointerSize : Nat) (id : TypeId) :
    Except Fault UInt64 :=
  (·.size) <$> t.layoutWithin symbols pointerSize (t.size + 1) id

end TypeTable

end DCompiler
