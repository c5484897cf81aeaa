import DCompiler.Grammar.Parser

/-!
# Literals, types and parameters

The values that the texts of literals stand for; underscores between digits are dropped. A type is a
name or a basic type with pointers, brackets, and function or delegate parameters behind it.
Whatever is wrong inside a type, the fault names the word that the type starts with.
-/

namespace DCompiler.Grammar

def withoutSeparators (cs : List Char) : List Char := cs.filter (· != '_')

def integerDigits? (digits : List Char) : Option Nat :=
  match digits with
  | '0' :: 'x' :: hex | '0' :: 'X' :: hex => Number.natural? 16 Number.hexDigit? hex
  | _ => Number.natural? 10 Number.decimalDigit? digits

def integerSuffix (suffix : List Char) : Option Scalar :=
  match suffix.contains 'L', suffix.contains 'u' || suffix.contains 'U' with
  | true, true => some .ulong
  | true, false => some .long
  | false, true => some .uint
  | false, false => none

/-- The value of an integer literal, if 64 bits can hold it, and the type its suffix names. -/
def integerLiteral? (text : String) : Option (UInt64 × Option Scalar) := do
  let isDigit := fun c : Char => c != 'L' && c != 'u' && c != 'U'
  let value ← integerDigits? (withoutSeparators (text.toList.takeWhile isDigit))
  if value < 2 ^ 64 then
    return (value.toUInt64, integerSuffix (text.toList.dropWhile isDigit))
  else none

def floatingSuffix (suffix : List Char) : Option Scalar :=
  let precision :=
    if suffix.contains 'f' || suffix.contains 'F' then some 0
    else if suffix.contains 'L' then some 2
    else none
  match precision, suffix.contains 'i' with
  | some p, true => some (Scalar.imaginaryOf p)
  | none, true => some .imaginary64
  | some p, false => some (Scalar.realOf p)
  | none, false => none

def floatingLiteral? (text : String) : Option (Double × Option Scalar) := do
  let isBody := fun c : Char => c != 'f' && c != 'F' && c != 'L' && c != 'i'
  let value ← Number.decimal? (withoutSeparators (text.toList.takeWhile isBody))
  return (Double.ofDecimal false value.digits value.exponent,
    floatingSuffix (text.toList.dropWhile isBody))

/-- The value of a character literal: its first character, 0 when it is empty. -/
def characterLiteral (text : String) : UInt64 :=
  match (Text.unescape text).toList with
  | [] => 0
  | c :: _ => c.toNat.toUInt64

def namedType (name : String) : Parser TypeId :=
  if name == "string" then internType (.dynArray (.ofScalar .char))
  else
    match Scalar.ofName? name with
    | some s => return .ofScalar s
    | none => internType (.named name)

/-- A type whose faults are not yet those of a type. -/
def type (g : Rules) : Parser TypeId := do
  match ← peek with
  | .kwConst =>
    let _ ← advance
    if ← eat .lParen then
      let inner ← g.type
      let _ ← expect .rParen "`)`"
      g.typeTail inner
    else g.type
  | .ident =>
    let name ← text
    let _ ← advance
    g.typeTail (← namedType name)
  | _ => failAtWord Fault.typeExpected

def bracketTail (g : Rules) (elem : TypeId) : Parser TypeId := do
  if ← eat .rBracket then internType (.dynArray elem)
  else if (← peek) = .intLiteral ∧ (← peekAt 1) = .rBracket then
    match integerLiteral? (← text) with
    | none => failAtWord Fault.typeExpected
    | some (length, _) =>
      skip 2
      internType (.staticArray elem length)
  else
    let key ← g.type
    let _ ← expect .rBracket "`]`"
    internType (.assocArray key elem)

def paramOfDecl (p : ParamDecl) : Param :=
  ⟨p.type, p.storage.without .parameter, p.name, none⟩

def typeTail (g : Rules) (head : TypeId) : Parser TypeId := do
  match ← peek with
  | .star =>
    let _ ← advance
    g.typeTail (← internType (.pointer head))
  | .lBracket =>
    let _ ← advance
    g.typeTail (← bracketTail g head)
  | .ident =>
    let word ← text
    if word == "delegate" || word == "function" then
      let _ ← advance
      let (params, variadic) ← g.parameters .d
      let func ← internType (.function ⟨params.map paramOfDecl, head, variadic, .d⟩)
      g.typeTail (← internType (if word == "delegate" then .delegate func else .pointer func))
    else return head
  | _ => return head

/-- A type; a fault anywhere in it is one of its first word. -/
def wholeType (g : Rules) : Parser TypeId := fun s =>
  match type g s with
  | .ok result => .ok result
  | .error (.fault _ _) => failAtWord Fault.typeExpected s
  | .error .exhausted => .error .exhausted

/-! ## Parameters -/

def paramFlag? (kind next : TokenKind) : Option StorageClass :=
  match kind with
  | .kwRef => some .byRef
  | .kwOut => some .out
  | .kwLazy => some .lazy
  | .kwIn => some .const
  | .kwConst => if next = .lParen then none else some .const
  | _ => none

def parameter (g : Rules) : Parser ParamDecl := do
  let start ← here
  let flags ← storageFlags paramFlag?
  let type ← wholeType g
  let name ← if (← peek) = .ident then pure (some (← identifier).1) else pure none
  let default ← optionalAfter .assign g.assign
  return ⟨name, type, .parameter ||| flags, default, start.cover (← lastSpan)⟩

def variadicOf : Linkage → Variadic
  | .c => .c
  | .d => .d

def parameterList (g : Rules) (linkage : Linkage) : Parser (List ParamDecl × Variadic) := do
  if ← eat .rParen then return ([], .none)
  if ← eat .dotDotDot then
    let _ ← expect .rParen "`)`"
    return ([], variadicOf linkage)
  let p ← parameter g
  if ← eat .dotDotDot then
    let _ ← expect .rParen "`)`"
    return ([p], .typesafe)
  if ← eat .comma then
    let (others, variadic) ← g.parameterList linkage
    return (p :: others, variadic)
  let _ ← expect .rParen "`)`"
  return ([p], .none)

def parameters (g : Rules) (linkage : Linkage) : Parser (List ParamDecl × Variadic) := do
  let _ ← expect .lParen "`(`"
  g.parameterList linkage

end DCompiler.Grammar
