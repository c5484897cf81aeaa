import DCompiler.Symbol.Table

/-!
# Expressions as text

How expressions are written in messages. Operands of a binary operator stand in parentheses when
they bind less tightly than it; the right operand also when it binds equally.
-/

namespace DCompiler

namespace Expr

def atomic : Nat := 100

def strength : Expr → Nat
  | binary op _ _ => op.precedence
  | assign _ _ _ _ | cond _ _ _ | comma _ _ => 0
  | _ => atomic

end Expr

def integerText (value : UInt64) (suffix : Option Scalar) : String :=
  match suffix with
  | some .bool => if value = 0 then "false" else "true"
  | some .ulong | some .long => toString value.toInt64.toInt ++ "L"
  | some .byte | some .short | some .int => toString value.toInt64.toInt
  | _ => if value.toNat < 2 ^ 63 then toString value.toNat else toString value.toNat ++ "LU"

def realText (value : Double) (suffix : Option Scalar) : String :=
  match suffix with
  | some .float32 => value.text ++ "F"
  | some s => if s.isImaginary then value.text ++ "i" else value.text
  | none => value.text

namespace ExprTable

structure Names where
  symbols : SymbolTable
  types : TypeTable

def textWith (t : ExprTable) (names : Names) (below : ExprId → String) (e : Expr) : String :=
  let operand (id : ExprId) (outer : Nat) : String :=
    if (t.kind id).strength < outer then "(" ++ below id ++ ")" else below id
  let list (ids : List ExprId) : String := String.intercalate ", " (ids.map below)
  match e with
  | .error => "__error"
  | .integer value suffix => integerText value suffix
  | .real value suffix => realText value suffix
  | .complex re im => "(" ++ re.text ++ " + " ++ im.text ++ "i)"
  | .string text => "\"" ++ Text.escape text ++ "\""
  | .null => "null"
  | .array elems => "[" ++ list elems ++ "]"
  | .structValue symbol elems => names.symbols.name symbol ++ "(" ++ list elems ++ ")"
  | .identifier name => name
  | .dollar => "$"
  | .thisRef => "this"
  | .superRef => "super"
  | .symbolRef symbol | .templateRef symbol | .moduleRef symbol | .declaration symbol
  | .funcLiteral symbol => names.symbols.name symbol
  | .typeRef type => names.types.text type
  | .typeid type => "typeid(" ++ names.types.text type ++ ")"
  | .tuple elems => "tuple(" ++ list elems ++ ")"
  | .dot base name => operand base Expr.atomic ++ "." ++ name
  | .member base symbol => operand base Expr.atomic ++ "." ++ names.symbols.name symbol
  | .unary op value => op.symbol ++ operand value Expr.atomic
  | .binary op lhs rhs =>
    operand lhs op.precedence ++ " " ++ op.symbol ++ " " ++ operand rhs (op.precedence + 1)
  | .assign op lhs rhs _ => below lhs ++ " " ++ op.symbol ++ " " ++ below rhs
  | .comma lhs rhs => "(" ++ below lhs ++ ", " ++ below rhs ++ ")"
  | .cond test yes no => operand test 1 ++ " ? " ++ below yes ++ " : " ++ below no
  | .call callee args => operand callee Expr.atomic ++ "(" ++ list args ++ ")"
  | .cast value target =>
    "cast(" ++ names.types.text target ++ ")" ++ operand value Expr.atomic
  | .slice base (some lower) (some upper) _ =>
    operand base Expr.atomic ++ "[" ++ below lower ++ " .. " ++ below upper ++ "]"
  | .slice base _ _ _ => operand base Expr.atomic ++ "[]"
  | .index base index _ => operand base Expr.atomic ++ "[" ++ below index ++ "]"
  | .length value => operand value Expr.atomic ++ ".length"
  | .compiles elems => "__traits(compiles, " ++ list elems ++ ")"

def textWithin (t : ExprTable) (names : Names) : Nat → ExprId → String
  | 0, _ => ""
  | depth + 1, id => t.textWith names (t.textWithin names depth) (t.kind id)

def text (t : ExprTable) (names : Names) (id : ExprId) : String :=
  t.textWithin names (t.size + 1) id

end ExprTable

/-! ## Outlines

The whole structure of an expression as text: every entry stands in brackets, its kind first, then
its parts. The kind carries the type of the entry, if analysis gave it one, and on request the place
in the source. -/

structure Outline where
  exprs : ExprTable
  stmts : StmtTable
  types : TypeTable
  symbols : SymbolTable
  showsSpans : Bool

namespace Outline

def entry (kind : String) (parts : List String) : String :=
  "(" ++ String.intercalate " " (kind :: parts) ++ ")"

def optional {α : Type} (write : α → String) (missing : String) : Option α → String
  | some a => write a
  | none => missing

def span (o : Outline) (s : Span) : String :=
  if o.showsSpans then "@" ++ toString s.start ++ "-" ++ toString s.stop else ""

def symbol (o : Outline) (id : SymbolId) : String :=
  o.symbols.name id ++ "#" ++ toString id.index

def double (d : Double) : String :=
  if d.isNaN then "nan" else Text.padLeft 16 '0' (Text.hex d.bits.toNat)

def exprParts (o : Outline) (below : ExprId → String) (e : Expr) : String × List String :=
  let suffix := optional Scalar.name "-"
  let range := optional below "_"
  let length (v : Option SymbolId) : List String := v.toList.map o.symbol
  match e with
  | .error => ("error", [])
  | .null => ("null", [])
  | .dollar => ("dollar", [])
  | .thisRef => ("this", [])
  | .superRef => ("super", [])
  | .integer value s => ("int", [toString value.toNat, suffix s])
  | .real value s => ("real", [double value, suffix s])
  | .complex re im => ("complex", [double re, double im])
  | .string text => ("str", ["x" ++ Text.hexBytes (Text.bytes text)])
  | .array elems => ("array", elems.map below)
  | .tuple elems => ("tuple", elems.map below)
  | .compiles elems => ("compiles", elems.map below)
  | .structValue s elems => ("struct", o.symbol s :: elems.map below)
  | .identifier name => ("ident", [name])
  | .symbolRef s => ("var", [o.symbol s])
  | .templateRef s => ("template", [o.symbol s])
  | .moduleRef s => ("scope", [o.symbol s])
  | .funcLiteral s => ("funclit", [o.symbol s])
  | .declaration s => ("decl", [o.symbol s])
  | .typeRef type => ("type", [o.types.text type])
  | .typeid type => ("typeid", [o.types.text type])
  | .dot base name => ("dotid", [name, below base])
  | .member base s => ("dotvar", [o.symbol s, below base])
  | .unary op value => ("unary", [op.symbol, below value])
  | .binary op lhs rhs => ("binary", [op.symbol, below lhs, below rhs])
  | .assign op lhs rhs isFill =>
    (if isFill then "fill" else "assign", [op.symbol, below lhs, below rhs])
  | .comma lhs rhs => ("comma", [below lhs, below rhs])
  | .cond test yes no => ("cond", [below test, below yes, below no])
  | .call callee args => ("call", below callee :: args.map below)
  | .cast value target => ("cast", [o.types.text target, below value])
  | .slice base lower upper v => ("slice", [below base, range lower, range upper] ++ length v)
  | .index base index v => ("index", [below base, below index] ++ length v)
  | .length value => ("length", [below value])

def exprWithin (o : Outline) : Nat → ExprId → String
  | 0, _ => ""
  | depth + 1, id =>
    let n := o.exprs.node id
    let (kind, parts) := o.exprParts (o.exprWithin depth) n.kind
    let type := optional (fun t => ":" ++ o.types.text t) "" n.type
    entry (kind ++ type ++ o.span n.span) parts

def text (o : Outline) (id : ExprId) : String := o.exprs.text ⟨o.symbols, o.types⟩ id

def expr (o : Outline) (id : ExprId) : String := o.exprWithin (o.exprs.size + 1) id

end Outline

end DCompiler
