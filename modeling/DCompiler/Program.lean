import DCompiler.ArrayOp
import DCompiler.Diagnostic.Log
import DCompiler.Expr.Printer
import DCompiler.Grammar.Module
import DCompiler.Types.Layout

/-!
# Programs

The tables that all modules of a session share, and questions about expressions that the tables
answer.
-/

namespace DCompiler

structure Target where
  pointerSize : Nat
  deriving Repr, DecidableEq, Inhabited

namespace Target

def x86 : Target := ⟨4⟩

def x86With64Bits : Target := ⟨8⟩

def sizeType (t : Target) : TypeId :=
  .ofScalar (if t.pointerSize = 8 then .ulong else .uint)

def differenceType (t : Target) : TypeId :=
  .ofScalar (if t.pointerSize = 8 then .long else .int)

end Target

structure Options where
  target : Target := .x86With64Bits
  maxCallDepth : Nat := 500
  lineNumbers : Bool := true
  deriving Repr, DecidableEq, Inhabited

structure Tables where
  options : Options
  types : TypeTable
  symbols : SymbolTable
  scopes : ScopeTable
  exprs : ExprTable
  stmts : StmtTable
  arrayOps : ArrayOpCache
  deriving Inhabited

/-- The tables of a session and what was reported about them. -/
structure Program extends Tables where
  log : DiagnosticLog
  deriving Inhabited

namespace Program

def empty (options : Options) : Program where
  options := options
  types := .initial
  symbols := .empty
  scopes := .empty
  exprs := .empty
  stmts := .empty
  arrayOps := .empty
  log := .empty

def read {α : Type} (p : Program)
    (reader : SyntaxTables → Except ReadError (α × SyntaxTables)) :
    Except ReadError (α × Program) :=
  match reader ⟨p.exprs, p.stmts, p.types⟩ with
  | .ok (a, t) => .ok (a, { p with exprs := t.exprs, stmts := t.stmts, types := t.types })
  | .error e => .error e

def addExpr (p : Program) (e : Expr) (span : Span) : ExprId × Program :=
  let (id, exprs) := p.exprs.add e span
  (id, { p with exprs := exprs })

def intern (p : Program) (kind : TypeKind) : TypeId × Program :=
  let (id, types) := p.types.intern kind
  (id, { p with types := types })

end Program

namespace Tables

/-! ## Questions about expressions -/

def typeOf (p : Tables) (e : ExprId) : TypeId := (p.exprs.type? e).getD .error

def isError (p : Tables) (e : ExprId) : Bool :=
  p.exprs.isError e || p.types.isError (p.typeOf e)

def text (p : Tables) (e : ExprId) : String := p.exprs.text ⟨p.symbols, p.types⟩ e

def baseKindOf (p : Tables) (e : ExprId) : TypeKind := p.types.baseKind (p.typeOf e)

def isArray (p : Tables) (e : ExprId) : Bool := p.types.isArray (p.typeOf e)

def literal? (p : Tables) (e : ExprId) : Option UInt64 :=
  match p.exprs.kind e with
  | .integer value _ => some value
  | _ => none

def belowCastsWithin (p : Tables) : Nat → ExprId → ExprId
  | 0, e => e
  | depth + 1, e =>
    match p.exprs.kind e with
    | .cast operand _ => p.belowCastsWithin depth operand
    | _ => e

def belowCasts (p : Tables) (e : ExprId) : ExprId := p.belowCastsWithin (p.exprs.size + 1) e

def isFunction (p : Tables) (s : SymbolId) : Bool := (p.symbols.func? s).isSome

def functionType (p : Tables) (s : SymbolId) : TypeId :=
  match p.symbols.func? s with
  | some f => f.type
  | none => .error

/-- How far the analysis of a function has come. Other symbols have nothing left to analyse. -/
def progressOf (p : Tables) (s : SymbolId) : Progress :=
  match p.symbols.func? s with
  | some f => f.progress
  | none => .bodyDone

def variableType (p : Tables) (s : SymbolId) : TypeId :=
  match p.symbols.var? s with
  | some v => v.type
  | none => .error

def aggregateWith (p : Tables) (e : ExprId) (name : String) : Option SymbolId := do
  let aggregate ← p.types.aggregate? (p.typeOf e)
  p.symbols.findMember aggregate name

def currentFunc (p : Tables) (sc : ScopeId) : Option SymbolId := (p.scopes.scope sc).func

def isLvalueWithin (p : Tables) : Nat → ExprId → Bool
  | 0, _ => false
  | depth + 1, e =>
    match p.exprs.kind e with
    | .error => true
    | .symbolRef s | .member _ s =>
      (p.symbols.var? s).any fun v => !v.storage.contains .manifest
    | .unary .deref _ | .index _ _ _ | .slice _ _ _ _ => true
    | .comma _ rhs => p.isLvalueWithin depth rhs
    | _ => false

def isLvalue (p : Tables) (e : ExprId) : Bool := p.isLvalueWithin (p.exprs.size + 1) e

/-- Whether an expression becomes a type without a cast. Beyond what the types allow, a literal fits
where its value does, an array literal where its elements do, and a function where its pointer or
delegate is wanted. -/
def convertsTo (p : Tables) (e : ExprId) (target : TypeId) : Bool :=
  let source := p.typeOf e
  if source = target || p.isError e || p.types.isError target then true
  else if p.types.conversion p.symbols source target != .none then true
  else
    match p.exprs.kind e, p.types.kind target with
    | .integer value _, .scalar t =>
      t.isIntegral && (p.types.scalar? source).any fun s => t.holds (s.number value)
    | .real _ _, .scalar t =>
      (p.types.scalar? source).any fun s => s.isReal == t.isReal && !t.isIntegral
    | .array elems, .dynArray elem =>
      if elem.index < target.index then elems.all fun x => p.convertsTo x elem else false
    | .array elems, .staticArray elem length =>
      if elem.index < target.index then
        elems.length.toUInt64 == length && elems.all fun x => p.convertsTo x elem
      else false
    | .string _, .pointer next => p.types.scalar? next == some .char
    | .symbolRef s, .pointer next => p.isFunction s && next == source
    | .symbolRef s, .delegate func => (p.symbols.func? s).any fun f => f.isNested && func == source
    | _, _ => false
termination_by target.index

/-! ## Array operations -/

def isArrayOperation (p : Tables) (e : ExprId) : Bool :=
  p.isArray e &&
    match p.exprs.kind e with
    | .binary op _ _ => op.isElementwise
    | .unary .neg _ | .unary .complement _ => true
    | _ => false

def isArrayOperand (p : Tables) (e : ExprId) : Bool :=
  match p.exprs.kind e with
  | .slice _ _ _ _ => true
  | .array _ => (p.types.next? (p.typeOf e)).any fun elem => !p.types.isVoid elem
  | .assign _ _ _ _ => p.isArray e
  | _ => p.isArrayOperation e

/-- Whether all arrays in an operation of a depth are written as slices or literals. -/
def isArrayOpValidWithin (p : Tables) : Nat → ExprId → Bool
  | 0, _ => false
  | depth + 1, e =>
    let type := p.typeOf e
    match p.exprs.kind e with
    | .slice _ _ _ _ | .array _ => true
    | kind =>
      if !p.types.isArray type then true
      else if (p.types.next? type).any p.types.isVoid then false
      else
        match kind with
        | .binary op lhs rhs =>
          op.isElementwise && p.isArrayOpValidWithin depth lhs && p.isArrayOpValidWithin depth rhs
        | .assign _ lhs rhs _ =>
          p.isArrayOpValidWithin depth lhs && p.isArrayOpValidWithin depth rhs
        | .unary .neg operand | .unary .complement operand | .cast operand _ =>
          p.isArrayOpValidWithin depth operand
        | _ => false

def isArrayOpValid (p : Tables) (e : ExprId) : Bool :=
  p.isArrayOpValidWithin (p.exprs.size + 1) e

end Tables

end DCompiler
