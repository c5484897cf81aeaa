import DCompiler.Analysis.Problem
import DCompiler.Program
import DCompiler.Text.Similarity

/-!
# The state of an analysis

Analysis works on the tables of the program and on a context: the module, the depth of nested
calls, and the functions whose bodies are being analysed. It never stops at an error; it reports
the error and puts an error expression in the place of the faulty one.

**Rules.** A rule of analysis (`Analyse`) is a tree of elementary actions. It sees the tables and
the context, but not what was reported before. It does not call other rules on smaller parts of the
program itself; it makes a request, which an `Analyser` answers. What holds of every action holds
of every rule by induction over the tree.

**Passes.** The few steps that guard the tables which are filled only once are no rules but passes
over the whole state (`Pass`): the type and the body of a function, and the routine of an array
operation. An analysis without a result is one that has no end.
-/

namespace DCompiler

structure Frame where
  func : SymbolId
  constructed : Bool
  loopDepth : Nat
  deriving Repr, DecidableEq, Inhabited

structure Context extends Tables where
  module : Option SymbolId
  moduleScope : Option ScopeId
  callDepth : Nat
  /-- Innermost first. -/
  frames : List Frame
  usedLengths : List SymbolId
  deriving Inhabited

structure Analysis extends Context where
  log : DiagnosticLog
  deriving Inhabited

namespace Analysis

def ofProgram (p : Program) : Analysis := { p with
  module := none
  moduleScope := none
  callDepth := 0
  frames := []
  usedLengths := [] }

def toProgram (a : Analysis) : Program := { a.toTables with log := a.log }

end Analysis

/-! ## Notes

What analysis finds out about symbols and scopes after it made them. -/

inductive VariableNote where
  | nestedRef
  | addressTaken
  | init (value : ExprId)
  | type (type : TypeId)
  | value (type : TypeId) (init : Option ExprId)
  deriving Repr, DecidableEq, Inhabited

def VariableNote.apply : VariableNote → Variable → Variable
  | nestedRef, v => { v with nestedRef := true }
  | addressTaken, v => { v with addressTaken := true }
  | init e, v => { v with init := some e }
  | type t, v => { v with type := t }
  | value t e, v => { v with type := t, init := e }

structure BodyParts where
  params : List SymbolId
  argumentsVar : Option SymbolId
  argptrVar : Option SymbolId
  resultVar : Option SymbolId
  scope : ScopeId
  requires : Option StmtId
  ensures : Option StmtId
  deriving Repr, DecidableEq, Inhabited

inductive FunctionNote where
  | closureVar (var : SymbolId)
  | nestedRefs
  | addressTaken
  | overload (next : SymbolId)
  | templateInstance
  | isVirtual (value : Bool)
  | thisVar (var : SymbolId)
  | parts (p : BodyParts)
  | contracts (requireFunc ensureFunc : Option SymbolId)
  | returnsValue
  | needsClosure (value : Bool)
  deriving Repr, DecidableEq, Inhabited

def FunctionNote.apply : FunctionNote → Function → Function
  | closureVar s, f =>
    if f.closureVars.contains s then f else { f with closureVars := f.closureVars ++ [s] }
  | nestedRefs, f => { f with hasNestedRefs := true }
  | addressTaken, f => { f with tookAddress := true }
  | overload next, f => { f with nextOverload := some next }
  | templateInstance, f => { f with isTemplateInstance := true }
  | isVirtual value, f => { f with isVirtual := value }
  | thisVar var, f => { f with thisVar := some var }
  | parts p, f => { f with
    params := p.params
    argumentsVar := p.argumentsVar
    argptrVar := p.argptrVar
    resultVar := p.resultVar
    bodyScope := some p.scope
    mergedRequire := p.requires
    mergedEnsure := p.ensures }
  | contracts requireFunc ensureFunc, f =>
    { f with requireFunc := requireFunc, ensureFunc := ensureFunc }
  | returnsValue, f => { f with returnsValue := true }
  | needsClosure value, f => { f with needsClosure := value }

structure AggregateParts where
  type : TypeId
  fields : List SymbolId
  members : List SymbolId
  constructor : Option SymbolId
  scope : ScopeId
  deriving Repr, DecidableEq, Inhabited

inductive SymbolNote where
  | var (n : VariableNote)
  | func (n : FunctionNote)
  | aggregate (p : AggregateParts)
  | base (aggregate : SymbolId)
  | enumeration (e : Enumeration)
  | members (symbols : List SymbolId)
  | member (s : SymbolId)
  | template (i : TemplateInstance)
  deriving Repr, DecidableEq, Inhabited

/-- A note is for one kind of symbol; others stay as they are. -/
def SymbolNote.apply : SymbolNote → SymbolKind → SymbolKind
  | var n, .var v => .var (n.apply v)
  | func n, .func f => .func (n.apply f)
  | aggregate p, .aggregate a => .aggregate { a with
    type := p.type
    fields := p.fields
    members := p.members
    constructor := p.constructor
    scope := some p.scope }
  | base s, .aggregate a => .aggregate { a with base := some s }
  | enumeration e, .enumeration _ => .enumeration e
  | members symbols, .module _ => .module symbols
  | member s, .module symbols => .module (symbols ++ [s])
  | template i, .template t => .template { t with instances := t.instances ++ [i] }
  | _, k => k

inductive ScopeNote where
  | speculative
  | aggregate (s : SymbolId)
  | body (func : SymbolId)
  | noConstructor
  deriving Repr, DecidableEq, Inhabited

def ScopeNote.apply : ScopeNote → Scope → Scope
  | speculative, s => { s with speculative := true }
  | aggregate symbol, s => { s with aggregate := some symbol }
  | body func, s => { s with func := some func, noConstructor := false }
  | noConstructor, s => { s with noConstructor := true }

/-! ## Actions -/

def markConstructed (func : SymbolId) : List Frame → List Frame
  | [] => []
  | frame :: rest =>
    if frame.func = func then { frame with constructed := true } :: rest
    else frame :: markConstructed func rest

def modifyHead (f : Frame → Frame) : List Frame → List Frame
  | [] => []
  | frame :: rest => f frame :: rest

inductive Action : Type → Type where
  | look : Action Context
  | addExpr (n : ExprNode) : Action ExprId
  | setKind (e : ExprId) (k : Expr) : Action Unit
  | setType (e : ExprId) (type : TypeId) : Action Unit
  | settle (e : ExprId) (k : Expr) (type : TypeId) : Action Unit
  | setSpan (e : ExprId) (span : Span) : Action Unit
  | copyExpr (e : ExprId) : Action ExprId
  | intern (k : TypeKind) : Action TypeId
  | addStmt (s : Stmt) (span : Span) : Action StmtId
  | setStmt (s : StmtId) (k : Stmt) : Action Unit
  | copyFunction (d : FunctionDecl) : Action FunctionDecl
  | addSymbol (name : String) (span : Span) (kind : SymbolKind) (parent : Option SymbolId) :
      Action SymbolId
  | note (s : SymbolId) (n : SymbolNote) : Action Unit
  /-- A new scope inside another, or one without a scope around it. -/
  | addScope (parent : Option ScopeId) : Action ScopeId
  | noteScope (sc : ScopeId) (n : ScopeNote) : Action Unit
  | bindName (sc : ScopeId) (name : String) (s : SymbolId) : Action Unit
  | enterModule (s : SymbolId) : Action Unit
  | openModule (sc : ScopeId) : Action Unit
  | useLength (var : SymbolId) : Action Unit
  | construct (func : SymbolId) : Action Unit
  | setConstructed (value : Bool) : Action Unit

def Action.exec {β : Type} (x : Action β) (c : Context) : β × Context :=
  match x with
  | look => (c, c)
  | addExpr n =>
    let (id, exprs) := c.exprs.addNode n
    (id, { c with exprs := exprs })
  | setKind e k => ((), { c with exprs := c.exprs.setKind e k })
  | setType e type => ((), { c with exprs := c.exprs.setType e type })
  | settle e k type => ((), { c with exprs := (c.exprs.setKind e k).setType e type })
  | setSpan e span =>
    ((), { c with exprs := c.exprs.setNode e { c.exprs.node e with span := span } })
  | copyExpr e =>
    let (id, exprs) := (ExprTable.copy e).run c.exprs
    (id, { c with exprs := exprs })
  | intern k =>
    let (id, types) := c.types.intern k
    (id, { c with types := types })
  | addStmt s span =>
    let (id, stmts) := c.stmts.add s span
    (id, { c with stmts := stmts })
  | setStmt s k => ((), { c with stmts := c.stmts.settle s k })
  | copyFunction d =>
    let (copied, nodes) := (NodeTables.copyFunction d).run ⟨c.exprs, c.stmts⟩
    (copied, { c with exprs := nodes.exprs, stmts := nodes.stmts })
  | addSymbol name span kind parent =>
    let (id, symbols) := c.symbols.add name span kind
    (id, { c with symbols := symbols.setParent id parent })
  | note s n => ((), { c with symbols := c.symbols.modifyKind s n.apply })
  | addScope parent =>
    let (id, scopes) := match parent with
      | some parent => c.scopes.addChild parent
      | none => c.scopes.addRoot
    (id, { c with scopes := scopes })
  | noteScope sc n => ((), { c with scopes := c.scopes.modify sc n.apply })
  | bindName sc name s => ((), { c with scopes := c.scopes.overwrite sc name s })
  | enterModule s => ((), { c with module := some s })
  | openModule sc => ((), { c with moduleScope := some sc })
  | useLength var => ((), { c with usedLengths := var :: c.usedLengths })
  | construct func => ((), { c with frames := markConstructed func c.frames })
  | setConstructed value =>
    ((), { c with frames := modifyHead (fun f => { f with constructed := value }) c.frames })

inductive Nesting where
  | call
  | loop
  | body (func : SymbolId)
  deriving Repr, DecidableEq, Inhabited

def Nesting.enter (n : Nesting) (c : Context) : Context :=
  match n with
  | call => { c with callDepth := c.callDepth + 1 }
  | loop =>
    { c with frames := modifyHead (fun f => { f with loopDepth := f.loopDepth + 1 }) c.frames }
  | body func => { c with frames := ⟨func, false, 0⟩ :: c.frames }

def Nesting.leave (n : Nesting) (c : Context) : Context :=
  match n with
  | call => { c with callDepth := c.callDepth - 1 }
  | loop =>
    { c with frames := modifyHead (fun f => { f with loopDepth := f.loopDepth - 1 }) c.frames }
  | body _ => { c with frames := c.frames.tail }

/-! ## Rules -/

inductive Request : Type → Type where
  | expr (e : ExprId) (sc : ScopeId) : Request ExprId
  | stmt (s : StmtId) (sc : ScopeId) : Request Unit
  | signature (s : SymbolId) : Request Unit
  | body (s : SymbolId) : Request Unit
  | arrayOp (e : ExprId) : Request ArrayOpEntry

inductive Analyse : Type → Type 1 where
  | done {α : Type} (result : α) : Analyse α
  | act {α β : Type} (x : Action β) (next : β → Analyse α) : Analyse α
  | log {α : Type} (d : Diagnostic) (next : Analyse α) : Analyse α
  | request {α β : Type} (r : Request β) (next : β → Analyse α) : Analyse α
  /-- Run a rule under a gag; the flag says whether errors were dropped. -/
  | muted {α β : Type} (x : Analyse β) (next : β × Bool → Analyse α) : Analyse α
  | within {α β : Type} (n : Nesting) (x : Analyse β) (next : β → Analyse α) : Analyse α
  | endless {α : Type} : Analyse α

abbrev Pass := StateT Analysis Option

structure Analyser where
  answer : {β : Type} → Request β → Pass β

namespace Analysis

def report (a : Analysis) (d : Diagnostic) : Analysis := { a with log := a.log.report d }

def gag (a : Analysis) : Analysis := { a with log := a.log.gag }

def ungag (a : Analysis) : Analysis := { a with log := a.log.ungag }

def enter (a : Analysis) (n : Nesting) : Analysis := { a with toContext := n.enter a.toContext }

def leave (a : Analysis) (n : Nesting) : Analysis := { a with toContext := n.leave a.toContext }

end Analysis

namespace Analyse

def bind {α β : Type} : Analyse α → (α → Analyse β) → Analyse β
  | done a, f => f a
  | act x next, f => act x fun r => (next r).bind f
  | log d next, f => log d (next.bind f)
  | request r next, f => request r fun a => (next a).bind f
  | muted x next, f => muted x fun r => (next r).bind f
  | within n x next, f => within n x fun r => (next r).bind f
  | endless, _ => endless

instance : Monad Analyse where
  pure := done
  bind := bind

def run {α : Type} (h : Analyser) : Analyse α → Pass α
  | done a => fun s => some (a, s)
  | act x next => fun s =>
    let (r, c) := x.exec s.toContext
    (next r).run h { s with toContext := c }
  | log d next => fun s => next.run h (s.report d)
  | request r next => fun s =>
    match h.answer r s with
    | some (a, s) => (next a).run h s
    | none => none
  | muted x next => fun s =>
    match x.run h s.gag with
    | some (a, s') => (next (a, s'.log.firedSince s.log)).run h s'.ungag
    | none => none
  | within n x next => fun s =>
    match x.run h (s.enter n) with
    | some (a, s') => (next a).run h (s'.leave n)
    | none => none
  | endless => fun _ => none

/-! ## Requests -/

def analyseExpr (e : ExprId) (sc : ScopeId) : Analyse ExprId := request (.expr e sc) done

def analyseStmt (s : StmtId) (sc : ScopeId) : Analyse Unit := request (.stmt s sc) done

def analyseSignature (s : SymbolId) : Analyse Unit := request (.signature s) done

def analyseBody (s : SymbolId) : Analyse Unit := request (.body s) done

/-! ## Tables and context -/

def context : Analyse Context := act .look done

def tables : Analyse Tables := return (← context).toTables

def ask {α : Type} (f : Tables → α) : Analyse α := return f (← tables)

/-! ## Diagnostics -/

def report (d : Diagnostic) : Analyse Unit := log d (done ())

def error (span : Span) (problem : Problem) : Analyse Unit :=
  report { severity := .error, message := problem.message, span := span }

def gagged {α : Type} (x : Analyse α) : Analyse (α × Bool) := muted x done

def nested {α : Type} (n : Nesting) (x : Analyse α) : Analyse α := within n x done

/-! ## Expressions -/

def kind (e : ExprId) : Analyse Expr := ask (·.exprs.kind e)

def span (e : ExprId) : Analyse Span := ask (·.exprs.span e)

def typeOf (e : ExprId) : Analyse TypeId := ask (·.typeOf e)

def isError (e : ExprId) : Analyse Bool := ask (·.isError e)

def text (e : ExprId) : Analyse String := ask (·.text e)

def typeText (t : TypeId) : Analyse String := ask (·.types.text t)

def addExpr (e : Expr) (span : Span) : Analyse ExprId := act (.addExpr ⟨e, span, none⟩) done

def typed (e : Expr) (span : Span) (type : TypeId) : Analyse ExprId :=
  act (.addExpr ⟨e, span, some type⟩) done

def setType (e : ExprId) (type : TypeId) : Analyse ExprId := act (.setType e type) fun _ => done e

def setKind (e : ExprId) (k : Expr) : Analyse Unit := act (.setKind e k) done

def settle (e : ExprId) (k : Expr) (type : TypeId) : Analyse ExprId :=
  act (.settle e k type) fun _ => done e

def copyExpr (e : ExprId) : Analyse ExprId := act (.copyExpr e) done

def errorExpr (span : Span) : Analyse ExprId := typed .error span .error

def fail (span : Span) (problem : Problem) : Analyse ExprId := do
  error span problem
  errorExpr span

def integer (value : UInt64) (type : TypeId) (span : Span) : Analyse ExprId := do
  typed (.integer value (← ask (·.types.scalar? type))) span type

/-! ## Types -/

def intern (k : TypeKind) : Analyse TypeId := act (.intern k) done

def sizeType : Analyse TypeId := ask (·.options.target.sizeType)

def stringType : Analyse TypeId := intern (.dynArray (.ofScalar .char))

/-- The size of a type; analysis ends at a type that has none. -/
def sizeOf (t : TypeId) : Analyse UInt64 := do
  let p ← tables
  match p.types.byteSize p.symbols p.options.target.pointerSize t with
  | .ok size => return size
  | .error _ => endless

/-! ## Statements -/

def addStmt (s : Stmt) (span : Span) : Analyse StmtId := act (.addStmt s span) done

/-! ## Symbols and scopes -/

def noteVar (s : SymbolId) (n : VariableNote) : Analyse Unit := act (.note s (.var n)) done

def noteFunc (s : SymbolId) (n : FunctionNote) : Analyse Unit := act (.note s (.func n)) done

def addSymbol (name : String) (span : Span) (kind : SymbolKind) (parent : Option SymbolId) :
    Analyse SymbolId :=
  act (.addSymbol name span kind parent) done

def pushScope (parent : ScopeId) : Analyse ScopeId := act (.addScope (some parent)) done

def noteScope (sc : ScopeId) (n : ScopeNote) : Analyse Unit := act (.noteScope sc n) done

def overwrite (sc : ScopeId) (name : String) (symbol : SymbolId) : Analyse Unit :=
  act (.bindName sc name symbol) done

/-- Bind a name; the problem is for a name that the scope has. -/
def bindName (sc : ScopeId) (name : String) (symbol : SymbolId) (span : Span) (clash : Problem) :
    Analyse Unit := do
  match ← ask (·.scopes.lookup sc name) with
  | none => overwrite sc name symbol
  | some _ => error span clash

def globalScope : Analyse ScopeId := do
  match (← context).moduleScope with
  | some sc => return sc
  | none =>
    let sc ← act (.addScope none) done
    act (.openModule sc) done
    return sc

def enclosing (sc : ScopeId) : Analyse (Option SymbolId) := do
  let c ← context
  return (c.currentFunc sc) <|> c.module

def declareTemp (name : String) (type : TypeId) (storage : StorageClass) (sc : ScopeId)
    (span : Span) : Analyse SymbolId := do
  let owner ← ask (·.currentFunc sc)
  let symbol ← addSymbol name span (.var { type := type, storage := storage, owner := owner })
    (← enclosing sc)
  overwrite sc name symbol
  return symbol

def undefinedIdentifier (name : String) (sc : ScopeId) (span : Span) : Analyse Unit := do
  let p ← tables
  let suggestion := do
    let close ← Text.closestMatch name (p.scopes.visibleNames sc)
    let (symbol, _) ← p.scopes.search sc close
    some ⟨(p.symbols.symbol symbol).kindName, close⟩
  error span (.undefinedIdentifier name suggestion)

end Analyse

end DCompiler
