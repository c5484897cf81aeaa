import DCompiler.Declaration
import DCompiler.Expr.Table

/-!
# Statements

Statements live in one table, like expressions. A declaration statement has a slot for the symbol
that analysis makes for it.
-/

namespace DCompiler

inductive Stmt where
  | expr (value : ExprId)
  | varDecl (name : String) (type : Option TypeId) (init : Option ExprId) (storage : StorageClass)
      (symbol : Option SymbolId)
  | funcDecl (decl : FunctionDecl) (symbol : Option SymbolId)
  | block (stmts : List StmtId)
  | scope (body : StmtId)
  | ifElse (test : ExprId) (yes : StmtId) (no : Option StmtId)
  | whileLoop (test : ExprId) (body : StmtId)
  | forLoop (init : Option StmtId) (test incr : Option ExprId) (body : StmtId)
  | foreachRange (name : String) (lower upper : ExprId) (body : StmtId) (symbol : Option SymbolId)
  | ret (value : Option ExprId)
  | breakLoop
  | continueLoop
  | label (name : String) (body : StmtId)
  deriving Repr, DecidableEq, Inhabited

namespace Stmt

def children : Stmt → List StmtId
  | block stmts => stmts
  | scope body | whileLoop _ body | foreachRange _ _ _ body _ | label _ body => [body]
  | ifElse _ yes no => yes :: no.toList
  | forLoop init _ _ body => init.toList ++ [body]
  | _ => []

def exprs : Stmt → List ExprId
  | expr value => [value]
  | varDecl _ _ init _ _ => init.toList
  | ifElse test _ _ | whileLoop test _ => [test]
  | forLoop _ test incr _ => test.toList ++ incr.toList
  | foreachRange _ lower upper _ _ => [lower, upper]
  | ret value => value.toList
  | _ => []

/-- A statement with the expressions and the symbol of another one of its kind. -/
def settle (s new : Stmt) : Stmt :=
  match s, new with
  | expr _, expr _ | varDecl .., varDecl .. | funcDecl .., funcDecl .. | ret _, ret _ => new
  | ifElse _ yes no, ifElse test _ _ => ifElse test yes no
  | whileLoop _ body, whileLoop test _ => whileLoop test body
  | forLoop init _ _ body, forLoop _ test incr _ => forLoop init test incr body
  | foreachRange name _ _ body _, foreachRange _ lower upper _ symbol =>
    foreachRange name lower upper body symbol
  | _, _ => s

end Stmt

structure StmtNode where
  kind : Stmt
  span : Span
  deriving Repr, DecidableEq, Inhabited

structure StmtTable where
  nodes : Array StmtNode
  deriving Repr, Inhabited

namespace StmtTable

def empty : StmtTable := ⟨#[]⟩

def size (t : StmtTable) : Nat := t.nodes.size

def node (t : StmtTable) (id : StmtId) : StmtNode :=
  (t.nodes[id.index]?).getD ⟨.block [], .synthetic⟩

def kind (t : StmtTable) (id : StmtId) : Stmt := (t.node id).kind

def span (t : StmtTable) (id : StmtId) : Span := (t.node id).span

def add (t : StmtTable) (s : Stmt) (span : Span) : StmtId × StmtTable :=
  (⟨t.nodes.size⟩, ⟨t.nodes.push ⟨s, span⟩⟩)

def settle (t : StmtTable) (id : StmtId) (s : Stmt) : StmtTable :=
  ⟨t.nodes.modify id.index fun n => { n with kind := n.kind.settle s }⟩

def walkTo (t : StmtTable) : Nat → StmtId → List StmtId
  | 0, _ => []
  | depth + 1, id => id :: (t.kind id).children.flatMap (t.walkTo depth)

def walk (t : StmtTable) (id : StmtId) : List StmtId := t.walkTo (t.size + 1) id

end StmtTable

/-! ## Copies -/

structure NodeTables where
  exprs : ExprTable
  stmts : StmtTable
  deriving Repr, Inhabited

namespace NodeTables

def copyExpr (id : ExprId) : StateM NodeTables ExprId :=
  modifyGet fun t =>
    let (copied, exprs) := (ExprTable.copy id).run t.exprs
    (copied, { t with exprs := exprs })

def addStmt (s : Stmt) (span : Span) : StateM NodeTables StmtId :=
  modifyGet fun t =>
    let (id, stmts) := t.stmts.add s span
    (id, { t with stmts := stmts })

/-- Copy what a function declaration refers to, given how to copy a statement. -/
def copyFunctionWith (copyStmt : StmtId → StateM NodeTables StmtId) (d : FunctionDecl) :
    StateM NodeTables FunctionDecl := do
  let params ← d.params.mapM fun p => return { p with default := ← p.default.mapM copyExpr }
  let requires ← d.requires.mapM copyStmt
  let ensures ← d.ensures.mapM fun e => return { e with body := ← copyStmt e.body }
  let body ← d.body.mapM copyStmt
  return { d with params := params, requires := requires, ensures := ensures, body := body }

/-- Copy what a statement refers to, given how to copy a statement. Symbol slots are emptied, so
that the copy can be analysed on its own. -/
def copyKindWith (copyStmt : StmtId → StateM NodeTables StmtId) :
    Stmt → StateM NodeTables Stmt
  | .expr value => return .expr (← copyExpr value)
  | .varDecl name type init storage _ =>
    return .varDecl name type (← init.mapM copyExpr) storage none
  | .funcDecl decl _ => return .funcDecl (← copyFunctionWith copyStmt decl) none
  | .block stmts => return .block (← stmts.mapM copyStmt)
  | .scope body => return .scope (← copyStmt body)
  | .ifElse test yes no =>
    return .ifElse (← copyExpr test) (← copyStmt yes) (← no.mapM copyStmt)
  | .whileLoop test body => return .whileLoop (← copyExpr test) (← copyStmt body)
  | .forLoop init test incr body =>
    return .forLoop (← init.mapM copyStmt) (← test.mapM copyExpr) (← incr.mapM copyExpr)
      (← copyStmt body)
  | .foreachRange name lower upper body _ =>
    return .foreachRange name (← copyExpr lower) (← copyExpr upper) (← copyStmt body) none
  | .ret value => return .ret (← value.mapM copyExpr)
  | .label name body => return .label name (← copyStmt body)
  | .breakLoop => return .breakLoop
  | .continueLoop => return .continueLoop

def copyStmtTo (depth : Nat) (id : StmtId) : StateM NodeTables StmtId :=
  match depth with
  | 0 => pure id
  | depth + 1 => do
    let n := (← get).stmts.node id
    let kind ← copyKindWith (copyStmtTo depth) n.kind
    addStmt kind n.span

def copyStmt (id : StmtId) : StateM NodeTables StmtId := do
  copyStmtTo ((← get).stmts.size + 1) id

def copyFunction (d : FunctionDecl) : StateM NodeTables FunctionDecl :=
  copyFunctionWith copyStmt d

end NodeTables

end DCompiler
