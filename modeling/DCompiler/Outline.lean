import DCompiler.Program

/-!
# Outlines of programs

Statements in the form of `Outline.expr`. A function inside a function is shown by its symbol; as
long as it has none, the caller says how its declaration is written. Before analysis an outline
shows where entries stand in the source; afterwards it shows their types.
-/

namespace DCompiler

namespace Outline

def stmtParts (o : Outline) (declared : FunctionDecl → String) (below : StmtId → String)
    (s : Stmt) : String × List String :=
  let number := optional (fun s : SymbolId => "#" ++ toString s.index) "-"
  let value := optional o.expr "_"
  match s with
  | .expr e => ("expr", [o.expr e])
  | .ret e => ("return", [value e])
  | .varDecl name type init storage s =>
    ("var", [name, number s, toString storage.bits.toNat, optional o.types.text "auto" type,
      value init])
  | .funcDecl d (some s) => ("func", [d.name, number (some s)])
  | .funcDecl d none => ("func", [d.name, number none, declared d])
  | .block stmts => ("block", stmts.map below)
  | .scope body => ("scope", [below body])
  | .ifElse test yes no => ("if", [o.expr test, below yes, optional below "_" no])
  | .whileLoop test body => ("while", [o.expr test, below body])
  | .forLoop init test incr body =>
    ("for", [optional below "_" init, value test, value incr, below body])
  | .foreachRange name lower upper body s =>
    ("foreach", [name, number s, o.expr lower, o.expr upper, below body])
  | .breakLoop => ("break", [])
  | .continueLoop => ("continue", [])
  | .label name body => ("label", [name, below body])

def stmtWithin (o : Outline) (declared : FunctionDecl → String) : Nat → StmtId → String
  | 0, _ => ""
  | depth + 1, id =>
    let n := o.stmts.node id
    let (kind, parts) := o.stmtParts declared (o.stmtWithin declared depth) n.kind
    entry (kind ++ o.span n.span) parts

def stmt (o : Outline) (declared : FunctionDecl → String) (id : StmtId) : String :=
  o.stmtWithin declared (o.stmts.size + 1) id

end Outline

def SyntaxTables.outline (t : SyntaxTables) : Outline :=
  ⟨t.exprs, t.stmts, t.types, .empty, true⟩

def Program.outline (p : Program) : Outline := ⟨p.exprs, p.stmts, p.types, p.symbols, false⟩

end DCompiler
