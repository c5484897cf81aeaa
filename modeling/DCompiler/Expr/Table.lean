import DCompiler.Scope
import DCompiler.Number
import DCompiler.Operator
import DCompiler.Scalar
import DCompiler.Source

/-!
# Expressions

Expressions live in one table and refer to their parts by place. An entry has a type once it was
analysed. Analysis replaces entries and adds new ones; it never removes one.
-/

namespace DCompiler

inductive Expr where
  | error
  | integer (value : UInt64) (suffix : Option Scalar)
  | real (value : Double) (suffix : Option Scalar)
  | complex (re im : Double)
  | string (text : String)
  | null
  | array (elems : List ExprId)
  | structValue (symbol : SymbolId) (elems : List ExprId)
  | identifier (name : String)
  | dollar
  | thisRef
  | superRef
  | symbolRef (symbol : SymbolId)
  /-- A function template whose argument is not known yet. -/
  | templateRef (symbol : SymbolId)
  | typeRef (type : TypeId)
  | moduleRef (symbol : SymbolId)
  | tuple (elems : List ExprId)
  | dot (base : ExprId) (name : String)
  | member (base : ExprId) (symbol : SymbolId)
  | unary (op : UnaryOp) (operand : ExprId)
  | binary (op : BinaryOp) (lhs rhs : ExprId)
  /-- An assignment; a fill gives every element of a slice one value. -/
  | assign (op : AssignOp) (lhs rhs : ExprId) (fill : Bool)
  | comma (lhs rhs : ExprId)
  | cond (test yes no : ExprId)
  | call (callee : ExprId) (args : List ExprId)
  | cast (operand : ExprId) (target : TypeId)
  /-- A slice; `lengthVar` is the variable behind `$` when a bound uses it. -/
  | slice (base : ExprId) (lower upper : Option ExprId) (lengthVar : Option SymbolId)
  | index (base place : ExprId) (lengthVar : Option SymbolId)
  | length (operand : ExprId)
  | funcLiteral (symbol : SymbolId)
  /-- Asks whether the expressions can be analysed without an error. -/
  | compiles (elems : List ExprId)
  | typeid (type : TypeId)
  | declaration (symbol : SymbolId)
  deriving Repr, DecidableEq, Inhabited

namespace Expr

def children : Expr → List ExprId
  | array elems | structValue _ elems | tuple elems | compiles elems => elems
  | dot base _ | member base _ => [base]
  | unary _ operand | cast operand _ | length operand => [operand]
  | binary _ lhs rhs | assign _ lhs rhs _ | comma lhs rhs => [lhs, rhs]
  | cond test yes no => [test, yes, no]
  | call callee args => callee :: args
  | slice base lower upper _ => base :: (lower.toList ++ upper.toList)
  | index base place _ => [base, place]
  | _ => []

def mapChildren {m : Type → Type} [Monad m] (f : ExprId → m ExprId) : Expr → m Expr
  | array elems => return array (← elems.mapM f)
  | structValue symbol elems => return structValue symbol (← elems.mapM f)
  | tuple elems => return tuple (← elems.mapM f)
  | compiles elems => return compiles (← elems.mapM f)
  | dot base name => return dot (← f base) name
  | member base symbol => return member (← f base) symbol
  | unary op operand => return unary op (← f operand)
  | cast operand target => return cast (← f operand) target
  | length operand => return length (← f operand)
  | binary op lhs rhs => return binary op (← f lhs) (← f rhs)
  | assign op lhs rhs fill => return assign op (← f lhs) (← f rhs) fill
  | comma lhs rhs => return comma (← f lhs) (← f rhs)
  | cond test yes no => return cond (← f test) (← f yes) (← f no)
  | call callee args => return call (← f callee) (← args.mapM f)
  | slice base lower upper lengthVar =>
    return slice (← f base) (← lower.mapM f) (← upper.mapM f) lengthVar
  | index base place lengthVar => return index (← f base) (← f place) lengthVar
  | leaf => return leaf

end Expr

structure ExprNode where
  kind : Expr
  span : Span
  type : Option TypeId
  deriving Repr, DecidableEq, Inhabited

structure ExprTable where
  nodes : Array ExprNode
  deriving Repr, Inhabited

namespace ExprTable

def empty : ExprTable := ⟨#[]⟩

def size (t : ExprTable) : Nat := t.nodes.size

def node (t : ExprTable) (id : ExprId) : ExprNode :=
  (t.nodes[id.index]?).getD ⟨.error, .synthetic, none⟩

def kind (t : ExprTable) (id : ExprId) : Expr := (t.node id).kind

def span (t : ExprTable) (id : ExprId) : Span := (t.node id).span

def type? (t : ExprTable) (id : ExprId) : Option TypeId := (t.node id).type

def addNode (t : ExprTable) (n : ExprNode) : ExprId × ExprTable :=
  (⟨t.nodes.size⟩, ⟨t.nodes.push n⟩)

def add (t : ExprTable) (e : Expr) (span : Span) : ExprId × ExprTable :=
  t.addNode ⟨e, span, none⟩

def setNode (t : ExprTable) (id : ExprId) (n : ExprNode) : ExprTable :=
  ⟨t.nodes.setIfInBounds id.index n⟩

def setKind (t : ExprTable) (id : ExprId) (e : Expr) : ExprTable :=
  ⟨t.nodes.modify id.index fun n => { n with kind := e }⟩

def setType (t : ExprTable) (id : ExprId) (type : TypeId) : ExprTable :=
  ⟨t.nodes.modify id.index fun n => { n with type := some type }⟩

def isError (t : ExprTable) (id : ExprId) : Bool := t.kind id == .error

def children (t : ExprTable) (id : ExprId) : List ExprId := (t.kind id).children

def copyTo (depth : Nat) (id : ExprId) : StateM ExprTable ExprId :=
  match depth with
  | 0 => pure id
  | depth + 1 => do
    let n := (← get).node id
    let kind ← n.kind.mapChildren (copyTo depth)
    modifyGet (·.addNode { n with kind := kind })

/-- Copy an entry and all below it into new entries. Parts are copied before the whole. -/
def copy (id : ExprId) : StateM ExprTable ExprId := do
  copyTo ((← get).size + 1) id

end ExprTable

end DCompiler
