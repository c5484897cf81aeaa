import DCompiler.Stmt.Table

/-!
# Symbols

What a name stands for: variables, functions, function templates, structs and classes,
enumerations and their members, aliases, modules and imports. Symbols are numbered in the order in
which they are made.
-/

namespace DCompiler

structure Variable where
  type : TypeId
  storage : StorageClass
  init : Option ExprId := none
  /-- The function that the variable belongs to; none for globals and fields. -/
  owner : Option SymbolId := none
  nestedRef : Bool := false
  addressTaken : Bool := false
  deriving Repr, DecidableEq, Inhabited

namespace Variable

def isParameter (v : Variable) : Bool := v.storage.contains .parameter

def isField (v : Variable) : Bool := v.storage.contains .field

def isGlobal (v : Variable) : Bool := v.owner.isNone && !v.isField

end Variable

inductive Progress where
  | none | declared | defaults | bodyRunning | bodyDone
  deriving Repr, DecidableEq, Inhabited

def Progress.rank : Progress → Nat
  | none => 0 | declared => 1 | defaults => 2 | bodyRunning => 3 | bodyDone => 4

structure Function where
  /-- The function type, whose names are looked up when the function is declared. -/
  type : TypeId
  storage : StorageClass
  isConstructor : Bool := false
  isVirtual : Bool := false
  isArrayOp : Bool := false
  body : Option StmtId := none
  requires : List StmtId := []
  ensures : List EnsureDecl := []
  declScope : Option ScopeId := none
  bodyScope : Option ScopeId := none
  progress : Progress := .none
  params : List SymbolId := []
  thisVar : Option SymbolId := none
  resultVar : Option SymbolId := none
  argumentsVar : Option SymbolId := none
  argptrVar : Option SymbolId := none
  requireFunc : Option SymbolId := none
  ensureFunc : Option SymbolId := none
  mergedRequire : Option StmtId := none
  mergedEnsure : Option StmtId := none
  nextOverload : Option SymbolId := none
  returnsValue : Bool := false
  closureVars : List SymbolId := []
  hasNestedRefs : Bool := false
  tookAddress : Bool := false
  needsClosure : Bool := false
  outer : Option SymbolId := none
  isTemplateInstance : Bool := false
  deriving Repr, DecidableEq, Inhabited

def Function.isNested (f : Function) : Bool := f.outer.isSome

structure TemplateInstance where
  argument : TypeId
  function : SymbolId
  deriving Repr, DecidableEq, Inhabited

structure FunctionTemplate where
  pattern : FunctionDecl
  typeParam : String
  declScope : ScopeId
  instances : List TemplateInstance
  deriving Repr, DecidableEq, Inhabited

structure Aggregate where
  isClass : Bool
  type : TypeId
  fields : List SymbolId := []
  members : List SymbolId := []
  base : Option SymbolId := none
  constructor : Option SymbolId := none
  scope : Option ScopeId := none
  deriving Repr, DecidableEq, Inhabited

structure Enumeration where
  type : TypeId
  members : List SymbolId
  deriving Repr, DecidableEq, Inhabited

inductive SymbolKind where
  | module (members : List SymbolId)
  | var (v : Variable)
  | func (f : Function)
  | template (t : FunctionTemplate)
  | aggregate (a : Aggregate)
  | enumeration (e : Enumeration)
  | enumMember (value : ExprId) (type : TypeId)
  | typeAlias (type : TypeId)
  | importModule (name : String)
  deriving Repr, DecidableEq, Inhabited

structure Symbol where
  name : String
  span : Span
  parent : Option SymbolId
  kind : SymbolKind
  deriving Repr, DecidableEq, Inhabited

namespace Symbol

def var? (s : Symbol) : Option Variable :=
  match s.kind with
  | .var v => some v
  | _ => none

def func? (s : Symbol) : Option Function :=
  match s.kind with
  | .func f => some f
  | _ => none

def aggregate? (s : Symbol) : Option Aggregate :=
  match s.kind with
  | .aggregate a => some a
  | _ => none

def kindName (s : Symbol) : String :=
  match s.kind with
  | .module _ => "module"
  | .var _ => "variable"
  | .func _ => "function"
  | .template _ => "template"
  | .aggregate a => if a.isClass then "class" else "struct"
  | .enumeration _ => "enum"
  | .enumMember _ _ => "enum member"
  | .typeAlias _ => "alias"
  | .importModule _ => "import"

end Symbol

structure SymbolTable where
  symbols : Array Symbol
  deriving Repr, Inhabited

namespace SymbolTable

def empty : SymbolTable := ⟨#[]⟩

def size (t : SymbolTable) : Nat := t.symbols.size

def symbol (t : SymbolTable) (id : SymbolId) : Symbol := (t.symbols[id.index]?).getD default

def name (t : SymbolTable) (id : SymbolId) : String := (t.symbol id).name

def kind (t : SymbolTable) (id : SymbolId) : SymbolKind := (t.symbol id).kind

def var? (t : SymbolTable) (id : SymbolId) : Option Variable := (t.symbol id).var?

def func? (t : SymbolTable) (id : SymbolId) : Option Function := (t.symbol id).func?

def aggregate? (t : SymbolTable) (id : SymbolId) : Option Aggregate := (t.symbol id).aggregate?

def add (t : SymbolTable) (name : String) (span : Span) (kind : SymbolKind) :
    SymbolId × SymbolTable :=
  (⟨t.symbols.size⟩, ⟨t.symbols.push ⟨name, span, none, kind⟩⟩)

def modify (t : SymbolTable) (id : SymbolId) (f : Symbol → Symbol) : SymbolTable :=
  ⟨t.symbols.modify id.index f⟩

def setParent (t : SymbolTable) (id : SymbolId) (parent : Option SymbolId) : SymbolTable :=
  t.modify id fun s => { s with parent := parent }

def modifyKind (t : SymbolTable) (id : SymbolId) (f : SymbolKind → SymbolKind) : SymbolTable :=
  t.modify id fun s => { s with kind := f s.kind }

def modifyFunc (t : SymbolTable) (id : SymbolId) (f : Function → Function) : SymbolTable :=
  t.modifyKind id fun
    | .func d => .func (f d)
    | k => k

def modifyAggregate (t : SymbolTable) (id : SymbolId) (f : Aggregate → Aggregate) : SymbolTable :=
  t.modifyKind id fun
    | .aggregate a => .aggregate (f a)
    | k => k

def ids (t : SymbolTable) : List SymbolId := (List.range t.size).map SymbolId.mk

def named? (t : SymbolTable) (name : String) : Option SymbolId := t.ids.find? (t.name · == name)

/-! ## Chains of symbols -/

def namesUpward (t : SymbolTable) : Nat → Option SymbolId → List String
  | 0, _ | _, none => []
  | steps + 1, some id => t.name id :: t.namesUpward steps (t.symbol id).parent

def qualifiedName (t : SymbolTable) (id : SymbolId) : String :=
  String.intercalate "." (t.namesUpward (t.size + 1) (some id)).reverse

/-- The functions of an overload set from one on, up to the first repetition; `seen` holds those
passed, in order. -/
def overloadsAfter (t : SymbolTable) : Nat → List SymbolId → Option SymbolId → List SymbolId
  | 0, seen, _ | _, seen, none => seen
  | steps + 1, seen, some id =>
    if seen.contains id then seen
    else t.overloadsAfter steps (seen ++ [id]) ((t.func? id).bind (·.nextOverload))

def overloads (t : SymbolTable) (first : SymbolId) : List SymbolId :=
  t.overloadsAfter (t.size + 1) [] (some first)

def findMemberWithin (t : SymbolTable) (name : String) : Nat → Option SymbolId → Option SymbolId
  | 0, _ | _, none => none
  | steps + 1, some id => do
    let a ← t.aggregate? id
    match a.members.find? (t.name · == name) with
    | some found => some found
    | none => t.findMemberWithin name steps a.base

def findMember (t : SymbolTable) (id : SymbolId) (name : String) : Option SymbolId :=
  t.findMemberWithin name (t.size + 1) (some id)

def derivesWithin (t : SymbolTable) (base : SymbolId) : Nat → Option SymbolId → Bool
  | 0, _ | _, none => false
  | steps + 1, some id =>
    id == base || t.derivesWithin base steps ((t.aggregate? id).bind (·.base))

def derivesFrom (t : SymbolTable) (derived base : SymbolId) : Bool :=
  t.derivesWithin base (t.size + 1) (some derived)

end SymbolTable

end DCompiler
