

/-!
# Scopes

Expressions, statements, types, symbols, scopes and the symbols of an object file live in tables
and are named by their place there. A place never changes its meaning once it is handed out, though
the entry may be filled in later.

A scope maps names to symbols and has a scope around it. A search goes outward until a scope holds
the name.
-/

namespace DCompiler

structure ExprId where
  index : Nat
  deriving Repr, DecidableEq, Inhabited, Hashable

structure StmtId where
  index : Nat
  deriving Repr, DecidableEq, Inhabited, Hashable

structure TypeId where
  index : Nat
  deriving Repr, DecidableEq, Inhabited, Hashable

structure SymbolId where
  index : Nat
  deriving Repr, DecidableEq, Inhabited, Hashable

structure ScopeId where
  index : Nat
  deriving Repr, DecidableEq, Inhabited, Hashable

structure ObjectSymbolId where
  index : Nat
  deriving Repr, DecidableEq, Inhabited, Hashable

structure Binding where
  name : String
  symbol : SymbolId
  deriving Repr, DecidableEq, Inhabited

structure Scope where
  parent : Option ScopeId := none
  bindings : List Binding := []
  func : Option SymbolId := none
  aggregate : Option SymbolId := none
  /-- Inside a loop or behind a label, where a constructor must not be called. -/
  noConstructor : Bool := false
  /-- Inside a contract or an attempt that may fail. -/
  speculative : Bool := false
  deriving Repr, DecidableEq, Inhabited

namespace Scope

def lookup (s : Scope) (name : String) : Option SymbolId :=
  (s.bindings.find? (·.name == name)).map (·.symbol)

def bind (s : Scope) (name : String) (symbol : SymbolId) : Scope :=
  if (s.lookup name).isSome then
    { s with bindings := s.bindings.map fun b => if b.name == name then ⟨name, symbol⟩ else b }
  else { s with bindings := s.bindings ++ [⟨name, symbol⟩] }

end Scope

structure ScopeTable where
  scopes : Array Scope
  deriving Repr, Inhabited

namespace ScopeTable

def empty : ScopeTable := ⟨#[]⟩

def size (t : ScopeTable) : Nat := t.scopes.size

def scope (t : ScopeTable) (id : ScopeId) : Scope := (t.scopes[id.index]?).getD {}

def add (t : ScopeTable) (s : Scope) : ScopeId × ScopeTable :=
  (⟨t.scopes.size⟩, ⟨t.scopes.push s⟩)

def addRoot (t : ScopeTable) : ScopeId × ScopeTable := t.add {}

def addChild (t : ScopeTable) (parent : ScopeId) : ScopeId × ScopeTable :=
  t.add { t.scope parent with parent := some parent, bindings := [] }

def modify (t : ScopeTable) (id : ScopeId) (f : Scope → Scope) : ScopeTable :=
  ⟨t.scopes.modify id.index f⟩

/-- Bind a name that the scope does not have; otherwise give the symbol that it has. -/
def insert (t : ScopeTable) (id : ScopeId) (name : String) (symbol : SymbolId) :
    Except SymbolId ScopeTable :=
  match (t.scope id).lookup name with
  | some existing => .error existing
  | none => .ok (t.modify id (·.bind name symbol))

def overwrite (t : ScopeTable) (id : ScopeId) (name : String) (symbol : SymbolId) : ScopeTable :=
  t.modify id (·.bind name symbol)

def lookup (t : ScopeTable) (id : ScopeId) (name : String) : Option SymbolId :=
  (t.scope id).lookup name

def chainWithin (t : ScopeTable) : Nat → Option ScopeId → List ScopeId
  | 0, _ | _, none => []
  | steps + 1, some id => id :: t.chainWithin steps (t.scope id).parent

def chain (t : ScopeTable) (id : ScopeId) : List ScopeId := t.chainWithin (t.size + 1) (some id)

def search (t : ScopeTable) (id : ScopeId) (name : String) : Option (SymbolId × ScopeId) :=
  (t.chain id).findSome? fun s => (t.lookup s name).map fun symbol => (symbol, s)

def visibleNames (t : ScopeTable) (id : ScopeId) : List String :=
  (t.chain id).flatMap fun s => (t.scope s).bindings.map (·.name)

end ScopeTable

end DCompiler
