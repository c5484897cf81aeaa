import DCompiler.Analysis.Functions

/-!
# Declarations

A module is analysed in passes, so that declarations may refer to later ones: all names are
declared; base classes and the types of variables are looked up; initial values and function types
are analysed; and function bodies come last.
-/

namespace DCompiler.Analyse

inductive PendingItem where
  | var (symbol : SymbolId) (type : Option TypeId) (init : Option ExprId) (scope : ScopeId)
  | func (symbol : SymbolId)
  deriving Repr, DecidableEq, Inhabited

structure PendingBase where
  aggregate : SymbolId
  base : BaseName
  scope : ScopeId
  deriving Repr, DecidableEq, Inhabited

/-- What waits for the later passes, in the order of declaration. -/
structure Pending where
  items : List PendingItem := []
  bases : List PendingBase := []
  deriving Repr, DecidableEq, Inhabited

abbrev Declare := StateT Pending Analyse

def postpone (item : PendingItem) : Declare Unit :=
  modify fun p => { p with items := p.items ++ [item] }

/-! ## Names -/

def declareGlobal (d : VariableDecl) (sc : ScopeId) (parent : SymbolId) : Declare SymbolId := do
  let inAggregate := (← ask (·.symbols.aggregate? parent)).isSome
  let storage :=
    if inAggregate && !d.storage.contains .static then d.storage ||| .field else d.storage
  let symbol ← addSymbol d.name d.span (.var { type := d.type.getD .error, storage := storage })
    (some parent)
  bindName sc d.name symbol d.span (.alreadyDefined d.name)
  postpone (.var symbol d.type d.init sc)
  return symbol

def nextEnumValue (previous : ExprId) (place : Span) : Analyse ExprId := do
  match ← kind previous with
  | .integer value suffix => addExpr (.integer (value + 1) suffix) place
  | _ =>
    let lhs ← copyExpr previous
    let one ← addExpr (.integer 1 none) place
    addExpr (.binary .add lhs one) place

def declareEnumMembers (enumeration : SymbolId) (type : TypeId) :
    Option ExprId → List EnumMemberDecl → Analyse (List SymbolId)
  | _, [] => return []
  | previous, d :: rest => do
    let value ←
      match d.value, previous with
      | some value, _ => pure value
      | none, none => addExpr (.integer 0 none) d.span
      | none, some previous => nextEnumValue previous d.span
    let symbol ← addSymbol d.name d.span (.enumMember value type) (some enumeration)
    return symbol :: (← declareEnumMembers enumeration type (some value) rest)

def declareEnum (d : EnumDecl) (sc : ScopeId) (parent : SymbolId) : Analyse SymbolId := do
  let base ←
    match d.base with
    | some base => resolveType base sc d.span
    | none => pure (.ofScalar .int)
  let symbol ← addSymbol d.name d.span (.enumeration ⟨.error, []⟩) (some parent)
  let type ← intern (.enumType symbol d.name base)
  bindName sc d.name symbol d.span (.alreadyDefined d.name)
  let members ← declareEnumMembers symbol type none d.members
  act (.note symbol (.enumeration ⟨type, members⟩)) done
  return symbol

def completeAggregate (symbol : SymbolId) (type : TypeId) (members : List SymbolId)
    (scope : ScopeId) : Analyse Unit := do
  let symbols := (← tables).symbols
  let fields := members.filter fun m => (symbols.var? m).any (·.isField)
  let constructor := members.find? fun m =>
    symbols.name m == "this" && (symbols.func? m).any (·.isConstructor)
  act (.note symbol (.aggregate ⟨type, fields, members, constructor, scope⟩)) done

mutual

def declare (d : Decl) (sc : ScopeId) (parent : SymbolId) : Declare SymbolId := do
  match d with
  | .func d =>
    if d.typeParam.isSome then declareTemplate d sc (some parent)
    else
      let symbol ← declareFunction d sc (some parent) none
      postpone (.func symbol)
      return symbol
  | .global d => declareGlobal d sc parent
  | .enumeration d => declareEnum d sc parent
  | .importModule name place =>
    let symbol ← addSymbol name place (.importModule name) (some parent)
    bindName sc name symbol place (.alreadyDefined name)
    return symbol
  | .aggregate name place isClass base members =>
    let symbol ← addSymbol name place (.aggregate { isClass := isClass, type := .error })
      (some parent)
    let type ← intern (if isClass then .classType symbol name else .structType symbol name)
    bindName sc name symbol place (.alreadyDefined name)
    let inner ← pushScope sc
    noteScope inner (.aggregate symbol)
    let members ← declareAll members inner symbol
    completeAggregate symbol type members inner
    modify fun p => { p with bases := p.bases ++ base.toList.map (⟨symbol, ·, sc⟩) }
    return symbol

def declareAll (ds : List Decl) (sc : ScopeId) (parent : SymbolId) : Declare (List SymbolId) := do
  match ds with
  | [] => return []
  | d :: ds =>
    let symbol ← declare d sc parent
    return symbol :: (← declareAll ds sc parent)

end

/-! ## Later passes -/

def resolveBase (b : PendingBase) : Analyse Unit := do
  let name := b.base.name
  let p ← tables
  match p.scopes.search b.scope name with
  | none => undefinedIdentifier name b.scope b.base.span
  | some (base, _) =>
    let isClass (s : SymbolId) : Bool := (p.symbols.aggregate? s).any (·.isClass)
    if !isClass b.aggregate || !isClass base then error b.base.span (.baseNotClass name)
    else if p.symbols.derivesFrom base b.aggregate then
      error b.base.span (.circularInheritance name)
    else act (.note b.aggregate (.base base)) done

def resolveItem : PendingItem → Analyse PendingItem
  | .var symbol (some type) init sc => do
    let place := ((← tables).symbols.symbol symbol).span
    let type ← resolveType type sc place
    noteVar symbol (.type type)
    return .var symbol (some type) init sc
  | item => return item

def analyseItem : PendingItem → Analyse Unit
  | .var symbol type init sc => initVariable symbol type init sc
  | .func symbol => analyseSignature symbol

def analyseItemBody : PendingItem → Analyse Unit
  | .var _ _ _ _ => return
  | .func symbol => analyseBody symbol

def analyseModule (m : ModuleDecl) : Analyse SymbolId := do
  let symbol ← addSymbol m.name .synthetic (.module []) none
  act (.enterModule symbol) done
  let sc ← globalScope
  let (members, pending) ← (declareAll m.decls sc symbol).run {}
  act (.note symbol (.members members)) done
  pending.bases.forM resolveBase
  let items ← pending.items.mapM resolveItem
  items.forM (analyseItem)
  items.forM (analyseItemBody)
  return symbol

end DCompiler.Analyse
