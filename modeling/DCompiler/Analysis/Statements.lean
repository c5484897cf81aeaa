import DCompiler.Analysis.Functions

/-!
# Statements

Statements are analysed in place. A loop body and what follows a label must not call constructors,
and of the two branches of an `if` each may do so once.
-/

namespace DCompiler.Analyse

/-! ## The innermost function -/

def frameConstructed : Analyse Bool :=
  return ((← context).frames.head?).any (·.constructed)

def checkInLoop (place : Span) (problem : Problem) : Analyse Unit := do
  if ((← context).frames.head?).all (·.loopDepth = 0) then error place problem

/-! ## Returned values -/

/-- The static array of a function that a returned slice would refer to. -/
def escapingLocal (p : Tables) (e : ExprId) (func : SymbolId) : Option SymbolId :=
  let inner := p.belowCasts e
  let base :=
    match p.exprs.kind inner with
    | .slice base _ _ _ => base
    | _ => inner
  if !p.isArray e then none
  else
    match p.exprs.kind base with
    | .symbolRef s => do
      let v ← p.symbols.var? s
      let isStaticArray :=
        match p.types.kind v.type with
        | .staticArray _ _ => true
        | _ => false
      if v.owner = some func && !v.storage.isRef && !v.storage.contains .static && isStaticArray
      then some s else none
    | _ => none

def returnedValue (v : ExprId) (func : SymbolId) (result : TypeId) (place : Span) :
    Analyse ExprId := do
  let p ← tables
  if p.isError v then return v
  if p.types.isVoid result then
    if p.types.isVoid (p.typeOf v) then return v else fail place .returnFromVoid
  else
    let v ← convert v result
    let p ← tables
    match escapingLocal p v func with
    | some s => fail place (.escapingLocal (p.symbols.name s))
    | none => return v

def returnStmt (v : Option ExprId) (sc : ScopeId) (place : Span) : Analyse (Option ExprId) := do
  let p ← tables
  match p.currentFunc sc with
  | none => return none
  | some func =>
    match p.symbols.func? func with
    | none => return v
    | some f =>
      let result := ((p.types.signature? f.type).map (·.result)).getD .error
      match v with
      | none =>
        noteFunc func .returnsValue
        if !f.isConstructor && !p.types.isVoid result && !p.types.isError result then
          error place .returnValueExpected
        return none
      | some v =>
        let v ← value v sc
        let v ← if ← refuseArrayOperation v then errorExpr place else pure v
        noteFunc func .returnsValue
        return some (← returnedValue v func result place)

/-! ## Other statements -/

def exprStmt (e : ExprId) (sc : ScopeId) : Analyse ExprId := do
  let e ← value e sc
  if ← refuseArrayOperation e then errorExpr (← span e) else return e

def localVariable (name : String) (type : Option TypeId) (init : Option ExprId)
    (storage : StorageClass) (sc : ScopeId) (place : Span) : Analyse SymbolId := do
  let owner ← if storage.contains .static then pure none else ask (·.currentFunc sc)
  let symbol ← addSymbol name place
    (.var { type := type.getD .error, storage := storage, owner := owner }) (← enclosing sc)
  bindName sc name symbol place (.alreadyDefined name)
  initVariable symbol type init sc
  return symbol

def localFunction (d : FunctionDecl) (sc : ScopeId) : Analyse SymbolId := do
  let parent ← enclosing sc
  if d.typeParam.isSome then declareTemplate d sc parent
  else
    let symbol ← declareFunction d sc parent (← ask (·.currentFunc sc))
    analyseSignature symbol
    analyseBody symbol
    return symbol

def loopBody (body : StmtId) (sc : ScopeId) : Analyse Unit := do
  let inner ← pushScope sc
  noteScope inner .noConstructor
  nested .loop (analyseStmt body inner)

/-- The branches of an `if`. A constructor call in either counts afterwards. -/
def branches (yes : StmtId) (no : Option StmtId) (sc : ScopeId) : Analyse Unit := do
  let before ← frameConstructed
  analyseStmt yes (← pushScope sc)
  match no with
  | none => return
  | some no =>
    let afterYes ← frameConstructed
    act (.setConstructed before) done
    analyseStmt no (← pushScope sc)
    act (.setConstructed (afterYes || (← frameConstructed))) done

/-- A loop over a range; its variable has the type of the upper bound. -/
def foreachRange (name : String) (lower upper : ExprId) (body : StmtId)
    (sc : ScopeId) (place : Span) : Analyse Stmt := do
  let inner ← pushScope sc
  let upper ← value upper sc
  let lower ← value lower sc
  let type ← if ← isError upper then pure .error else typeOf upper
  let lower ← convert lower type
  let owner ← ask (·.currentFunc sc)
  let symbol ← addSymbol name place (.var { type := type, storage := .none, owner := owner })
    (← enclosing sc)
  overwrite inner name symbol
  loopBody body inner
  return .foreachRange name lower upper body (some symbol)

def stmtKind (s : Stmt) (sc : ScopeId) (place : Span) : Analyse Stmt := do
  match s with
  | .expr e => return .expr (← exprStmt e sc)
  | .varDecl name type init storage _ =>
    let symbol ← localVariable name type init storage sc place
    let init := (← ask (·.symbols.var? symbol)).bind (·.init)
    return .varDecl name type init storage (some symbol)
  | .funcDecl d _ => return .funcDecl d (some (← localFunction d sc))
  | .block stmts =>
    stmts.forM (analyseStmt · sc)
    return s
  | .scope body =>
    analyseStmt body (← pushScope sc)
    return s
  | .ifElse test yes no =>
    let test ← condition test sc
    branches yes no sc
    return .ifElse test yes no
  | .whileLoop test body =>
    let test ← condition test sc
    loopBody body sc
    return .whileLoop test body
  | .forLoop init test incr body =>
    let inner ← pushScope sc
    init.forM (analyseStmt · inner)
    let test ← test.mapM (condition · inner)
    let incr ← incr.mapM (exprStmt · inner)
    loopBody body inner
    return .forLoop init test incr body
  | .foreachRange name lower upper body _ => foreachRange name lower upper body sc place
  | .ret v => return .ret (← returnStmt v sc place)
  | .breakLoop =>
    checkInLoop place .breakOutsideLoop
    return s
  | .continueLoop =>
    checkInLoop place .continueOutsideLoop
    return s
  | .label _ body =>
    noteScope sc .noConstructor
    analyseStmt body sc
    return s

def statement (s : StmtId) (sc : ScopeId) : Analyse Unit := do
  let node ← ask (·.stmts.node s)
  let kind ← stmtKind node.kind sc node.span
  act (.setStmt s kind) done

end DCompiler.Analyse
