import DCompiler.Analysis.Values

/-!
# Functions

A function is analysed in three steps. The first looks up the names in its type and checks the
declaration on its own; the second analyses the default arguments; the third analyses contracts and
body. The contracts of a virtual function become functions of their own inside it, so that an
overriding function can call them.

A template is a function declaration with a type parameter. A call deduces the type argument from
the arguments, and each type argument has one instance: a copy of the declaration in a scope where
the type parameter stands for the argument.
-/

namespace DCompiler.Analyse

/-! ## Declarations -/

def paramOfDecl (d : ParamDecl) : Param :=
  ⟨d.type, d.storage.without .parameter, d.name, d.default⟩

/-- Declare a function. One of a name that stands for a function already joins its overloads. -/
def declareFunction (d : FunctionDecl) (sc : ScopeId) (parent outer : Option SymbolId) :
    Analyse SymbolId := do
  let type ← intern (.function ⟨d.params.map paramOfDecl, d.result, d.variadic, d.linkage⟩)
  let symbol ← addSymbol d.name d.span
    (.func { type := type, storage := d.storage, isConstructor := d.isConstructor, body := d.body,
             requires := d.requires, ensures := d.ensures, declScope := some sc, outer := outer })
    parent
  let p ← tables
  match p.scopes.lookup sc d.name with
  | none => overwrite sc d.name symbol
  | some existing =>
    if p.isFunction existing then
      let last := ((p.symbols.overloads existing).getLast?).getD existing
      noteFunc last (.overload symbol)
    else error d.span (.alreadyDefined d.name)
  return symbol

def declScope (symbol : SymbolId) : Analyse ScopeId := do
  match (← ask (·.symbols.func? symbol)).bind (·.declScope) with
  | some sc => return sc
  | none => globalScope

/-! ## Types and default arguments -/

def checkMain (type : TypeId) (name : String) (place : Span) : Analyse Unit := do
  match ← ask (·.types.signature? type) with
  | none => return
  | some sig =>
    let result ← ask (·.types.scalar? sig.result)
    if result != some .void && result != some .int then error place (.mainResult name)
    let texts ← intern (.dynArray (← stringType))
    let fits :=
      match sig.params with
      | [] => true
      | [param] => param.type = texts && !param.storage.isRef
      | _ => false
    if !(fits && sig.variadic = .none) then error place (.mainParameters name)

def memberClass (p : Tables) (symbol : SymbolId) : Option Aggregate := do
  let aggregate ← p.symbols.aggregate? (← (p.symbols.symbol symbol).parent)
  if aggregate.isClass then some aggregate else none

def overridesFunction (p : Tables) (symbol : SymbolId) : Bool :=
  let found := do
    let base ← (← memberClass p symbol).base
    p.symbols.findMember base (p.symbols.name symbol)
  found.any p.isFunction

def declaredType (symbol : SymbolId) (f : Function) : Analyse TypeId := do
  let place := ((← tables).symbols.symbol symbol).span
  resolveType f.type (← declScope symbol) place

def checkDeclaration (symbol : SymbolId) (f : Function) (type : TypeId) : Analyse Unit := do
  let p ← tables
  let place := (p.symbols.symbol symbol).span
  let name := p.symbols.qualifiedName symbol
  let inModule := (p.symbols.symbol symbol).parent.any fun parent =>
    match p.symbols.kind parent with
    | .module _ => true
    | _ => false
  if inModule && p.symbols.name symbol == "main" then checkMain type name place
  let hasContracts := !f.requires.isEmpty || !f.ensures.isEmpty
  if f.body.isNone && hasContracts && !f.storage.contains .abstract then
    error place (.contractsWithoutBody name)
  let isVirtual := (memberClass p symbol).isSome && !f.isConstructor && !f.storage.contains .static
  noteFunc symbol (.isVirtual isVirtual)
  if f.storage.contains .override && !overridesFunction p symbol then
    error place (.overridesNothing name)

/-- Analyse the default of a parameter; the flag says that there was something to do. -/
def defaultArgument (sc : ScopeId) (param : Param) : Analyse (Param × Bool) := do
  match param.default with
  | none => return (param, false)
  | some default =>
    if (← ask (·.exprs.type? default)).isSome then return (param, false)
    let default ← convert (← value default sc) param.type
    return ({ param with default := some default }, true)

/-- Analyse the default arguments of a function and give its type with them, if that is another. -/
def defaultArguments (symbol : SymbolId) (sig : Signature) : Analyse (Option TypeId) := do
  let sc ← declScope symbol
  let params ← sig.params.mapM (defaultArgument sc)
  if params.any (·.2) then
    return some (← intern (.function { sig with params := params.map (·.1) }))
  else return none

/-! ## Variables of a body -/

def declareThis (symbol : SymbolId) (storage : StorageClass) (sc : ScopeId) (place : Span) :
    Analyse Unit := do
  let p ← tables
  match ((p.symbols.symbol symbol).parent).bind p.symbols.aggregate? with
  | none => return
  | some aggregate =>
    if storage.contains .static then return
    let byRef := if aggregate.isClass then StorageClass.none else .byRef
    let this ← declareTemp "this" aggregate.type (.parameter ||| byRef) sc place
    noteFunc symbol (.thisVar this)

/-- Declare a parameter in the body of a function. A lazy one is a function there. -/
def declareParameter (symbol : SymbolId) (sc : ScopeId) (place : Span) (name : String)
    (param : Param) : Analyse SymbolId := do
  let type ←
    if param.storage.contains .lazy then
      let func ← intern (.function ⟨[], param.type, .none, .d⟩)
      intern (.delegate func)
    else pure param.type
  let var ← addSymbol name place
    (.var { type := type, storage := param.storage ||| .parameter, owner := some symbol })
    (some symbol)
  bindName sc name var place (.parameterAlreadyDefined name)
  return var

def declareParameters (symbol : SymbolId) (params : List Param) (sc : ScopeId) (place : Span) :
    Analyse (List SymbolId) := do
  let named := params.filterMap fun param => param.name.map fun name => (name, param)
  named.mapM fun (name, param) => declareParameter symbol sc place name param

/-! ## Contracts -/

def mergeRequires (requires : List StmtId) (place : Span) : Analyse (Option StmtId) := do
  if requires.isEmpty then return none
  let blocks ← requires.mapM fun block => addStmt (.scope block) place
  return some (← addStmt (.block blocks) place)

def ensureBlock (result : TypeId) (place : Span) (d : EnsureDecl) : Analyse StmtId := do
  let named := if ← ask (·.types.isVoid result) then none else d.result
  let declaration ← named.toList.mapM fun name => do
    let value ← addExpr (.identifier "__result") place
    addStmt (.varDecl name (some result) (some value) .byRef none) place
  let block ← addStmt (.block (declaration ++ [d.body])) place
  addStmt (.scope block) place

def mergeEnsures (ensures : List EnsureDecl) (result : TypeId) (place : Span) :
    Analyse (Option StmtId) := do
  if ensures.isEmpty then return none
  let blocks ← ensures.mapM (ensureBlock result place)
  return some (← addStmt (.block blocks) place)

/-- The function that checks conditions of a virtual function. A postcondition takes the result by
reference. -/
def contractFunction (outer : SymbolId) (name : String) (result : Option TypeId)
    (sc : ScopeId) (place : Span) (conditions : StmtId) : Analyse SymbolId := do
  let params := result.toList.map fun type =>
    (⟨type, .byRef ||| .const, some "__result", none⟩ : Param)
  let type ← intern (.function ⟨params, .ofScalar .void, .none, .d⟩)
  let body ← addStmt (.scope conditions) place
  let symbol ← addSymbol name place
    (.func { type := type, storage := .none, body := some body, declScope := some sc,
             outer := some outer })
    (some outer)
  analyseSignature symbol
  analyseBody symbol
  return symbol

def contracts (symbol : SymbolId) (isVirtual : Bool)
    (requires ensures : Option StmtId) (result : Option TypeId) (sc : ScopeId) (place : Span) :
    Analyse Unit := do
  if isVirtual then
    let requireFunc ← requires.mapM (contractFunction symbol "__require" none sc place)
    let ensureFunc ← ensures.mapM (contractFunction symbol "__ensure" result sc place)
    noteFunc symbol (.contracts requireFunc ensureFunc)
  else
    (requires.toList ++ ensures.toList).forM fun contract => do
      analyseStmt contract (← pushScope sc)

/-! ## Bodies -/

/-- Whether the variables of a function may be used after it returned: by a nested function whose
address was taken, or by any nested function that uses them inside a method. -/
def needsClosure (p : Tables) (symbol : SymbolId) : Bool :=
  match p.symbols.func? symbol with
  | none => false
  | some f =>
    !f.closureVars.isEmpty && p.symbols.ids.any fun other =>
      (p.symbols.func? other).any fun nested =>
        nested.outer = some symbol && nested.hasNestedRefs &&
          (nested.tookAddress || f.thisVar.isSome)

def openBody (symbol : SymbolId) (f : Function) (sig : Signature) (returnsValue : Bool)
    (sc : ScopeId) (place : Span) : Analyse (Option StmtId × Option StmtId) := do
  declareThis symbol f.storage sc place
  let params ← declareParameters symbol sig.params sc place
  let (arguments, argptr) ←
    if sig.variadic = .d then
      let infos ← intern (.dynArray .typeInfo)
      let address ← intern (.pointer (.ofScalar .void))
      let arguments ← declareTemp "_arguments" infos .none sc place
      let argptr ← declareTemp "_argptr" address .none sc place
      pure (some arguments, some argptr)
    else pure (none, none)
  let result ←
    if returnsValue && !f.ensures.isEmpty then
      pure (some (← declareTemp "__result" sig.result .none sc place))
    else pure none
  let requires ← mergeRequires f.requires place
  let ensures ← mergeEnsures f.ensures sig.result place
  noteFunc symbol (.parts ⟨params, arguments, argptr, result, sc, requires, ensures⟩)
  return (requires, ensures)

def bodyStep (symbol : SymbolId) (f : Function) (sig : Signature) (body : StmtId) :
    Analyse Unit := do
  let place := ((← tables).symbols.symbol symbol).span
  let sc ← pushScope (← declScope symbol)
  noteScope sc (.body symbol)
  let types ← ask (·.types)
  let returnsValue := !types.isVoid sig.result && !types.isError sig.result
  let (requires, ensures) ← openBody symbol f sig returnsValue sc place
  let result := if returnsValue then some sig.result else none
  nested (.body symbol) do
    contracts symbol f.isVirtual requires ensures result sc place
    analyseStmt body sc
  let p ← tables
  let returned := (p.symbols.func? symbol).any (·.returnsValue)
  if returnsValue && !f.isConstructor && !returned then
    error place (.missingReturn (p.symbols.qualifiedName symbol) (p.types.text sig.result))
  let closure ← ask (needsClosure · symbol)
  noteFunc symbol (.needsClosure closure)

end DCompiler.Analyse

/-! ## Passes -/

namespace DCompiler

namespace Analysis

def setProgress (s : Analysis) (symbol : SymbolId) (progress : Progress) : Analysis :=
  { s with symbols := s.symbols.modifyFunc symbol fun f => { f with progress := progress } }

def setFunctionType (s : Analysis) (symbol : SymbolId) (type : TypeId) : Analysis :=
  { s with symbols := s.symbols.modifyFunc symbol fun f => { f with type := type } }

end Analysis

namespace Pass

def declare (h : Analyser) (symbol : SymbolId) (f : Function) : Pass Unit := do
  modify (·.setProgress symbol .declared)
  let type ← (Analyse.declaredType symbol f).run h
  modify (·.setFunctionType symbol type)
  (Analyse.checkDeclaration symbol f type).run h

def defaults (h : Analyser) (symbol : SymbolId) : Pass Unit := do
  modify (·.setProgress symbol .defaults)
  let p := (← get).toTables
  match p.types.signature? (p.functionType symbol) with
  | none => return
  | some sig =>
    match ← (Analyse.defaultArguments symbol sig).run h with
    | some type => modify (·.setFunctionType symbol type)
    | none => return

/-- Analyse the type and the default arguments of a function, unless that was done. -/
def signature (h : Analyser) (symbol : SymbolId) : Pass Unit := do
  match (← get).symbols.func? symbol with
  | none => return
  | some f =>
    if f.progress.rank < Progress.declared.rank then declare h symbol f
    if ((← get).progressOf symbol).rank < Progress.defaults.rank then defaults h symbol

/-- Analyse the contracts and the body of a function, unless that was begun. -/
def body (h : Analyser) (symbol : SymbolId) : Pass Unit := do
  signature h symbol
  let p := (← get).toTables
  match p.symbols.func? symbol with
  | none => return
  | some f =>
    if Progress.bodyRunning.rank ≤ f.progress.rank then return
    modify (·.setProgress symbol .bodyRunning)
    match f.body, p.types.signature? f.type with
    | some body, some sig => (Analyse.bodyStep symbol f sig body).run h
    | _, _ => pure ()
    modify (·.setProgress symbol .bodyDone)

end Pass

end DCompiler

namespace DCompiler

namespace Tables

/-- The type argument that a parameter and its argument determine, if they do. The parameter has
the type parameter or an array of it as its type. -/
def deducedFrom (p : Tables) (typeParam : String) (param : TypeId) (arg : ExprId) :
    Option TypeId :=
  let isParam (t : TypeId) : Bool := p.types.kind t == .named typeParam
  if isParam param then some (p.typeOf arg)
  else
    match p.types.kind param with
    | .dynArray elem => if isParam elem then p.types.element? (p.typeOf arg) else none
    | _ => none

def deduceTypeArgument (p : Tables) (t : FunctionTemplate) (args : List ExprId) :
    Option TypeId :=
  (t.pattern.params.zip args).findSome? fun (param, arg) =>
    p.deducedFrom t.typeParam param.type arg

end Tables

namespace Analyse

def declareTemplate (d : FunctionDecl) (sc : ScopeId) (parent : Option SymbolId) :
    Analyse SymbolId := do
  let symbol ← addSymbol d.name d.span (.template ⟨d, d.typeParam.getD "", sc, []⟩) parent
  bindName sc d.name symbol d.span (.alreadyDefined d.name)
  return symbol

def copyFunction (d : FunctionDecl) : Analyse FunctionDecl :=
  act (.copyFunction d) done

def makeInstance (template : SymbolId) (t : FunctionTemplate) (argument : TypeId)
    (place : Span) : Analyse SymbolId := do
  let copied ← copyFunction t.pattern
  let name := copied.name ++ "!(" ++ (← typeText argument) ++ ")"
  let sc ← pushScope t.declScope
  let parameter ← addSymbol t.typeParam place (.typeAlias argument) none
  overwrite sc t.typeParam parameter
  let p ← tables
  let parent := (p.symbols.symbol template).parent
  let made ← declareFunction { copied with typeParam := none, name := name } sc parent
    (p.currentFunc sc)
  noteFunc made .templateInstance
  act (.note template (.template ⟨argument, made⟩)) done
  analyseSignature made
  analyseBody made
  return made

/-- The instance of a template for a type argument, if its type is valid. One that was made before
is taken as it is. -/
def instantiate (template : SymbolId) (t : FunctionTemplate) (argument : TypeId)
    (place : Span) : Analyse (Option SymbolId) := do
  match t.instances.find? (·.argument = argument) with
  | some found => return some found.function
  | none =>
    let made ← makeInstance template t argument place
    let p ← tables
    return if p.types.isError (p.functionType made) then none else some made

end Analyse

end DCompiler
