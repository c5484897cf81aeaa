import DCompiler.Analysis.Names
import DCompiler.Analysis.Functions

/-!
# Calls

Of the functions of one name a call takes the one that its arguments match best. A function matches
as well as its worst argument does. Two best functions are an error, and so is none. The only
function of its name is taken as it is: what does not fit is then reported argument by argument.

The arguments of a call are analysed before the function is known, and fitted to its parameters
after. Missing arguments come from the defaults, further ones are packed or promoted, lazy ones
become functions, and structs with a copy constructor are copied.

What a call does depends on what is called: a function, a template, a type, a value that can be
called, or `this` and `super` in a constructor. Calls may nest only so deep while they are
analysed.
-/

namespace DCompiler

namespace Tables

def valueMatch (p : Tables) (arg : ExprId) (target : TypeId) : MatchLevel :=
  if p.typeOf arg = target then .exact else .ofBool (p.convertsTo arg target)

/-- How well an expression serves as an argument. A parameter by reference takes only a place of
the very type. -/
def argumentMatch (p : Tables) (arg : ExprId) (param : Param) : MatchLevel :=
  if param.storage.isRef then
    if p.typeOf arg = param.type && p.isLvalue arg then .exact else .none
  else p.valueMatch arg param.type

def takesRest (sig : Signature) (i : Nat) : Bool :=
  sig.variadic = .typesafe && i + 1 = sig.params.length

def paramMatch (p : Tables) (sig : Signature) (args : List ExprId) (i : Nat) (param : Param) :
    MatchLevel :=
  let rest := takesRest sig i
  match args[i]? with
  | none => if param.default.isSome || rest then .exact else .none
  | some arg =>
    let level := p.argumentMatch arg param
    if rest && (level = .none || sig.params.length < args.length) then
      let elem := (p.types.next? param.type).getD .error
      (args.drop i).foldl (fun level arg => level.worse (p.valueMatch arg elem)) .convert
    else level

def signatureMatch (p : Tables) (sig : Signature) (args : List ExprId) : MatchLevel :=
  if sig.params.length < args.length && sig.variadic = .none then .none
  else
    sig.params.zipIdx.foldl
      (fun level (param, i) => level.worse (p.paramMatch sig args i param)) .exact

def functionMatch (p : Tables) (args : List ExprId) (func : SymbolId) : MatchLevel :=
  match p.types.signature? (p.functionType func) with
  | some sig => p.signatureMatch sig args
  | none => .none

/-- Compare one more function with the best so far, which are all matched at the same level. -/
def addMatch (p : Tables) (args : List ExprId) (best : MatchLevel × List SymbolId)
    (func : SymbolId) : MatchLevel × List SymbolId :=
  let level := p.functionMatch args func
  if best.1.rank < level.rank then (level, [func])
  else if level = best.1 && level ≠ .none then (level, best.2 ++ [func])
  else best

def bestMatches (p : Tables) (candidates : List SymbolId) (args : List ExprId) : List SymbolId :=
  (candidates.foldl (p.addMatch args) (.none, [])).2

def argumentTypes (p : Tables) (args : List ExprId) : String :=
  String.intercalate ", " (args.map fun arg => p.types.text (p.typeOf arg))

def signatureText (p : Tables) (func : SymbolId) : String :=
  let params := ((p.types.signature? (p.functionType func)).map (·.params)).getD []
  p.symbols.qualifiedName func ++ "(" ++
    String.intercalate ", " (params.map fun param => p.types.text param.type) ++ ")"

end Tables

namespace Analyse

/-- The function that a call takes, from the overload set that begins with `first`. -/
def resolveOverload (e : ExprId) (first : SymbolId) (args : List ExprId) :
    Analyse (Option SymbolId) := do
  let candidates ← ask (·.symbols.overloads first)
  candidates.forM analyseSignature
  if candidates.length = 1 then return some first
  let p ← tables
  let name := p.symbols.name first
  let place := p.exprs.span e
  match p.bestMatches candidates args with
  | [] =>
    error place (.noCallableOverload name (p.argumentTypes args))
    return none
  | [chosen] => return some chosen
  | one :: two :: _ =>
    report {
      severity := .error
      message := (Problem.ambiguousCall name (p.argumentTypes args)).message
      span := place
      notes := [Problem.quoted (p.signatureText one), Problem.quoted (p.signatureText two)] }
    return none

end Analyse

end DCompiler

namespace DCompiler.Analyse

def argument (sc : ScopeId) (arg : ExprId) : Analyse (Option ExprId) := do
  let arg ← analyseExpr arg sc
  match ← kind arg with
  | .typeRef _ | .moduleRef _ =>
    error (← span arg) (.notAnExpression (← text arg))
    return none
  | _ =>
    let arg ← toValue arg sc
    return if ← isError arg then none else some arg

def arguments (args : List ExprId) (sc : ScopeId) : Analyse (Option (List ExprId)) := do
  let analysed ← args.mapM (argument sc)
  ask fun p => (analysed.mapM id).map (expandTuples p)

/-! ## One argument -/

def lazyArgument (arg : ExprId) (result : TypeId) (sc : ScopeId) : Analyse ExprId := do
  let place ← span arg
  let type ← intern (.function ⟨[], result, .none, .d⟩)
  let body ← addStmt (.ret (some arg)) place
  let outer ← ask (·.currentFunc sc)
  let name := "__dgliteral" ++ toString (← ask (·.symbols.size))
  let symbol ← addSymbol name place
    (.func { type := type, storage := .none, body := some body, progress := .bodyDone,
             declScope := some sc, returnsValue := true, outer := outer })
    (← enclosing sc)
  typed (.funcLiteral symbol) place (← intern (.delegate type))

def isCopyConstructor (p : Tables) (type : TypeId) (func : SymbolId) : Bool :=
  match p.types.signature? (p.functionType func) with
  | some sig =>
    match sig.params with
    | [param] => param.storage.isRef && param.type = type
    | _ => false
  | none => false

def copyConstruct (arg : ExprId) : Analyse ExprId := do
  let p ← tables
  let type := p.typeOf arg
  let constructor := do
    let aggregate ← p.symbols.aggregate? (← p.types.aggregate? type)
    if aggregate.isClass then none else aggregate.constructor
  if !p.isLvalue arg || p.isError arg then return arg
  match constructor with
  | none => return arg
  | some first =>
    let candidates := p.symbols.overloads first
    candidates.forM analyseSignature
    match ← ask fun p => candidates.find? (isCopyConstructor p type) with
    | none => return arg
    | some chosen =>
      let place ← span arg
      let callee ← typed (.symbolRef chosen) place (← ask (·.functionType chosen))
      typed (.call callee [arg]) place type

def adaptArgument (arg : ExprId) (param : Param) (sc : ScopeId) : Analyse (Option ExprId) := do
  if ← refuseArrayOperation arg then return none
  if param.storage.contains .lazy then
    let arg ← convert arg param.type
    if ← isError arg then return none
    return some (← lazyArgument arg param.type sc)
  else if param.storage.isRef then
    let arg ← modifiable arg
    if ← isError arg then return none
    let p ← tables
    if p.typeOf arg = param.type then return some arg
    let keyword := if param.storage.contains .out then "out" else "ref"
    error (p.exprs.span arg)
      (.cannotPassByReference (p.text arg) (p.types.text (p.typeOf arg)) keyword
        (p.types.text param.type))
    return none
  else
    let arg ← convert arg param.type
    if ← isError arg then return none
    return some (← copyConstruct arg)

/-! ## Further arguments -/

def packedElements (elem : TypeId) : List ExprId → Analyse (Option (List ExprId)) :=
  mapUntilNone fun arg => do
    if ← refuseArrayOperation arg then return none
    let arg ← convert arg elem
    return if ← isError arg then none else some arg

/-- Pack further arguments into a temporary array and take a slice of it. -/
def packArguments (e : ExprId) (type : TypeId) (args : List ExprId) (sc : ScopeId) :
    Analyse (Option ExprId) := do
  let place ← span e
  if args.isEmpty then
    return some (← castTo (← typed .null place .null) type)
  let elem := (← ask (·.types.next? type)).getD .error
  match ← packedElements elem args with
  | none => return none
  | some elems =>
    let array ← intern (.staticArray elem elems.length.toUInt64)
    let literal ← typed (.array elems) place array
    let name := "__arrayArg" ++ toString (← ask (·.symbols.size))
    let temp ← declareTemp name array .none sc place
    noteVar temp (.init literal)
    let declaration ← typed (.declaration temp) place array
    let var ← typed (.symbolRef temp) place array
    let slice ← typed (.slice var none none none) place type
    return some (← typed (.comma declaration slice) place type)

def promotedType (base : TypeKind) : Analyse (Option TypeId) := do
  match base with
  | .scalar .float32 => return some (.ofScalar .float64)
  | .scalar .imaginary32 => return some (.ofScalar .imaginary64)
  | .scalar s => return if s.isIntegral then some (.ofScalar s.promote) else none
  | .staticArray elem _ => return some (← intern (.pointer elem))
  | _ => return none

/-- Promote a further argument. An array without a fixed place is passed by its address or as a
slice. -/
def furtherArgument (variadic : Variadic) (arg : ExprId) : Analyse ExprId := do
  let base ← ask (·.baseKindOf arg)
  if variadic = .c then
    match ← promotedType base with
    | some type => castTo arg type
    | none => return arg
  else
    match base with
    | .staticArray elem _ => castTo arg (← intern (.dynArray elem))
    | _ => return arg

def furtherArguments (sig : Signature) (args : List ExprId) (place : Span) :
    Analyse (List (Option (ExprId × ExprId))) :=
  args.mapM fun arg => do
    if ← refuseArrayOperation arg then return none
    let arg ← furtherArgument sig.variadic arg
    let info ← typed (.typeid (← typeOf arg)) place .typeInfo
    return some (arg, info)

/-! ## All arguments -/

def argumentFor (e : ExprId) (sig : Signature) (args : List ExprId) (sc : ScopeId)
    (i : Nat) (param : Param) : Analyse (Option ExprId) := do
  let p ← tables
  let direct := args.length = sig.params.length && args[i]?.any (p.convertsTo · param.type)
  if Tables.takesRest sig i && !direct then packArguments e param.type (args.drop i) sc
  else
    match args[i]?, param.default with
    | some arg, _ => adaptArgument arg param sc
    | none, some default => adaptArgument (← value (← copyExpr default) sc) param sc
    | none, none => return none

def passArguments (e : ExprId) (sig : Signature) (args : List ExprId)
    (sc : ScopeId) : Analyse (Option (List ExprId)) := do
  let place ← span e
  let params := sig.params.zipIdx
  let tooMany := sig.params.length < args.length && sig.variadic = .none
  let tooFew := (params.drop args.length).any fun (param, i) =>
    param.default.isNone && !Tables.takesRest sig i
  if tooMany || tooFew then
    error place (.argumentCount sig.params.length args.length)
    return none
  let fitted ← params.mapM fun (param, i) => argumentFor e sig args sc i param
  if sig.variadic = .c || sig.variadic = .d then
    let further ← furtherArguments sig (args.drop sig.params.length) place
    let all := fitted ++ further.map (·.map (·.1))
    if sig.variadic = .d then
      let infos := further.filterMap (·.map (·.2))
      let infoArray ← intern (.dynArray .typeInfo)
      let infos ← typed (.array infos) place infoArray
      return (some infos :: all).mapM id
    return all.mapM id
  return fitted.mapM id

/-! ## Calls -/

/-- Fit the arguments to a function type and finish the call; the call has the type `type`, or that
of the result. -/
def finishCall (e callee : ExprId) (funcType : TypeId) (args : List ExprId)
    (sc : ScopeId) (type : Option TypeId) : Analyse ExprId := do
  match ← ask (·.types.signature? funcType) with
  | none => errorExpr (← span e)
  | some sig =>
    match ← passArguments e sig args sc with
    | none => errorExpr (← span e)
    | some args => settle e (.call callee args) (type.getD sig.result)

def functionCall (e callee : ExprId) (first : SymbolId) (args : List ExprId)
    (sc : ScopeId) : Analyse ExprId := do
  match ← resolveOverload e first args with
  | none => errorExpr (← span e)
  | some chosen =>
    let type ← ask (·.functionType chosen)
    let reference :=
      match ← kind callee with
      | .member base _ => Expr.member base chosen
      | _ => .symbolRef chosen
    finishCall e (← settle callee reference type) type args sc none

def templateCall (e : ExprId) (template : SymbolId) (args : List ExprId)
    (sc : ScopeId) : Analyse ExprId := do
  let p ← tables
  let place := p.exprs.span e
  match p.symbols.kind template with
  | .template t =>
    match p.deduceTypeArgument t args with
    | none => fail place (.cannotDeduce (p.symbols.name template) (p.argumentTypes args))
    | some argument =>
      match ← instantiate template t argument place with
      | none => errorExpr place
      | some made =>
        let type ← ask (·.functionType made)
        finishCall e (← typed (.symbolRef made) place type) type args sc none
  | _ => errorExpr place

def notCallable (e callee : ExprId) : Analyse ExprId := do
  fail (← span e) (.notCallable (← text callee) (← typeText (← typeOf callee)))

def hasStaticCall (p : Tables) (aggregate : SymbolId) : Bool :=
  let found := do p.symbols.func? (← p.symbols.findMember aggregate "opCall")
  found.any fun f => f.storage.contains .static

/-- Call a type: its static function, its constructor, or its fields in order. -/
def typeCall (e callee : ExprId) (type : TypeId) (args : List ExprId)
    (sc : ScopeId) : Analyse ExprId := do
  let p ← tables
  let place := p.exprs.span e
  let called := do
    let symbol ← p.types.aggregate? type
    return (symbol, ← p.symbols.aggregate? symbol)
  match called with
  | none => notCallable e callee
  | some (symbol, aggregate) =>
    if aggregate.isClass then fail place (.classNotCallable (p.symbols.name symbol))
    else if hasStaticCall p symbol then
      let target ← addExpr (.dot callee "opCall") place
      analyseExpr (← addExpr (.call target args) place) sc
    else
      match aggregate.constructor with
      | none => analyseExpr (← addExpr (.structValue symbol args) place) sc
      | some constructor =>
        match ← resolveOverload e constructor args with
        | none => errorExpr place
        | some chosen =>
          let funcType ← ask (·.functionType chosen)
          let target ← typed (.symbolRef chosen) place funcType
          finishCall e target funcType args sc (some type)

/-- Call a value: a delegate, a function pointer, or a struct or class with a call operator. -/
def valueCall (e callee : ExprId) (args : List ExprId) (sc : ScopeId) : Analyse ExprId := do
  let callee ← checkValue callee
  if ← isError callee then return callee
  let p ← tables
  let funcType :=
    match p.baseKindOf callee with
    | .delegate func => some func
    | .pointer next => if (p.types.signature? next).isSome then some next else none
    | _ => none
  match funcType with
  | some funcType => finishCall e callee funcType args sc none
  | none =>
    match ← operatorCall e callee "opCall" args sc with
    | some call => return call
    | none => notCallable e callee

/-! ## Constructors that call constructors -/

def isConstructed (func : SymbolId) (frames : List Frame) : Bool :=
  (frames.find? (·.func = func)).any (·.constructed)

/-- Call the constructor of an overload set from within another constructor. -/
def delegateConstruction (e callee : ExprId) (args : List ExprId)
    (func constructor : SymbolId) (sc : ScopeId) : Analyse ExprId := do
  let place ← span e
  let base ← analyseExpr callee sc
  if ← isError base then return base
  match ← arguments args sc with
  | none => errorExpr place
  | some args =>
    match ← resolveOverload e constructor args with
    | none => errorExpr place
    | some chosen =>
      if chosen = func then fail place .cyclicConstructorCall
      else
        let type ← ask (·.functionType chosen)
        finishCall e (← typed (.member base chosen) place type) type args sc none

def constructorCall (e callee : ExprId) (args : List ExprId) (isSuper : Bool)
    (sc : ScopeId) : Analyse ExprId := do
  let p ← tables
  let place := p.exprs.span e
  let current := (p.currentFunc sc).filter fun func =>
    (p.symbols.func? func).any (·.isConstructor)
  match current with
  | none =>
    fail place (if isSuper then .superCallOutsideConstructor else .thisCallOutsideConstructor)
  | some func =>
    let aggregate := (p.symbols.symbol func).parent
    let target :=
      if isSuper then (aggregate.bind p.symbols.aggregate?).bind (·.base) else aggregate
    match (target.bind p.symbols.aggregate?).bind (·.constructor) with
    | none =>
      let name := ((target <|> aggregate).map p.symbols.name).getD ""
      fail place (.noSuperConstructor name)
    | some constructor =>
      if (p.scopes.scope sc).noConstructor then fail place .constructorCallInLoop
      else
        let repeated := isConstructed func (← context).frames
        act (.construct func) done
        if repeated then fail place .repeatedConstructorCall
        else delegateConstruction e callee args func constructor sc

/-! ## All calls -/

def plainCall (e callee : ExprId) (args : List ExprId) (sc : ScopeId) : Analyse ExprId := do
  let callee ← analyseExpr callee sc
  if ← isError callee then return callee
  match ← arguments args sc with
  | none => errorExpr (← span e)
  | some args =>
    let p ← tables
    match p.exprs.kind callee with
    | .templateRef template => templateCall e template args sc
    | .typeRef type => typeCall e callee type args sc
    | .symbolRef s | .member _ s =>
      if p.isFunction s then functionCall e callee s args sc else valueCall e callee args sc
    | _ => valueCall e callee args sc

/-- A call within the bound on nesting. A call of a comma expression calls its last part. -/
def boundedCall (e callee : ExprId) (args : List ExprId) (sc : ScopeId) : Analyse ExprId := do
  let p ← tables
  match p.exprs.type? callee, p.exprs.kind callee with
  | none, .comma first last =>
    let place := p.exprs.span e
    let call ← addExpr (.call last args) place
    analyseExpr (← addExpr (.comma first call) place) sc
  | none, .thisRef => constructorCall e callee args false sc
  | none, .superRef => constructorCall e callee args true sc
  | _, _ => plainCall e callee args sc

def call (e callee : ExprId) (args : List ExprId) (sc : ScopeId) : Analyse ExprId := do
  nested .call do
    let c ← context
    if c.options.maxCallDepth < c.callDepth then
      fail (← span e) (.recursiveEvaluation (← text e))
    else boundedCall e callee args sc

end DCompiler.Analyse
