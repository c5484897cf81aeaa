import DCompiler.Analysis.State

/-!
# Values

The names in a type are replaced by what they stand for. A type with a name that stands for no type
becomes the error type, after the name was reported.

An analysed expression may name a type, a module, a template or a function. Where a value is
wanted, a function is called without arguments, a lazy parameter is evaluated, and the others are
errors. A conversion of a literal gives a literal; any other conversion becomes a cast or, for a
function, an address. A cast to a struct or class that can be called is tried as a call. Any other
cast has to be one of those that the language allows.

`compiles` asks whether expressions can be analysed without errors. They are copied and analysed
under a gag, so that the attempt leaves no diagnostics.
-/

namespace DCompiler.Analyse

def namedType (name : String) (sc : ScopeId) (place : Span) : Analyse TypeId := do
  if name == "size_t" then sizeType
  else if name == "string" then stringType
  else
    match (← tables).scopes.search sc name with
    | none =>
      undefinedIdentifier name sc place
      return .error
    | some (symbol, _) =>
      match ← ask (·.symbols.kind symbol) with
      | .aggregate a => return a.type
      | .enumeration e => return e.type
      | .typeAlias type => return type
      | _ =>
        error place (.usedAsType name)
        return .error

def mapUntilNone {α β : Type} (f : α → Analyse (Option β)) : List α → Analyse (Option (List β))
  | [] => return some []
  | x :: xs => do
    match ← f x with
    | none => return none
    | some y => return (← mapUntilNone f xs).map (y :: ·)

def internOf (component : Option TypeId) (make : TypeId → TypeKind) : Analyse TypeId :=
  match component with
  | some type => intern (make type)
  | none => return .error

def resolveType (type : TypeId) (sc : ScopeId) (place : Span) : Analyse TypeId := do
  let component (next : TypeId) : Analyse (Option TypeId) := do
    if next.index < type.index then
      let found ← resolveType next sc place
      return if ← ask (·.types.isError found) then none else some found
    else return none
  match ← ask (·.types.kind type) with
  | .scalar _ | .error | .null | .typeInfo | .structType _ _ | .classType _ _ | .enumType _ _ _ =>
    return type
  | .named name => namedType name sc place
  | .pointer next => internOf (← component next) .pointer
  | .dynArray next => internOf (← component next) .dynArray
  | .staticArray next length => internOf (← component next) (.staticArray · length)
  | .delegate func => internOf (← component func) .delegate
  | .assocArray key value =>
    let key ← component key
    let value ← component value
    match key with
    | some key => internOf value (.assocArray key)
    | none => return .error
  | .tuple elems =>
    match ← mapUntilNone component elems with
    | some elems => intern (.tuple elems)
    | none => return .error
  | .function sig =>
    match ← component sig.result with
    | none => return .error
    | some result =>
      let param (p : Param) : Analyse (Option Param) := do
        return (← component p.type).map fun type => { p with type := type }
      match ← mapUntilNone param sig.params with
      | some params => intern (.function { sig with params := params, result := result })
      | none => return .error
termination_by type.index

/-! ## Conversions -/

/-- The literal that a literal becomes in another basic type, if that can be computed. -/
def foldedCast (e : Expr) (source target : Scalar) : Option Expr :=
  match e with
  | .integer value _ =>
    if target.isIntegral then some (.integer (target.normalize value) (some target))
    else if target.isReal then some (.real (Double.ofInt (source.number value)) (some target))
    else none
  | .real value _ =>
    if !source.isReal then none
    else if target.isReal then some (.real value (some target))
    else if target.isIntegral && value.isFinite then
      let whole := if target.isUnsigned then value.toUnsigned else value.toSigned
      some (.integer (target.normalize whole) (some target))
    else none
  | _ => none

def castTo (e : ExprId) (target : TypeId) : Analyse ExprId := do
  let p ← tables
  let source := p.typeOf e
  if source = target || p.isError e then return e
  let folded :=
    match p.types.scalar? source, p.types.kind target with
    | some s, .scalar t => foldedCast (p.exprs.kind e) s t
    | _, _ => none
  typed (folded.getD (.cast e target)) (p.exprs.span e) target

def convert (e : ExprId) (target : TypeId) : Analyse ExprId := do
  let p ← tables
  let source := p.typeOf e
  if source = target || p.isError e || p.types.isError target then return e
  if !p.convertsTo e target then
    fail (p.exprs.span e)
      (.cannotConvert (p.text e) (p.types.text source) (p.types.text target))
  else
    match p.exprs.kind e, p.types.kind target with
    | .array elems, .dynArray elem | .array elems, .staticArray elem _ =>
      let elems ← elems.mapM fun x =>
        if elem.index < target.index then convert x elem else pure x
      settle e (.array elems) target
    | .symbolRef s, .pointer _ | .symbolRef s, .delegate _ =>
      if p.isFunction s then
        noteFunc s .addressTaken
        typed (.unary .addressOf e) (p.exprs.span e) target
      else castTo e target
    | _, _ => castTo e target
termination_by target.index

/-! ## Values -/

def checkValue (e : ExprId) : Analyse ExprId := do
  match ← kind e with
  | .typeRef _ | .moduleRef _ | .templateRef _ => fail (← span e) (.noValue (← text e))
  | _ => return e

def lazyType (p : Tables) (e : ExprId) : TypeId :=
  match (p.types.next? (p.typeOf e)).bind p.types.signature? with
  | some sig => sig.result
  | none => .error

def toValue (e : ExprId) (sc : ScopeId) : Analyse ExprId := do
  let p ← tables
  if p.isError e then return e
  match p.exprs.kind e with
  | .symbolRef s =>
    if p.isFunction s then
      analyseExpr (← addExpr (.call e []) (p.exprs.span e)) sc
    else if (p.symbols.var? s).any fun v => v.storage.contains .lazy then
      typed (.call e []) (p.exprs.span e) (lazyType p e)
    else checkValue e
  | .member _ s =>
    if p.isFunction s then
      analyseExpr (← addExpr (.call e []) (p.exprs.span e)) sc
    else checkValue e
  | _ => checkValue e

def value (e : ExprId) (sc : ScopeId) : Analyse ExprId := do
  toValue (← analyseExpr e sc) sc

/-- Analyse expressions up to the first error, which is given instead of the values. -/
def values (sc : ScopeId) : List ExprId → Analyse (Except ExprId (List ExprId))
  | [] => return .ok []
  | e :: es => do
    let v ← value e sc
    if ← isError v then return .error v
    return (← values sc es).map (v :: ·)

def hasTruth : TypeKind → Bool
  | .scalar s => s.isArithmetic
  | .pointer _ | .dynArray _ | .staticArray _ _ | .assocArray _ _ | .classType _ _ | .delegate _
  | .null => true
  | _ => false

def condition (e : ExprId) (sc : ScopeId) : Analyse ExprId := do
  let e ← value e sc
  if ← isError e then return e
  let p ← tables
  match p.exprs.kind e with
  | .assign .plain _ _ _ => fail (p.exprs.span e) .assignmentAsCondition
  | _ =>
    let base := p.types.base (p.typeOf e)
    if hasTruth (p.types.kind base) then return e
    else fail (p.exprs.span e) (.noBooleanValue (p.text e) (p.types.text base))

def modifiable (e : ExprId) : Analyse ExprId := do
  let p ← tables
  if p.isError e then return e
  if !p.isLvalue e then fail (p.exprs.span e) (.notLvalue (p.text e))
  else
    match p.exprs.kind e with
    | .symbolRef s =>
      if (p.symbols.var? s).any fun v => v.storage.contains .const then
        fail (p.exprs.span e) (.constModified (p.text e))
      else return e
    | _ => return e

def refuseArrayOperation (e : ExprId) : Analyse Bool := do
  let p ← tables
  if p.isArrayOperation e then
    error (p.exprs.span e) (.arrayOperationWithoutDestination (p.text e))
    return true
  else return false

/-- Call an operator member of a struct or class, if there is one. The call has the place of
another expression. -/
def operatorCall (e base : ExprId) (name : String) (args : List ExprId)
    (sc : ScopeId) : Analyse (Option ExprId) := do
  let p ← tables
  match p.aggregateWith base name with
  | none => return none
  | some _ =>
    let place := p.exprs.span e
    let callee ← addExpr (.dot base name) place
    let call ← addExpr (.call callee args) place
    return some (← analyseExpr call sc)

/-! ## Literals -/

/-- The type of an integer literal: that of its suffix, or the first of `int`, `long` and `ulong`
that holds it. A suffix type that is too small makes way for `ulong`. -/
def integerType (value : UInt64) (suffix : Option Scalar) : Scalar :=
  let long := 2 ^ 63 ≤ value.toNat
  match suffix with
  | some .uint => if 2 ^ 32 ≤ value.toNat then .ulong else .uint
  | some .long => if long then .ulong else .long
  | some s => s
  | none => if long then .ulong else if 2 ^ 31 ≤ value.toNat then .long else .int

/-- The element type after one more element, if there is one. The first element stands for all
before. -/
def joinElement (p : Tables) (first : ExprId) (elem : TypeId) (next : ExprId) : Option TypeId :=
  let type := p.typeOf next
  if type = elem then some elem
  else
    let combined := do (← p.types.scalar? elem).combine (← p.types.scalar? type)
    match combined with
    | some c => some (.ofScalar c.result)
    | none =>
      if p.convertsTo next elem then some elem
      else if p.convertsTo first type then some type
      else none

def elementType (p : Tables) (first : ExprId) :
    TypeId → List ExprId → Except (TypeId × TypeId) TypeId
  | elem, [] => .ok elem
  | elem, next :: rest =>
    match joinElement p first elem next with
    | some elem => elementType p first elem rest
    | none => .error (elem, p.typeOf next)

/-- Convert expressions up to the first error, which is given instead. -/
def convertAll (target : TypeId) : List ExprId → Analyse (Except ExprId (List ExprId))
  | [] => return .ok []
  | e :: es => do
    let c ← convert e target
    if ← isError c then return .error c
    return (← convertAll target es).map (c :: ·)

def arrayLiteral (e : ExprId) (elems : List ExprId) (sc : ScopeId) : Analyse ExprId := do
  match ← values sc elems with
  | .error fault => return fault
  | .ok [] => setType e (← intern (.dynArray (.ofScalar .void)))
  | .ok (first :: rest) =>
    let p ← tables
    match elementType p first (p.typeOf first) rest with
    | .error (elem, type) =>
      fail (p.exprs.span e) (.incompatibleElements (p.types.text elem) (p.types.text type))
    | .ok elem =>
      match ← convertAll elem (first :: rest) with
      | .error fault => return fault
      | .ok elems => settle e (.array elems) (← intern (.dynArray elem))

def fieldValues (sc : ScopeId) :
    List (ExprId × SymbolId) → Analyse (Except ExprId (List ExprId))
  | [] => return .ok []
  | (e, field) :: rest => do
    let v ← value e sc
    let v ← convert v (← ask (·.variableType field))
    if ← isError v then return .error v
    return (← fieldValues sc rest).map (v :: ·)

def structValue (e : ExprId) (s : SymbolId) (elems : List ExprId) (sc : ScopeId) :
    Analyse ExprId := do
  let place ← span e
  let symbol ← ask (·.symbols.symbol s)
  match symbol.aggregate? with
  | none => fail place (.notAStruct symbol.name)
  | some aggregate =>
    if aggregate.fields.length < elems.length then
      fail place (.tooManyInitializers aggregate.fields.length symbol.name)
    else
      match ← fieldValues sc (elems.zip aggregate.fields) with
      | .error fault => return fault
      | .ok elems => settle e (.structValue s elems) aggregate.type

/-! ## Casts -/

def isNullable : TypeKind → Bool
  | .pointer _ | .dynArray _ | .assocArray _ _ | .classType _ _ | .delegate _ => true
  | _ => false

/-- Whether a cast between types is allowed; `sameSize` says that both are equally large. -/
def castAllowed (source target : TypeKind) (sameSize : Bool) : Bool :=
  match source, target with
  | _, .scalar .void => true
  | .scalar s, .scalar _ => s != .void
  | .null, target => isNullable target
  | .pointer _, .pointer _ | .classType _ _, .classType _ _ | .classType _ _, .pointer _
  | .pointer _, .classType _ _ | .dynArray _, .dynArray _ | .staticArray _ _, .dynArray _
  | .dynArray _, .pointer _ | .staticArray _ _, .pointer _ | .delegate _, .delegate _ => true
  | .pointer _, .scalar s | .scalar s, .pointer _ => s.isIntegral
  | .structType _ _, .structType _ _ | .staticArray _ _, .staticArray _ _ => sameSize
  | _, _ => false

def castByCall (e operand : ExprId) (target : TypeId) (sc : ScopeId) : Analyse (Option ExprId) := do
  let p ← tables
  let callable := do p.symbols.findMember (← p.types.aggregate? target) "opCall"
  match callable with
  | none => return none
  | some _ =>
    let place := p.exprs.span e
    let callee ← typed (.typeRef target) place target
    let call ← addExpr (.call callee [operand]) place
    let (result, failed) ← gagged (analyseExpr call sc)
    if failed then return none
    return if ← isError result then none else some result

def castValue (e operand : ExprId) (target : TypeId) : Analyse ExprId := do
  let p ← tables
  let source := p.typeOf operand
  let size ← sizeOf (p.types.base source)
  let targetSize ← sizeOf (p.types.base target)
  if castAllowed (p.types.baseKind source) (p.types.baseKind target) (size == targetSize) then
    let result ← castTo operand target
    if result = operand then settle e (.cast operand target) target else return result
  else
    fail (p.exprs.span e)
      (.cannotCast (p.text operand) (p.types.text source) (p.types.text target))

def castExpr (e operand : ExprId) (target : TypeId) (sc : ScopeId) : Analyse ExprId := do
  let place ← span e
  let operand ← value operand sc
  if ← isError operand then return operand
  let target ← resolveType target sc place
  if ← ask (·.types.isError target) then errorExpr place
  else if (← typeOf operand) = target then settle e (.cast operand target) target
  else
    match ← castByCall e operand target sc with
    | some call => return call
    | none => castValue e operand target

/-! ## Attempts -/

def trial (e : ExprId) (sc : ScopeId) : Analyse ExprId := do
  let result ← analyseExpr e sc
  match ← kind result with
  | .typeRef _ => return result
  | _ => toValue result sc

def prepareTrial (sc : ScopeId) (arg : ExprId) : Analyse (ExprId × ScopeId) := do
  let inner ← pushScope sc
  noteScope inner .speculative
  return (← copyExpr arg, inner)

def attempt (sc : ScopeId) (arg : ExprId) : Analyse Bool := do
  let (copied, inner) ← prepareTrial sc arg
  let (result, failed) ← gagged (trial copied inner)
  return !failed && !(← isError result)

def attemptAll (sc : ScopeId) : List ExprId → Analyse Bool
  | [] => return true
  | arg :: rest => do
    if ← attempt sc arg then attemptAll sc rest else return false

def compiles (e : ExprId) (args : List ExprId) (sc : ScopeId) : Analyse ExprId := do
  let place ← span e
  let works ← if args.isEmpty then pure false else attemptAll sc args
  integer (if works then 1 else 0) (.ofScalar .bool) place

/-! ## Variables -/

def initTarget (p : Tables) (type : TypeId) (init : ExprId) : TypeId :=
  match p.types.kind type, p.exprs.kind init with
  | .staticArray _ _, .array _ => type
  | .staticArray elem _, _ => if p.isArray init then type else elem
  | _, _ => type

def initializer (init : ExprId) (sc : ScopeId) (place : Span) : Analyse ExprId := do
  let init ← value init sc
  if ← refuseArrayOperation init then errorExpr place else return init

def storeVariable (symbol : SymbolId) (type : TypeId) (init : Option ExprId) : Analyse Unit :=
  noteVar symbol (.value type init)

def initVariable (symbol : SymbolId) (type : Option TypeId) (init : Option ExprId)
    (sc : ScopeId) : Analyse Unit := do
  let place := (← tables).symbols.symbol symbol |>.span
  let declared ← type.mapM (resolveType · sc place)
  if ← ask fun p => declared.any p.types.isError then
    storeVariable symbol .error none
  else
    let init ← init.mapM (initializer · sc place)
    let (type, init) ←
      match declared, init with
      | some type, some init =>
        let target ← ask (initTarget · type init)
        pure (type, some (← convert init target))
      | some type, none => pure (type, none)
      | none, some init => pure (← typeOf init, some init)
      | none, none => pure (.error, none)
    let p ← tables
    if p.types.isVoid type then
      error place (.voidVariable (p.symbols.name symbol))
      storeVariable symbol .error init
    else storeVariable symbol type init

end DCompiler.Analyse
