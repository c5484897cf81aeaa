import DCompiler.Analysis.Values

/-!
# Names, members, indices and tuples

What a name or a member stands for. A member of the struct or class around a function may be named
without its base.

Inside the bounds of an index or slice, `$` stands for the length of what is indexed. Bounds of a
tuple are constants, and an index or slice of a tuple is computed.
-/

namespace DCompiler.Analyse

/-! ## `this` and `super` -/

def thisVar? (p : Tables) (sc : ScopeId) : Option SymbolId := do
  let func ← p.currentFunc sc
  (← p.symbols.func? func).thisVar

def baseClass? (p : Tables) (type : TypeId) : Option SymbolId := do
  let aggregate ← p.types.aggregate? type
  (← p.symbols.aggregate? aggregate).base

def thisExpr (e : ExprId) (sc : ScopeId) : Analyse ExprId := do
  let p ← tables
  match thisVar? p sc with
  | none => fail (p.exprs.span e) (.thisOutsideMember "this")
  | some var => settle e (.symbolRef var) (p.variableType var)

def superExpr (e : ExprId) (sc : ScopeId) : Analyse ExprId := do
  let p ← tables
  let place := p.exprs.span e
  match thisVar? p sc with
  | none => fail place (.thisOutsideMember "super")
  | some var =>
    let type := p.variableType var
    match baseClass? p type with
    | none => fail place (.noBaseClass (p.types.text type))
    | some base =>
      let baseType := ((p.symbols.aggregate? base).map (·.type)).getD .error
      let this ← typed (.symbolRef var) place type
      settle e (.cast this baseType) baseType

/-! ## Symbols -/

def memberOfThis (e : ExprId) (s : SymbolId) (type : TypeId) (sc : ScopeId) : Analyse ExprId := do
  let this ← thisExpr (← addExpr .thisRef (← span e)) sc
  if ← isError this then return this
  settle e (.member this s) type

def noteNestedUse (s : SymbolId) (sc : ScopeId) : Analyse Unit := do
  let p ← tables
  match p.currentFunc sc, (p.symbols.var? s).bind (·.owner) with
  | some current, some owner =>
    if owner != current then
      noteVar s .nestedRef
      noteFunc owner (.closureVar s)
      noteFunc current .nestedRefs
  | _, _ => return

/-- The copy of a constant's value that stands in the place of its name, once it was analysed. -/
def manifestValue? (p : Tables) (v : Variable) : Option ExprId := do
  let init ← v.init
  if v.storage.contains .manifest && (p.exprs.type? init).isSome then some init else none

def variableExpr (e : ExprId) (s : SymbolId) (v : Variable) (sc : ScopeId) : Analyse ExprId := do
  let p ← tables
  match manifestValue? p v with
  | some init =>
    let copied ← copyExpr init
    act (.setSpan copied (p.exprs.span e)) done
    return copied
  | none =>
    if v.isField then memberOfThis e s v.type sc
    else
      noteNestedUse s sc
      settle e (.symbolRef s) v.type

def isMethod (p : Tables) (s : SymbolId) (f : Function) : Bool :=
  !f.storage.contains .static && !f.isConstructor &&
    ((p.symbols.symbol s).parent.bind p.symbols.aggregate?).isSome

def functionExpr (e : ExprId) (s : SymbolId) (f : Function) (sc : ScopeId) : Analyse ExprId := do
  let method ← ask fun p => isMethod p s f
  analyseSignature s
  let type ← ask (·.functionType s)
  if method then memberOfThis e s type sc else settle e (.symbolRef s) type

def symbolExpr (e : ExprId) (s : SymbolId) (sc : ScopeId) : Analyse ExprId := do
  match ← ask (·.symbols.kind s) with
  | .enumMember value type =>
    let copied ← analyseExpr (← copyExpr value) sc
    if ← isError copied then return copied
    settle e (.cast copied type) type
  | .var v => variableExpr e s v sc
  | .func f => functionExpr e s f sc
  | .template _ => settle e (.templateRef s) (.ofScalar .void)
  | .aggregate g => settle e (.typeRef g.type) g.type
  | .enumeration n => settle e (.typeRef n.type) n.type
  | .typeAlias type => settle e (.typeRef type) type
  | .module _ | .importModule _ => settle e (.moduleRef s) (.ofScalar .void)

def identifier (e : ExprId) (name : String) (sc : ScopeId) : Analyse ExprId := do
  match (← tables).scopes.search sc name with
  | some (s, _) => symbolExpr e s sc
  | none =>
    let place ← span e
    undefinedIdentifier name sc place
    errorExpr place

def dollar (e : ExprId) (sc : ScopeId) : Analyse ExprId := do
  match (← tables).scopes.search sc "$" with
  | some (s, _) =>
    act (.useLength s) done
    symbolExpr e s sc
  | none => fail (← span e) (.undefinedIdentifier "$" none)

/-! ## Members -/

/-- A member of a base, once it is known. A static member does not need the base. -/
def memberExpr (e base : ExprId) (member : SymbolId) (sc : ScopeId) : Analyse ExprId := do
  match ← ask (·.symbols.kind member) with
  | .var v =>
    if v.storage.contains .static then symbolExpr e member sc
    else settle e (.member base member) v.type
  | .func f =>
    if f.storage.contains .static then symbolExpr e member sc
    else
      analyseSignature member
      settle e (.member base member) (← ask (·.functionType member))
  | _ => symbolExpr e member sc

def initialValue (type : TypeId) (place : Span) : Analyse (Option ExprId) := do
  match ← ask (·.types.baseKind type) with
  | .scalar s =>
    if s.isIntegral then return some (← integer 0 type place)
    else if s.isFloating then return some (← typed (.real .nan (some s)) place type)
    else return none
  | .pointer _ | .dynArray _ | .assocArray _ _ | .classType _ _ | .delegate _ =>
    let null ← typed .null place .null
    return some (← typed (.cast null type) place type)
  | _ => return none

def typeMember? (p : Tables) (type : TypeId) (name : String) : Option SymbolId :=
  match p.types.kind type with
  | .enumType s _ _ =>
    match p.symbols.kind s with
    | .enumeration n => n.members.find? (p.symbols.name · == name)
    | _ => none
  | .structType s _ | .classType s _ => p.symbols.findMember s name
  | _ => none

def typeMember (e : ExprId) (type : TypeId) (name : String) (sc : ScopeId) : Analyse ExprId := do
  let p ← tables
  match typeMember? p type name with
  | some member => symbolExpr e member sc
  | none => fail (p.exprs.span e) (.noProperty name (p.types.text type))

def typeProperty (e : ExprId) (type : TypeId) (name : String) (sc : ScopeId) : Analyse ExprId := do
  let place ← span e
  if name == "sizeof" then integer (← sizeOf type) (← sizeType) place
  else if name == "init" then
    match ← initialValue type place with
    | some init => return init
    | none => typeMember e type name sc
  else typeMember e type name sc

/-- A member of a module. Only the module being analysed can be looked into. -/
def moduleMember (e : ExprId) (s : SymbolId) (name : String) (sc : ScopeId) : Analyse ExprId := do
  let p ← tables
  let member :=
    match p.symbols.kind s with
    | .module members => members.find? (p.symbols.name · == name)
    | _ => none
  match member with
  | some member => symbolExpr e member sc
  | none =>
    fail (p.exprs.span e) (.undefinedIdentifier (p.symbols.name s ++ "." ++ name) none)

def valueMember (e base : ExprId) (name : String) (sc : ScopeId) : Analyse ExprId := do
  let p ← tables
  let place := p.exprs.span e
  let base ←
    match p.baseKindOf base with
    | .pointer next =>
      if (p.types.aggregate? next).isSome then typed (.unary .deref base) place next else pure base
    | _ => pure base
  match ← ask (·.aggregateWith base name) with
  | some member => memberExpr e base member sc
  | none => fail place (.noProperty name (← typeText (← typeOf base)))

def valueProperty (e base : ExprId) (name : String) (sc : ScopeId) : Analyse ExprId := do
  let p ← tables
  let place := p.exprs.span e
  match name, p.baseKindOf base with
  | "length", .staticArray _ length => integer length (← sizeType) place
  | "length", .dynArray _ => settle e (.length base) (← sizeType)
  | "ptr", .staticArray elem _ | "ptr", .dynArray elem =>
    let pointer ← intern (.pointer elem)
    settle e (.cast base pointer) pointer
  | "sizeof", _ => integer (← sizeOf (p.types.base (p.typeOf base))) (← sizeType) place
  | _, _ => valueMember e base name sc

def dot (e base : ExprId) (name : String) (sc : ScopeId) : Analyse ExprId := do
  let base ← analyseExpr base sc
  if ← isError base then return base
  match ← kind base with
  | .typeRef type => typeProperty e type name sc
  | .moduleRef s => moduleMember e s name sc
  | _ =>
    let base ← toValue base sc
    if ← isError base then return base
    valueProperty e base name sc

def knownMember (e base : ExprId) (s : SymbolId) (sc : ScopeId) : Analyse ExprId := do
  let base ← analyseExpr base sc
  if ← isError base then return base
  memberExpr e base s sc

def arrayLength (e operand : ExprId) (sc : ScopeId) : Analyse ExprId := do
  let operand ← analyseExpr operand sc
  if ← isError operand then return operand
  settle e (.length operand) (← sizeType)

/-- A scope in which `$` is the length of an expression, and the variable behind it. -/
def lengthScope (base : ExprId) (sc : ScopeId) : Analyse (ScopeId × SymbolId) := do
  let p ← tables
  let place := p.exprs.span base
  let size ← sizeType
  let inner ← pushScope sc
  let (init, storage) ←
    match p.baseKindOf base with
    | .staticArray _ length => pure (← integer length size place, StorageClass.manifest)
    | .tuple elems => pure (← integer elems.length.toUInt64 size place, StorageClass.manifest)
    | _ => pure (← typed (.length base) place size, StorageClass.none)
  let var ← declareTemp "$" size storage inner place
  noteVar var (.init init)
  return (inner, var)

def usedLength (var : SymbolId) : Analyse (Option SymbolId) := do
  return if (← context).usedLengths.contains var then some var else none

/-! ## Tuples -/

/-- Put the elements of tuples in their place in a list, down to a depth. -/
def expandTuplesWithin (p : Tables) : Nat → List ExprId → List ExprId
  | 0, es => es
  | depth + 1, es => es.flatMap fun e =>
    match p.exprs.kind e with
    | .tuple inner => expandTuplesWithin p depth inner
    | _ => [e]

def expandTuples (p : Tables) (es : List ExprId) : List ExprId :=
  expandTuplesWithin p (p.exprs.size + 1) es

def tupleType (es : List ExprId) : Analyse TypeId := do
  let p ← tables
  intern (.tuple (es.map p.typeOf))

def tupleExpr (e : ExprId) (elems : List ExprId) (sc : ScopeId) : Analyse ExprId := do
  match ← values sc elems with
  | .error fault => return fault
  | .ok elems =>
    let elems ← ask fun p => expandTuples p elems
    settle e (.tuple elems) (← tupleType elems)

def tupleBound (bound : ExprId) (sc : ScopeId) : Analyse (Option UInt64) := do
  let bound ← value bound sc
  if ← isError bound then return none
  match ← ask (·.literal? bound) with
  | some n => return some n
  | none =>
    error (← span bound) (.tupleIndexNotConstant (← text bound))
    return none

def tupleIndex (e tuple : ExprId) (elems : List ExprId) (index : ExprId)
    (sc : ScopeId) : Analyse ExprId := do
  let place ← span e
  let (inner, _) ← lengthScope tuple sc
  match ← tupleBound index inner with
  | none => errorExpr place
  | some n =>
    match elems[n.toNat]? with
    | some elem => return elem
    | none => fail place (.tupleIndexOutOfBounds n elems.length)

def tupleBounds (tuple : ExprId) (length : Nat) (lower upper : Option ExprId)
    (sc : ScopeId) : Analyse (Option (UInt64 × UInt64)) := do
  match lower, upper with
  | some lower, some upper =>
    let (inner, _) ← lengthScope tuple sc
    let lo ← tupleBound lower inner
    let hi ← tupleBound upper inner
    return do some (← lo, ← hi)
  | _, _ => return some (0, length.toUInt64)

def tupleSlice (e tuple : ExprId) (elems : List ExprId)
    (lower upper : Option ExprId) (sc : ScopeId) : Analyse ExprId := do
  let place ← span e
  match ← tupleBounds tuple elems.length lower upper sc with
  | none => errorExpr place
  | some (lo, hi) =>
    if hi < lo || elems.length.toUInt64 < hi then fail place (.tupleSliceOutOfBounds lo hi)
    else
      let picked := (elems.take hi.toNat).drop lo.toNat
      settle e (.tuple picked) (← tupleType picked)

/-! ## Slices -/

def bound (e : ExprId) (sc : ScopeId) : Analyse ExprId := do
  convert (← value e sc) (← sizeType)

/-- The element type of what can be sliced. A pointer needs both bounds. -/
def slicedElement (p : Tables) (base : ExprId) (bounded : Bool) : Except Problem TypeId :=
  match p.baseKindOf base with
  | .pointer next => if bounded then .ok next else .error .pointerSliceWithoutBounds
  | .dynArray next | .staticArray next _ => .ok next
  | _ => .error (.cannotSlice (p.text base))

/-- The upper bound of a slice of a static array that lies behind its end. -/
def sliceOverrun (p : Tables) (base lower upper : ExprId) : Option Problem :=
  match p.baseKindOf base, p.literal? upper with
  | .staticArray _ length, some value =>
    if length < value then
      some (.sliceOutOfBounds ((p.literal? lower).getD 0) value (p.text base) length)
    else none
  | _, _ => none

def boundedSlice (e base lower upper : ExprId) (elem : TypeId) (sc : ScopeId) : Analyse ExprId := do
  let isPointer ← ask fun p => p.types.isPointer (p.typeOf base)
  let (inner, length) ←
    if isPointer then pure (sc, none)
    else
      let (inner, length) ← lengthScope base sc
      pure (inner, some length)
  let lower ← bound lower inner
  let upper ← bound upper inner
  if ← isError lower then return lower
  if ← isError upper then return upper
  let lengthVar ←
    match length with
    | some var => usedLength var
    | none => pure none
  match ← ask fun p => sliceOverrun p base lower upper with
  | some problem => fail (← span e) problem
  | none => settle e (.slice base (some lower) (some upper) lengthVar) (← intern (.dynArray elem))

def slice (e base : ExprId) (lower upper : Option ExprId) (sc : ScopeId) : Analyse ExprId := do
  let base ← value base sc
  if ← isError base then return base
  match ← kind base with
  | .tuple elems => tupleSlice e base elems lower upper sc
  | _ =>
    match ← operatorCall e base "opSlice" (lower.toList ++ upper.toList) sc with
    | some call => return call
    | none =>
      match ← ask fun p => slicedElement p base (lower.isSome && upper.isSome) with
      | .error problem => fail (← span e) problem
      | .ok elem =>
        match lower, upper with
        | some lower, some upper => boundedSlice e base lower upper elem sc
        | _, _ => settle e (.slice base none none none) (← intern (.dynArray elem))

/-! ## Indices -/

def arrayIndex (e base index : ExprId) (elem : TypeId) (sc : ScopeId) : Analyse ExprId := do
  let (inner, length) ← lengthScope base sc
  let index ← bound index inner
  if ← isError index then return index
  let p ← tables
  let overrun :=
    match p.baseKindOf base, p.literal? index with
    | .staticArray _ length, some value =>
      if length ≤ value then some (Problem.indexOutOfBounds value (p.text base) length) else none
    | _, _ => none
  match overrun with
  | some problem => fail (p.exprs.span e) problem
  | none => settle e (.index base index (← usedLength length)) elem

def index (e base place : ExprId) (sc : ScopeId) : Analyse ExprId := do
  let base ← value base sc
  if ← isError base then return base
  match ← kind base with
  | .tuple elems => tupleIndex e base elems place sc
  | _ =>
    match ← operatorCall e base "opIndex" [place] sc with
    | some call => return call
    | none =>
      let p ← tables
      let type := p.types.base (p.typeOf base)
      match p.types.kind type with
      | .assocArray key elem =>
        let place ← convert (← value place sc) key
        if ← isError place then return place
        settle e (.index base place none) elem
      | .pointer next =>
        let place ← bound place sc
        if ← isError place then return place
        settle e (.index base place none) next
      | .dynArray next | .staticArray next _ => arrayIndex e base place next sc
      | _ => fail (p.exprs.span e) (.cannotIndex (p.text base) (p.types.text type))

end DCompiler.Analyse
