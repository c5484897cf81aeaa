import DCompiler.Analysis.ElementWise
import DCompiler.Analysis.Operators

/-!
# Assignments

An assignment to a slice is an array operation, a fill with one value, or a copy. An assignment to
a function calls it with the value, and one to an element of a struct or class may call an operator
member.
-/

namespace DCompiler.Analyse

/-- An assignment to an index or slice as a call of an operator member, if there is one. The base
is analysed in any case. -/
def indexedAssign (e lhs rhs : ExprId) (sc : ScopeId) : Analyse (Option ExprId) := do
  let p ← tables
  let call (base : ExprId) (name : String) (extra : List ExprId) (withBase : ExprId → Expr) :
      Analyse (Option ExprId) := do
    if (p.exprs.type? lhs).isSome then return none
    let base ← analyseExpr base sc
    if (← ask (·.exprs.type? lhs)).isNone then setKind lhs (withBase base)
    if ← isError base then return none
    operatorCall e base name (rhs :: extra) sc
  match p.exprs.kind lhs with
  | .index base place var => call base "opIndexAssign" [place] (.index · place var)
  | .slice base lower upper var =>
    call base "opSliceAssign" (lower.toList ++ upper.toList) (.slice · lower upper var)
  | _ => return none

def propertyAssign (e lhs rhs : ExprId) (sc : ScopeId) : Analyse (Option ExprId) := do
  let p ← tables
  match p.exprs.kind lhs with
  | .symbolRef s | .member _ s =>
    if p.isFunction s then
      return some (← analyseExpr (← addExpr (.call lhs [rhs]) (p.exprs.span e)) sc)
    else return none
  | _ => return none

/-! ## Tuples -/

/-- Assign parts of tuples up to the first error, which is given instead. -/
def assignParts (op : AssignOp) (place : Span) (sc : ScopeId) :
    List (ExprId × ExprId) → Analyse (Except ExprId (List ExprId))
  | [] => return .ok []
  | (lhs, rhs) :: rest => do
    let part ← analyseExpr (← addExpr (.assign op lhs rhs false) place) sc
    if ← isError part then return .error part
    return (← assignParts op place sc rest).map (part :: ·)

def tupleAssign (e : ExprId) (op : AssignOp) (targets sources : List ExprId)
    (sc : ScopeId) : Analyse ExprId := do
  let place ← span e
  if targets.length != sources.length then
    fail place (.tupleLengths targets.length sources.length)
  else
    match ← assignParts op place sc (targets.zip sources) with
    | .error fault => return fault
    | .ok parts =>
      let p ← tables
      settle e (.tuple parts) (← intern (.tuple (parts.map p.typeOf)))

/-! ## Arrays -/

def sliceAssign (e : ExprId) (op : AssignOp) (lhs rhs : ExprId) : Analyse ExprId := do
  let p ← tables
  let type := p.typeOf lhs
  let store (target : TypeId) (fill : Bool) : Analyse ExprId := do
    let rhs ← convert rhs target
    if ← isError rhs then return rhs
    settle e (.assign op lhs rhs fill) type
  match op with
  | .compound bin =>
    if bin.isElementwise then arrayOp (← setType e type)
    else fail (p.exprs.span e) (.invalidArrayOperation (p.text e))
  | .plain =>
    if p.isArrayOperation rhs then arrayOp (← setType e type)
    else if p.isArray rhs || p.exprs.kind rhs == .null then store type false
    else store ((p.types.element? type).getD .error) true

/-- What is wrong with an assignment to an array that is not written as a slice, if anything. -/
def bareArrayProblem (p : Tables) (e : ExprId) (op : AssignOp) (lhs rhs : ExprId) :
    Option Problem :=
  match op with
  | .compound _ => some (.invalidArrayOperation (p.text e))
  | .plain =>
    if p.isArrayOperation rhs then some (.arrayOperationWithoutDestination (p.text rhs))
    else
      let base := p.types.base (p.typeOf lhs)
      match p.types.kind base with
      | .staticArray _ _ =>
        if !p.isArray rhs && !p.convertsTo rhs base then some (.staticArrayAssigned (p.text lhs))
        else none
      | _ => none

/-! ## Values -/

def compoundOperand (e : ExprId) (op : BinaryOp) (lhs rhs : ExprId) : Analyse (Option ExprId) := do
  let p ← tables
  let place := p.exprs.span e
  let t1 := p.types.base (p.typeOf lhs)
  let t2 := p.types.base (p.typeOf rhs)
  let arithmetic : Analyse (Option ExprId) := do
    match p.types.scalar? t1, p.types.scalar? t2 with
    | some s1, some s2 =>
      match nonIntegral? op lhs s1 rhs s2 with
      | some (operand, s) =>
        error place (.notIntegral (p.text operand) s.name)
        return none
      | none =>
        if op.isShift then return some rhs
        match s1.combine s2 with
        | none => return none
        | some combined => return some (← castTo rhs (.ofScalar combined.rhs))
    | _, _ =>
      error place (.incompatibleOperands (p.text lhs) (op.symbol ++ "=") (p.text rhs)
        (p.types.text t1) (p.types.text t2))
      return none
  match p.types.kind t1 with
  | .pointer next =>
    if (op = .add || op = .sub) && p.types.isIntegral t2 then
      return some (← scaleIndex rhs next)
    else arithmetic
  | _ => arithmetic

def compoundMember (e : ExprId) (op : AssignOp) (lhs rhs : ExprId) (sc : ScopeId) :
    Analyse (Option ExprId) := do
  match op with
  | .plain => return none
  | .compound bin =>
    if (← ask (·.aggregateWith lhs "opOpAssign")).isSome then
      let spelling ← addExpr (.string bin.symbol) (← span e)
      operatorCall e lhs "opOpAssign" [spelling, rhs] sc
    else return none

def scalarAssign (e : ExprId) (op : AssignOp) (lhs rhs : ExprId) : Analyse ExprId := do
  let type ← typeOf lhs
  let lhs ← modifiable lhs
  if ← isError lhs then return lhs
  let rhs ←
    match op with
    | .plain => pure (some (← convert rhs type))
    | .compound bin => compoundOperand e bin lhs rhs
  match rhs with
  | none => errorExpr (← span e)
  | some rhs =>
    if ← isError rhs then return rhs
    settle e (.assign op lhs rhs false) type

def assignValue (e : ExprId) (op : AssignOp) (lhs rhs : ExprId) (sc : ScopeId) :
    Analyse ExprId := do
  setKind e (.assign op lhs rhs false)
  let p ← tables
  match p.exprs.kind lhs, p.exprs.kind rhs with
  | .tuple targets, .tuple sources => tupleAssign e op targets sources sc
  | .slice _ _ _ _, _ => sliceAssign e op lhs rhs
  | .length _, _ =>
    let size ← sizeType
    settle e (.assign op lhs (← convert rhs size) false) size
  | _, _ =>
    let problem := if p.isArray lhs then bareArrayProblem p e op lhs rhs else none
    match problem with
    | some problem => fail (p.exprs.span e) problem
    | none =>
      match ← compoundMember e op lhs rhs sc with
      | some call => return call
      | none => scalarAssign e op lhs rhs

def simpleAssign (e : ExprId) (op : AssignOp) (lhs rhs : ExprId) (sc : ScopeId) :
    Analyse ExprId := do
  let called ← if op = .plain then indexedAssign e lhs rhs sc else pure none
  match called with
  | some call => return call
  | none =>
    let lhs ← analyseExpr lhs sc
    if ← isError lhs then return lhs
    let called ← if op = .plain then propertyAssign e lhs rhs sc else pure none
    match called with
    | some call => return call
    | none =>
      let lhs ← checkValue lhs
      let rhs ← value rhs sc
      if ← isError lhs then return lhs
      if ← isError rhs then return rhs
      assignValue e op lhs rhs sc

/-- An assignment. When the right side is a comma expression, only its last part is assigned. -/
def assign (e : ExprId) (op : AssignOp) (lhs rhs : ExprId) (sc : ScopeId) : Analyse ExprId := do
  let p ← tables
  match p.exprs.kind rhs, p.exprs.type? rhs with
  | .comma first last, none =>
    let place := p.exprs.span e
    let inner ← addExpr (.assign op lhs last false) place
    analyseExpr (← addExpr (.comma first inner) place) sc
  | _, _ => simpleAssign e op lhs rhs sc

end DCompiler.Analyse
