import DCompiler.Analysis.Values

/-!
# Operators

Arithmetic converts both sides to their common type. An operator on arrays is checked here and
carried out where a slice receives it.
-/

namespace DCompiler.Analyse

def incompatible (e : ExprId) (op : String) (lhs rhs : ExprId) : Analyse ExprId := do
  let p ← tables
  fail (p.exprs.span e)
    (.incompatibleOperands (p.text lhs) op (p.text rhs) (p.types.text (p.typeOf lhs))
      (p.types.text (p.typeOf rhs)))

/-! ## Arrays and members -/

/-- Give an operator on arrays its type, where `array` is the type of the array operand. -/
def arrayOperation (e : ExprId) (array : TypeId) : Analyse ExprId := do
  let place ← span e
  let elem ← ask fun p => (p.types.next? array).getD .error
  if ← ask (·.types.isVoid elem) then fail place .voidArrayOperation
  else
    let e ← setType e (← intern (.dynArray elem))
    if ← ask (·.isArrayOpValid e) then return e
    else fail place (.invalidArrayOperation (← text e))

/-- Call an operator function of a struct or class with the operator's spelling and what follows. -/
def spelledOperatorCall (e base : ExprId) (name spelling : String)
    (args : List ExprId) (sc : ScopeId) : Analyse ExprId := do
  let place ← span e
  let callee ← addExpr (.dot base name) place
  let op ← addExpr (.string spelling) place
  analyseExpr (← addExpr (.call callee (op :: args)) place) sc

def binaryMember (e : ExprId) (op : BinaryOp) (lhs rhs : ExprId) (sc : ScopeId) :
    Analyse (Option ExprId) := do
  let p ← tables
  match p.aggregateWith lhs "opBinary" with
  | some member =>
    if !op.isLogical && p.isFunction member then
      return some (← spelledOperatorCall e lhs "opBinary" op.symbol [rhs] sc)
    else return none
  | none => return none

/-! ## Comparisons -/

def comparable (p : Tables) (op : BinaryOp) (lhs rhs : ExprId) : Bool :=
  let t1 := p.types.base (p.typeOf lhs)
  let t2 := p.types.base (p.typeOf rhs)
  match p.types.kind t1, p.types.kind t2 with
  | .null, _ | _, .null => true
  | .dynArray _, .dynArray _ | .dynArray _, .staticArray _ _ | .staticArray _ _, .dynArray _
  | .staticArray _ _, .staticArray _ _ => p.types.next? t1 == p.types.next? t2
  | .pointer _, .pointer _ | .classType _ _, .classType _ _ =>
    p.convertsTo lhs t2 || p.convertsTo rhs t1
  | .structType _ _, .structType _ _ => t1 == t2 && (op == .eq || op == .ne)
  | .delegate _, .delegate _ => t1 == t2
  | _, _ => false

def comparison (e : ExprId) (op : BinaryOp) (lhs rhs : ExprId) : Analyse ExprId := do
  let p ← tables
  match p.types.scalar? (p.typeOf lhs), p.types.scalar? (p.typeOf rhs) with
  | some s1, some s2 =>
    match s1.combine s2 with
    | none => incompatible e op.symbol lhs rhs
    | some combined =>
      let lhs ← castTo lhs (.ofScalar combined.lhs)
      let rhs ← castTo rhs (.ofScalar combined.rhs)
      settle e (.binary op lhs rhs) (.ofScalar .bool)
  | _, _ =>
    if comparable p op lhs rhs then setType e (.ofScalar .bool)
    else incompatible e op.symbol lhs rhs

/-! ## Pointers -/

def scaleIndex (index : ExprId) (elem : TypeId) : Analyse ExprId := do
  let sizeType ← sizeType
  let index ← castTo index sizeType
  let size ← sizeOf elem
  if size ≤ 1 then return index
  let place ← span index
  match ← ask (·.literal? index) with
  | some n => integer (n * size) sizeType place
  | none =>
    let size ← integer size sizeType place
    typed (.binary .mul index size) place sizeType

def pointerDifference (e lhs rhs : ExprId) (elem : TypeId) : Analyse ExprId := do
  let place ← span e
  let type ← ask (·.options.target.differenceType)
  let difference ← typed (.binary .sub lhs rhs) place type
  let size := max (← sizeOf elem) 1
  if size = 1 then settle e (.binary .sub lhs rhs) type
  else
    let size ← integer size type place
    settle e (.binary .div difference size) type

def pointerArithmetic (e : ExprId) (op : BinaryOp) (lhs rhs : ExprId) :
    Analyse (Option ExprId) := do
  let p ← tables
  let t1 := p.types.base (p.typeOf lhs)
  let t2 := p.types.base (p.typeOf rhs)
  match p.types.kind t1, p.types.kind t2 with
  | .pointer a, .pointer b =>
    if op = .sub then
      if a = b then return some (← pointerDifference e lhs rhs a)
      else return some (← incompatible e op.symbol lhs rhs)
    else return some (← incompatible e op.symbol lhs rhs)
  | .pointer next, _ =>
    if p.types.isIntegral t2 then
      let rhs ← scaleIndex rhs next
      return some (← settle e (.binary op lhs rhs) t1)
    else return some (← incompatible e op.symbol lhs rhs)
  | _, .pointer next =>
    if op = .add && p.types.isIntegral t1 then
      let lhs ← scaleIndex lhs next
      return some (← settle e (.binary op lhs rhs) t2)
    else return some (← incompatible e op.symbol lhs rhs)
  | _, _ => return none

/-! ## Arithmetic -/

/-- The result of an operator on real and imaginary operands where it is not their common type. A
sum of both kinds is complex; a product or quotient is imaginary if one side is, and real if both
are. -/
def mixedResult (op : BinaryOp) (s1 s2 : Scalar) : Option Scalar := do
  let precision ← s1.widerPrecision s2
  let isReal (s : Scalar) : Bool := s.isReal || s.isIntegral
  let mixed := (isReal s1 && s2.isImaginary) || (s1.isImaginary && isReal s2)
  match op with
  | .add | .sub => if mixed then some (Scalar.complexOf precision) else none
  | .mul | .div =>
    if s1.isImaginary && s2.isImaginary then some (Scalar.realOf precision)
    else if mixed then some (Scalar.imaginaryOf precision)
    else none
  | _ => none

/-- The first operand that is not integral though the operator needs that. -/
def nonIntegral? (op : BinaryOp) (lhs : ExprId) (s1 : Scalar) (rhs : ExprId) (s2 : Scalar) :
    Option (ExprId × Scalar) :=
  if !(op.isBitwise || op.isShift) then none
  else if !s1.isIntegral then some (lhs, s1)
  else if !s2.isIntegral then some (rhs, s2)
  else none

def arithmetic (e : ExprId) (op : BinaryOp) (lhs rhs : ExprId) : Analyse ExprId := do
  let p ← tables
  match p.types.scalar? (p.typeOf lhs), p.types.scalar? (p.typeOf rhs) with
  | some s1, some s2 =>
    match nonIntegral? op lhs s1 rhs s2 with
    | some (operand, s) => fail (p.exprs.span operand) (.notIntegral (p.text operand) s.name)
    | none =>
      if op.isShift then
        let type := TypeId.ofScalar s1.promote
        let lhs ← castTo lhs type
        settle e (.binary op lhs rhs) type
      else
        match s1.combine s2 with
        | none => incompatible e op.symbol lhs rhs
        | some combined =>
          let lhs ← castTo lhs (.ofScalar combined.lhs)
          let rhs ← castTo rhs (.ofScalar combined.rhs)
          settle e (.binary op lhs rhs) (.ofScalar ((mixedResult op s1 s2).getD combined.result))
  | _, _ => incompatible e op.symbol lhs rhs

def logical (e : ExprId) (op : BinaryOp) (lhs rhs : ExprId) (sc : ScopeId) : Analyse ExprId := do
  let lhs ← condition lhs sc
  let rhs ← condition rhs sc
  if ← isError lhs then return lhs
  if ← isError rhs then return rhs
  settle e (.binary op lhs rhs) (.ofScalar .bool)

def plainBinary (e : ExprId) (op : BinaryOp) (lhs rhs : ExprId) (sc : ScopeId) :
    Analyse ExprId := do
  let p ← tables
  if op.isLogical then logical e op lhs rhs sc
  else if op.isComparison then comparison e op lhs rhs
  else if op.isElementwise && p.isArray lhs then arrayOperation e (p.typeOf lhs)
  else if op.isElementwise && p.isArray rhs then arrayOperation e (p.typeOf rhs)
  else if op = .add || op = .sub then
    match ← pointerArithmetic e op lhs rhs with
    | some result => return result
    | none => arithmetic e op lhs rhs
  else arithmetic e op lhs rhs

def binary (e : ExprId) (op : BinaryOp) (lhs rhs : ExprId) (sc : ScopeId) : Analyse ExprId := do
  let lhs ← value lhs sc
  let rhs ← value rhs sc
  if ← isError lhs then return lhs
  if ← isError rhs then return rhs
  setKind e (.binary op lhs rhs)
  match ← binaryMember e op lhs rhs sc with
  | some call => return call
  | none => plainBinary e op lhs rhs sc

/-! ## Prefix operators -/

def foldedUnary (op : UnaryOp) (s : Scalar) : Expr → Option Expr
  | .integer value _ =>
    let result := if op = .neg then 0 - value else ~~~value
    some (.integer (s.promote.normalize result) (some s.promote))
  | .real value suffix => if op = .neg then some (.real value.neg suffix) else none
  | _ => none

def scalarUnary (e : ExprId) (op : UnaryOp) (operand : ExprId) (s : Scalar) : Analyse ExprId := do
  let type := TypeId.ofScalar (if s.isIntegral then s.promote else s)
  let operand ← castTo operand type
  let folded := foldedUnary op s (← kind operand)
  settle e (folded.getD (.unary op operand)) type

def negation (e : ExprId) (op : UnaryOp) (operand : ExprId) (sc : ScopeId) : Analyse ExprId := do
  let p ← tables
  let place := p.exprs.span e
  let type := p.types.base (p.typeOf operand)
  if p.types.isArray type then arrayOperation e type
  else if (p.aggregateWith operand "opUnary").isSome then
    spelledOperatorCall e operand "opUnary" op.symbol [] sc
  else
    match (p.types.scalar? type).filter Scalar.isArithmetic with
    | none => fail place (.notArithmetic (p.text operand) (p.types.text type))
    | some s =>
      if op = .complement && !s.isIntegral then
        fail place (.notIntegral (p.text operand) s.name)
      else scalarUnary e op operand s

def dereference (e operand : ExprId) : Analyse ExprId := do
  let p ← tables
  let type := p.types.base (p.typeOf operand)
  match p.types.kind type with
  | .pointer next => setType e next
  | _ => fail (p.exprs.span e) (.derefOfNonPointer (p.types.text type))

def addressOf (e operand : ExprId) : Analyse ExprId := do
  let p ← tables
  let type := p.typeOf operand
  let address (k : TypeKind) : Analyse ExprId := do
    settle e (.unary .addressOf operand) (← intern k)
  let place : Analyse ExprId :=
    if p.isLvalue operand then address (.pointer type)
    else fail (p.exprs.span e) (.notLvalue (p.text operand))
  match p.exprs.kind operand with
  | .symbolRef s =>
    match p.symbols.func? s with
    | some f =>
      noteFunc s .addressTaken
      address (if f.isNested then .delegate type else .pointer type)
    | none =>
      if p.isLvalue operand then noteVar s .addressTaken
      place
  | .member _ s => if p.isFunction s then address (.delegate type) else place
  | _ => place

def unary (e : ExprId) (op : UnaryOp) (operand : ExprId) (sc : ScopeId) : Analyse ExprId := do
  let operand ← analyseExpr operand sc
  if op = .addressOf then
    if ← isError operand then return operand
    addressOf e operand
  else
    let operand ← toValue operand sc
    if ← isError operand then return operand
    setKind e (.unary op operand)
    match op with
    | .not =>
      let operand ← condition operand sc
      if ← isError operand then return operand
      settle e (.unary op operand) (.ofScalar .bool)
    | .deref => dereference e operand
    | _ => negation e op operand sc

/-! ## Comma and choice -/

def comma (e lhs rhs : ExprId) (sc : ScopeId) : Analyse ExprId := do
  let lhs ← analyseExpr lhs sc
  let rhs ← value rhs sc
  if ← isError lhs then return lhs
  if ← isError rhs then return rhs
  settle e (.comma lhs rhs) (← typeOf rhs)

def choiceType (p : Tables) (yes no : ExprId) : Option TypeId :=
  let t1 := p.typeOf yes
  let t2 := p.typeOf no
  let combined := do (← p.types.scalar? t1).combine (← p.types.scalar? t2)
  if t1 = t2 then some t1
  else
    match combined with
    | some c => some (.ofScalar c.result)
    | none =>
      if p.convertsTo no t1 then some t1
      else if p.convertsTo yes t2 then some t2
      else none

def cond (e test yes no : ExprId) (sc : ScopeId) : Analyse ExprId := do
  let test ← condition test sc
  let yes ← value yes sc
  let no ← value no sc
  if ← isError test then return test
  if ← isError yes then return yes
  if ← isError no then return no
  match ← ask fun p => choiceType p yes no with
  | none => incompatible e ":" yes no
  | some type =>
    let yes ← convert yes type
    let no ← convert no type
    settle e (.cond test yes no) type

end DCompiler.Analyse
