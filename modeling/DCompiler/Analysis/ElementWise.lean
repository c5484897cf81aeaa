import DCompiler.Analysis.Values

/-!
# Element-wise array operations

An assignment of an array operation to a slice becomes a call. The name of the called function
spells the operation: operands and operators in the order in which they are evaluated, and the
element type at the end. The function is made when its name first comes up; its body applies the
operation to the elements one by one. When the support library has a routine of the name, calls go
there instead.
-/

namespace DCompiler.Analyse

structure ArrayOperand where
  expr : ExprId
  param : Param
  deriving Repr, DecidableEq, Inhabited

/-- The spelling of an operation and its operands, the last one first. -/
structure ArrayOpParts where
  spelling : String := ""
  operands : List ArrayOperand := []
  deriving Repr, DecidableEq, Inhabited

namespace ArrayOpParts

def spell (parts : ArrayOpParts) (word : String) : ArrayOpParts :=
  { parts with spelling := parts.spelling ++ word }

/-- Add an operand; its parameter is named by a letter and by its number. -/
def operand (parts : ArrayOpParts) (word letter : String) (e : ExprId) (type : TypeId)
    (storage : StorageClass) : ArrayOpParts :=
  let name := letter ++ toString parts.operands.length
  { parts.spell word with operands := ⟨e, ⟨type, storage, some name, none⟩⟩ :: parts.operands }

def writable (parts : ArrayOpParts) : ArrayOpParts :=
  match parts.operands with
  | [] => parts
  | o :: rest =>
    { parts with operands := { o with param := { o.param with storage := .none } } :: rest }

end ArrayOpParts

def assignWord : AssignOp → String
  | .plain => "Assign"
  | .compound op => op.arrayName?.getD "" ++ "ass"

/-- An array operation as it is taken apart. A cast between arrays leaves no trace. -/
inductive ArrayOpNode where
  | cast (operand : ExprId)
  | slice
  | assign (op : AssignOp) (lhs rhs : ExprId)
  | binary (op : BinaryOp) (lhs rhs : ExprId)
  | unary (op : UnaryOp) (operand : ExprId)
  | plain
  deriving Repr, DecidableEq, Inhabited

def arrayOpNode (p : Tables) (e : ExprId) : ArrayOpNode :=
  match p.exprs.kind e with
  | .slice _ _ _ _ | .array _ => .slice
  | .assign op lhs rhs _ => .assign op lhs rhs
  | kind =>
    if !p.isArray e then .plain
    else
      match kind with
      | .cast operand _ => .cast operand
      | .binary op lhs rhs => if op.isElementwise then .binary op lhs rhs else .plain
      | .unary .neg operand => .unary .neg operand
      | .unary .complement operand => .unary .complement operand
      | _ => .plain

/-- Spell an operation of a depth. An assignment evaluates its right side first. -/
def arrayOpParts (p : Tables) : Nat → ExprId → ArrayOpParts → ArrayOpParts
  | 0, _, parts => parts
  | depth + 1, e, parts =>
    match arrayOpNode p e with
    | .cast operand => arrayOpParts p depth operand parts
    | .slice => parts.operand "Slice" "p" e (p.typeOf e) .const
    | .assign op lhs rhs =>
      let parts := arrayOpParts p depth lhs (arrayOpParts p depth rhs parts)
      (parts.spell (assignWord op)).writable
    | .binary op lhs rhs =>
      let parts := arrayOpParts p depth rhs (arrayOpParts p depth lhs parts)
      parts.spell (op.arrayName?.getD "")
    | .unary op operand =>
      (arrayOpParts p depth operand parts).spell (if op = .neg then "Neg" else "Com")
    | .plain => parts.operand "Exp" "c" e (p.typeOf e) .none

def partsOf (p : Tables) (e : ExprId) : ArrayOpParts := arrayOpParts p (p.exprs.size + 1) e {}

def elementOf? (p : Tables) (e : ExprId) : Option TypeId :=
  (p.types.next? (p.typeOf e)).map p.types.base

def operationName (p : Tables) (e : ExprId) : String :=
  arrayOpName (partsOf p e).spelling (p.types.mangle ((elementOf? p e).getD .error))

/-! ## The body -/

def elementCast (v target source : ExprId) (place : Span) : Analyse ExprId := do
  let p ← tables
  let sourceType := p.typeOf source
  match p.types.next? (p.typeOf target) with
  | none => return v
  | some elem =>
    if (p.types.next? sourceType).getD sourceType = elem then return v
    else addExpr (.cast v elem) place

/-- The operation on one element, and the number of operands after it; `count` is the number
before. -/
def elementExpr (place : Span) : Nat → ExprId → Nat → Analyse (ExprId × Nat)
  | 0, e, count => return (e, count)
  | depth + 1, e, count => do
    match ← ask fun p => arrayOpNode p e with
    | .cast operand => elementExpr place depth operand count
    | .slice =>
      let array ← addExpr (.identifier ("p" ++ toString count)) place
      let index ← addExpr (.identifier "p") place
      return (← addExpr (.index array index none) place, count + 1)
    | .assign op lhs rhs =>
      let (v, count) ← elementExpr place depth rhs count
      let (target, count) ← elementExpr place depth lhs count
      let v ← if op = .plain then elementCast v lhs rhs place else pure v
      return (← addExpr (.assign op target v false) place, count)
    | .binary op lhs rhs =>
      let (lhs, count) ← elementExpr place depth lhs count
      let (rhs, count) ← elementExpr place depth rhs count
      return (← addExpr (.binary op lhs rhs) place, count)
    | .unary op operand =>
      let (operand, count) ← elementExpr place depth operand count
      return (← addExpr (.unary op operand) place, count)
    | .plain => return (← addExpr (.identifier ("c" ++ toString count)) place, count + 1)

/-- The body of the function: a loop over the elements of the first parameter, which is
returned. -/
def arrayOpBody (first : String) (element : ExprId) (place : Span) : Analyse StmtId := do
  let zero ← addExpr (.integer 0 none) place
  let array ← addExpr (.identifier first) place
  let length ← addExpr (.length array) place
  let step ← addStmt (.expr element) place
  let loop ← addStmt (.foreachRange "p" zero length step none) place
  let result ← addExpr (.identifier first) place
  let ret ← addStmt (.ret (some result)) place
  let block ← addStmt (.block [loop, ret]) place
  addStmt (.scope block) place

def addToModule (s : SymbolId) : Analyse Unit := do
  match (← context).module with
  | none => return
  | some m => act (.note m (.member s)) done

def makeArrayOp (name : String) (result : TypeId) (params : List Param)
    (element : ExprId) (place : Span) : Analyse ArrayOpEntry := do
  let first := ((params.head?).bind (·.name)).getD ""
  let type ← intern (.function ⟨params, result, .none, .c⟩)
  let body ← arrayOpBody first element place
  let scope ← globalScope
  let made ← addSymbol name place
    (.func { type := type, storage := .exported, isArrayOp := true, body := some body,
             declScope := some scope })
    (← context).module
  addToModule made
  let (_, failed) ← gagged do
    analyseSignature made
    analyseBody made
  let runtime ←
    if isArrayRoutine name then
      let stub ← addSymbol name place
        (.func { type := type, storage := .exported ||| .external, isArrayOp := true,
                 progress := .bodyDone })
        (← context).module
      pure (some stub)
    else pure none
  return ⟨runtime, if failed then none else some made⟩

/-! ## Calls -/

def elementProblem (p : Tables) (e : ExprId) (elem : TypeId) : Option Problem :=
  match p.types.aggregate? elem with
  | some aggregate =>
    if (p.symbols.findMember aggregate "opBinary").isSome then none
    else some (.elementWithoutOperators (p.text e) (p.types.text elem))
  | none =>
    if !p.types.isScalar elem then some (.elementNotScalar (p.text e) (p.types.text elem))
    else if !p.types.isArithmetic elem then
      some (.elementNotArithmetic (p.text e) (p.types.text elem))
    else none

def arrayOpProblem (p : Tables) (e : ExprId) (elem : TypeId) : Option Problem :=
  let valid :=
    match p.exprs.kind e with
    | .assign _ _ rhs _ | .binary _ _ rhs => p.isArrayOpValid rhs
    | _ => true
  if p.types.isVoid elem then some .voidArrayOperation
  else if !valid then some (.invalidArrayOperation (p.text e))
  else elementProblem p e elem

def buildArrayOp (name : String) (e : ExprId) (params : List Param) : Analyse ArrayOpEntry := do
  let p ← tables
  let place := p.exprs.span e
  let (element, _) ← elementExpr place (p.exprs.size + 1) e 0
  makeArrayOp name (p.typeOf e) params element place

def arrayOpEntry (e : ExprId) : Analyse ArrayOpEntry := request (.arrayOp e) done

def arrayOp (e : ExprId) : Analyse ExprId := do
  let p ← tables
  let place := p.exprs.span e
  match elementOf? p e with
  | none => errorExpr place
  | some elem =>
    match arrayOpProblem p e elem with
    | some problem => fail place problem
    | none =>
      let entry ← arrayOpEntry e
      match entry.callee with
      | none => fail place (.unsupportedArrayOperation (← text e) (← typeText elem))
      | some func =>
        let callee ← typed (.symbolRef func) place (← ask (·.functionType func))
        typed (.call callee ((partsOf p e).operands.map (·.expr))) place (p.typeOf e)

end DCompiler.Analyse

namespace DCompiler

def Analysis.recordArrayOp (s : Analysis) (name : String) (entry : ArrayOpEntry) : Analysis :=
  { s with arrayOps := s.arrayOps.insert name entry }

/-- The functions behind the name of an array operation, made when there are none. -/
def Pass.arrayOp (h : Analyser) (e : ExprId) : Pass ArrayOpEntry := do
  let p := (← get).toTables
  let name := Analyse.operationName p e
  match p.arrayOps.get? name with
  | some entry => return entry
  | none =>
    let params := (Analyse.partsOf p e).operands.map (·.param)
    let entry ← (Analyse.buildArrayOp name e params).run h
    modify (·.recordArrayOp name entry)
    return entry

end DCompiler
