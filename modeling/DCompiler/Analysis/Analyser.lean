import DCompiler.Analysis.Assignments
import DCompiler.Analysis.Calls
import DCompiler.Analysis.Declarations
import DCompiler.Analysis.Statements

/-!
# The analyser

Ties the rules together. Each expression is analysed by the rule for its kind, once: an expression
that has a type is left as it is.
-/

namespace DCompiler

namespace Analyse

def exprKind (e : ExprId) (k : Expr) (sc : ScopeId) : Analyse ExprId := do
  match k with
  | .error => setType e .error
  | .integer value suffix => setType e (.ofScalar (integerType value suffix))
  | .real _ suffix => setType e (.ofScalar (suffix.getD .float64))
  | .complex _ _ => setType e (.ofScalar .complex64)
  | .string _ => setType e (← stringType)
  | .null => setType e .null
  | .array elems => arrayLiteral e elems sc
  | .structValue s elems => structValue e s elems sc
  | .identifier name => identifier e name sc
  | .dollar => dollar e sc
  | .thisRef => thisExpr e sc
  | .superRef => superExpr e sc
  | .symbolRef s => symbolExpr e s sc
  | .templateRef _ | .moduleRef _ => setType e (.ofScalar .void)
  | .typeRef type =>
    let type ← resolveType type sc (← span e)
    settle e (.typeRef type) type
  | .tuple elems => tupleExpr e elems sc
  | .dot base name => dot e base name sc
  | .member base s => knownMember e base s sc
  | .unary op operand => unary e op operand sc
  | .binary op lhs rhs => binary e op lhs rhs sc
  | .assign op lhs rhs _ => assign e op lhs rhs sc
  | .comma lhs rhs => comma e lhs rhs sc
  | .cond test yes no => cond e test yes no sc
  | .call callee args => call e callee args sc
  | .cast operand target => castExpr e operand target sc
  | .slice base lower upper _ => slice e base lower upper sc
  | .index base place _ => index e base place sc
  | .length operand => arrayLength e operand sc
  | .funcLiteral s => setType e (← intern (.delegate (← ask (·.functionType s))))
  | .compiles args => compiles e args sc
  | .typeid type =>
    let type ← resolveType type sc (← span e)
    settle e (.typeid type) .typeInfo
  | .declaration s => setType e (← ask (·.variableType s))

def expression (e : ExprId) (sc : ScopeId) : Analyse ExprId := do
  match ← ask (·.exprs.nodes[e.index]?) with
  | none => endless
  | some node =>
    match node.type with
    | some _ => return e
    | none => exprKind e node.kind sc

end Analyse

def analyser : Nat → Analyser
  | 0 => ⟨fun _ _ => none⟩
  | depth + 1 => ⟨fun
    | .expr e sc => (Analyse.expression e sc).run (analyser depth)
    | .stmt s sc => (Analyse.statement s sc).run (analyser depth)
    | .signature s => Pass.signature (analyser depth) s
    | .body s => Pass.body (analyser depth) s
    | .arrayOp e => Pass.arrayOp (analyser depth) e⟩

namespace Program

/-- How deep rules may call each other. No source text that fits into memory comes near it. -/
def analysisDepth : Nat := 2 ^ 32

def analyseModule (p : Program) (m : ModuleDecl) : Option (SymbolId × Program) := do
  let (symbol, a) ← (Analyse.analyseModule m).run (analyser analysisDepth) (.ofProgram p)
  return (symbol, a.toProgram)

def analyseExpr (p : Program) (e : ExprId) (sc : ScopeId) : Option (ExprId × Program) := do
  let (result, a) ← (analyser analysisDepth).answer (.expr e sc) (.ofProgram p)
  return (result, a.toProgram)

/-- The type that a text names in the outermost scope; the error type if it names none. -/
def readType (p : Program) (text : String) : TypeId × Program :=
  match p.read (·.readExpr ("typeid(" ++ text ++ ")")) with
  | .error _ => (.error, p)
  | .ok (e, p) =>
    match p.analyseExpr e ⟨0⟩ with
    | none => (.error, p)
    | some (e, p) =>
      match p.exprs.kind e with
      | .typeid type => (type, p)
      | _ => (.error, p)

end Program

end DCompiler
