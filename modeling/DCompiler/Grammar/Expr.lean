import DCompiler.Grammar.Types

/-!
# Expressions

From the tightest to the loosest: primaries, accesses behind them, powers, prefix operators, binary
operators by precedence, conditionals, assignments, commas.
-/

namespace DCompiler.Grammar

def atom (e : Expr) : Parser ExprId := do
  addExpr e (← advance)

def nameExpr (name : String) : Expr :=
  match Scalar.ofName? name with
  | some s => .typeRef (.ofScalar s)
  | none => .identifier name

def primary (g : Rules) : Parser ExprId := do
  let start ← here
  match ← peek with
  | .intLiteral =>
    let text ← text
    match integerLiteral? text with
    | some (value, suffix) => atom (.integer value suffix)
    | none => fail (.integerOverflow text)
  | .floatLiteral =>
    let text ← text
    match floatingLiteral? text with
    | some (value, suffix) => atom (.real value suffix)
    | none => fail (.invalidFloating text)
  | .charLiteral => atom (.integer (characterLiteral (← text)) (some .char))
  | .stringLiteral => atom (.string (Text.unescape (← text)))
  | .kwTrue => atom (.integer 1 (some .bool))
  | .kwFalse => atom (.integer 0 (some .bool))
  | .kwNull => atom .null
  | .kwThis => atom .thisRef
  | .kwSuper => atom .superRef
  | .dollar => atom .dollar
  | .ident => atom (nameExpr (← text))
  | .lParen =>
    let _ ← advance
    let inner ← g.expr
    let _ ← expect .rParen "`)`"
    return inner
  | .lBracket =>
    let _ ← advance
    let elems ← g.arguments .rBracket
    addExprFrom start (.array elems)
  | .kwTraits =>
    let _ ← advance
    let _ ← expect .lParen "`(`"
    let (name, _) ← identifier
    if name != "compiles" then fail (.unknownTrait name)
    let args ← g.traitArguments
    let _ ← expect .rParen "`)`"
    addExprFrom start (.compiles args)
  | .kwTypeid =>
    let _ ← advance
    let _ ← expect .lParen "`(`"
    let type ← wholeType g
    let _ ← expect .rParen "`)`"
    addExprFrom start (.typeid type)
  | _ => failAtWord Fault.expressionExpected

def bracketAccess (g : Rules) (base : ExprId) : Parser Expr := do
  if ← eat .rBracket then return .slice base none none none
  let first ← g.assign
  if ← eat .dotDot then
    let upper ← g.assign
    let _ ← expect .rBracket "`]`"
    return .slice base (some first) (some upper) none
  let _ ← expect .rBracket "`]`"
  return .index base first none

def accessTail (g : Rules) (base : ExprId) : Parser ExprId := do
  let start ← spanOf base
  match ← peek with
  | .dot =>
    let _ ← advance
    let (name, _) ← identifier
    g.accessTail (← addExprFrom start (.dot base name))
  | .lParen =>
    let _ ← advance
    let args ← g.arguments .rParen
    g.accessTail (← addExprFrom start (.call base args))
  | .lBracket =>
    let _ ← advance
    let access ← bracketAccess g base
    g.accessTail (← addExprFrom start access)
  | _ => return base

/-- A power; its right side may start with a prefix operator. -/
def power (g : Rules) : Parser ExprId := do
  let lhs ← g.accessTail (← primary g)
  if ← eat .caretCaret then
    let rhs ← g.unary
    addExprOver lhs rhs (.binary .pow lhs rhs)
  else return lhs

def unaryOp? : TokenKind → Option UnaryOp
  | .minus => some .neg
  | .tilde => some .complement
  | .bang => some .not
  | .star => some .deref
  | .amp => some .addressOf
  | _ => none

/-- A prefix operator or cast with its operand. A prefix plus leaves no trace. -/
def unary (g : Rules) : Parser ExprId := do
  let start ← here
  let kind ← peek
  if kind = .plus then
    let _ ← advance
    g.unary
  else if kind = .kwCast then
    let _ ← advance
    let _ ← expect .lParen "`(`"
    let target ← wholeType g
    let _ ← expect .rParen "`)`"
    let operand ← g.unary
    addExpr (.cast operand target) (start.cover (← spanOf operand))
  else
    match unaryOp? kind with
    | some op =>
      let _ ← advance
      let operand ← g.unary
      addExpr (.unary op operand) (start.cover (← spanOf operand))
    | none => power g

/-- The binary operator that a word stands for and how tightly it binds; powers are not among
them. -/
def binaryOp? : TokenKind → Option (BinaryOp × Nat)
  | .pipePipe => some (.orOr, 1)
  | .ampAmp => some (.andAnd, 2)
  | .pipe => some (.or, 3)
  | .caret => some (.xor, 4)
  | .amp => some (.and, 5)
  | .eqEq => some (.eq, 6)
  | .notEq => some (.ne, 6)
  | .lt => some (.lt, 6)
  | .le => some (.le, 6)
  | .gt => some (.gt, 6)
  | .ge => some (.ge, 6)
  | .shl => some (.shl, 7)
  | .shr => some (.shr, 7)
  | .plus => some (.add, 8)
  | .minus => some (.sub, 8)
  | .star => some (.mul, 9)
  | .slash => some (.div, 9)
  | .percent => some (.mod, 9)
  | _ => none

def binaryTail (g : Rules) (least : Nat) (lhs : ExprId) : Parser ExprId := do
  match binaryOp? (← peek) with
  | some (op, strength) =>
    if strength < least then return lhs
    let _ ← advance
    let rhs ← g.binary (strength + 1)
    g.binaryTail least (← addExprOver lhs rhs (.binary op lhs rhs))
  | none => return lhs

def binary (g : Rules) (least : Nat) : Parser ExprId := do
  g.binaryTail least (← unary g)

def cond (g : Rules) : Parser ExprId := do
  let test ← binary g 1
  if ← eat .question then
    let yes ← g.expr
    let _ ← expect .colon "`:`"
    let no ← g.cond
    addExprOver test no (.cond test yes no)
  else return test

def assignOp? : TokenKind → Option AssignOp
  | .assign => some .plain
  | .plusAssign => some (.compound .add)
  | .minusAssign => some (.compound .sub)
  | .starAssign => some (.compound .mul)
  | .slashAssign => some (.compound .div)
  | .percentAssign => some (.compound .mod)
  | .ampAssign => some (.compound .and)
  | .pipeAssign => some (.compound .or)
  | .caretAssign => some (.compound .xor)
  | .caretCaretAssign => some (.compound .pow)
  | .shlAssign => some (.compound .shl)
  | .shrAssign => some (.compound .shr)
  | _ => none

def assign (g : Rules) : Parser ExprId := do
  let lhs ← cond g
  match assignOp? (← peek) with
  | some op =>
    let _ ← advance
    let rhs ← g.assign
    addExprOver lhs rhs (.assign op lhs rhs false)
  | none => return lhs

def commaTail (g : Rules) (lhs : ExprId) : Parser ExprId := do
  if ← eat .comma then
    let rhs ← g.assign
    g.commaTail (← addExprOver lhs rhs (.comma lhs rhs))
  else return lhs

def expr (g : Rules) : Parser ExprId := do
  g.commaTail (← assign g)

/-- Arguments up to a closing word, which is taken. A comma may stand before it. -/
def arguments (g : Rules) (close : TokenKind) : Parser (List ExprId) := do
  if ← eat close then return []
  let first ← assign g
  if ← eat .comma then return first :: (← g.arguments close)
  let _ ← expect close "`)` or `]`"
  return [first]

def traitArguments (g : Rules) : Parser (List ExprId) := do
  if ← eat .comma then
    let first ← g.assign
    return first :: (← g.traitArguments)
  else return []

end DCompiler.Grammar
