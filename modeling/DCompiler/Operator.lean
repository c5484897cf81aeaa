/-!
# Operators

The unary, binary and assignment operators, their spelling, their classes and their precedence.
-/

namespace DCompiler

inductive UnaryOp where
  | neg | complement | not | deref | addressOf
  deriving Repr, DecidableEq, Inhabited

def UnaryOp.symbol : UnaryOp → String
  | neg => "-" | complement => "~" | not => "!" | deref => "*" | addressOf => "&"

inductive BinaryOp where
  | add | sub | mul | div | mod | and | or | xor | pow | shl | shr
  | eq | ne | lt | le | gt | ge | andAnd | orOr
  deriving Repr, DecidableEq, Inhabited

namespace BinaryOp

def all : List BinaryOp :=
  [add, sub, mul, div, mod, and, or, xor, pow, shl, shr, eq, ne, lt, le, gt, ge, andAnd, orOr]

def symbol : BinaryOp → String
  | add => "+" | sub => "-" | mul => "*" | div => "/" | mod => "%"
  | and => "&" | or => "|" | xor => "^" | pow => "^^" | shl => "<<" | shr => ">>"
  | eq => "==" | ne => "!=" | lt => "<" | le => "<=" | gt => ">" | ge => ">="
  | andAnd => "&&" | orOr => "||"

/-- The word for the operator in routine names, for those that work element by element. -/
def arrayName? : BinaryOp → Option String
  | add => some "Add" | sub => some "Min" | mul => some "Mul" | div => some "Div"
  | mod => some "Mod" | xor => some "Xor" | and => some "And" | or => some "Or"
  | pow => some "Pow"
  | _ => none

def isElementwise (op : BinaryOp) : Bool := op.arrayName?.isSome

def isComparison : BinaryOp → Bool
  | eq | ne | lt | le | gt | ge => true
  | _ => false

def isLogical : BinaryOp → Bool
  | andAnd | orOr => true
  | _ => false

def isBitwise : BinaryOp → Bool
  | and | or | xor => true
  | _ => false

def isShift : BinaryOp → Bool
  | shl | shr => true
  | _ => false

def isCommutative : BinaryOp → Bool
  | add | mul | and | or | xor | eq | ne => true
  | _ => false

def precedence : BinaryOp → Nat
  | orOr => 1 | andAnd => 2 | or => 3 | xor => 4 | and => 5
  | eq | ne | lt | le | gt | ge => 6
  | shl | shr => 7
  | add | sub => 8
  | mul | div | mod => 9
  | pow => 11

end BinaryOp

inductive AssignOp where
  | plain
  | compound (op : BinaryOp)
  deriving Repr, DecidableEq, Inhabited

def AssignOp.symbol : AssignOp → String
  | plain => "="
  | compound op => op.symbol ++ "="

end DCompiler
