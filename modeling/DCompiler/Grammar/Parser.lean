import DCompiler.Token.Lexer
import DCompiler.Stmt.Table

/-!
# Parsers

A parser takes words off the front of a list and adds nodes to the tables. The last word is the
end of the text and is never taken, so a parser always has a word to look at.
-/

namespace DCompiler.Grammar

inductive Fault where
  | expected (what found : String)
  | identifierExpected (found : String)
  | typeExpected (found : String)
  | expressionExpected (found : String)
  | bodyExpected (found : String)
  | unsupportedLinkage (name : String)
  | unterminatedDeclarations
  | unterminatedAggregate (name : String)
  | unterminatedBlock
  | missingReturnType
  | missingTypeAndInit (name : String)
  | integerOverflow (text : String)
  | invalidFloating (text : String)
  | unknownTrait (name : String)
  deriving Repr, DecidableEq, Inhabited

def Fault.message : Fault → String
  | expected what found => "expected " ++ what ++ ", not `" ++ found ++ "`"
  | identifierExpected found => "identifier expected, not `" ++ found ++ "`"
  | typeExpected found => "basic type expected, not `" ++ found ++ "`"
  | expressionExpected found => "expression expected, not `" ++ found ++ "`"
  | bodyExpected found => "expected function body, not `" ++ found ++ "`"
  | unsupportedLinkage name => "unsupported linkage `" ++ name ++ "`"
  | unterminatedDeclarations => "unterminated declaration block"
  | unterminatedAggregate name => "unterminated body of `" ++ name ++ "`"
  | unterminatedBlock => "found end of file when expecting `\x7d`"
  | missingReturnType => "function declaration needs a return type"
  | missingTypeAndInit name => "variable `" ++ name ++ "` needs a type or an initializer"
  | integerOverflow text => "integer overflow in `" ++ text ++ "`"
  | invalidFloating text => "invalid floating literal `" ++ text ++ "`"
  | unknownTrait name => "unrecognized trait `" ++ name ++ "`"

/-- Why parsing stopped: a fault at a byte offset, or a bound on nesting that was too small. -/
inductive Stop where
  | fault (cause : Fault) (position : Nat)
  | exhausted
  deriving Repr, DecidableEq, Inhabited

end DCompiler.Grammar

namespace DCompiler

inductive ReadError where
  | lexical (cause : LexFault) (position : Nat)
  | grammatical (cause : Grammar.Fault) (position : Nat)
  | exhausted
  deriving Repr, DecidableEq, Inhabited

def ReadError.message : ReadError → String
  | lexical cause position => "lex error at byte " ++ toString position ++ ": " ++ cause.message
  | grammatical cause position =>
    "parse error at byte " ++ toString position ++ ": " ++ cause.message
  | exhausted => "parse error: nesting bound exceeded"

end DCompiler

namespace DCompiler.Grammar

structure Word where
  kind : TokenKind
  span : Span
  spelling : String
  text : String
  deriving Repr, DecidableEq, Inhabited

def withOffsets : Nat → List Char → List (Nat × Char)
  | _, [] => []
  | offset, c :: cs => (offset, c) :: withOffsets (offset + c.utf8Size) cs

def cut (span : Span) (cs : List (Nat × Char)) : String :=
  String.ofList (((cs.dropWhile (·.1 < span.start)).takeWhile (·.1 < span.stop)).map (·.2))

/-- Tokens with their texts; `cs` holds the characters from the first token on. -/
def wordsOf : List (Nat × Char) → List Token → List Word
  | _, [] => []
  | cs, t :: ts =>
    let here := cs.dropWhile (·.1 < t.span.start)
    ⟨t.kind, t.span, cut t.span here, cut t.text here⟩ :: wordsOf here ts

def words (source : String) (tokens : List Token) : List Word :=
  wordsOf (withOffsets 0 source.toList) tokens

structure State where
  rest : List Word
  last : Span
  exprs : ExprTable
  stmts : StmtTable
  types : TypeTable
  deriving Inhabited

abbrev Parser := StateT State (Except Stop)

/-! ## Words ahead -/

/-- The kind of the first of some words; the end of the text when there is none. -/
def headKind : List Word → TokenKind
  | [] => .eof
  | w :: _ => w.kind

def State.kindAt (s : State) (distance : Nat) : TokenKind :=
  headKind (s.rest.drop distance)

def State.here (s : State) : Span :=
  match s.rest with
  | [] => s.last
  | w :: _ => w.span

def State.text (s : State) : String :=
  match s.rest with
  | [] => ""
  | w :: _ => w.text

def State.found (s : State) : String :=
  match s.rest with
  | [] => "end of file"
  | w :: _ => if w.kind = .eof then "end of file" else w.spelling

def peek : Parser TokenKind := return (← get).kindAt 0

def peekAt (distance : Nat) : Parser TokenKind := return (← get).kindAt distance

def here : Parser Span := return (← get).here

def lastSpan : Parser Span := return (← get).last

def text : Parser String := return (← get).text

/-! ## Faults -/

def fail {α : Type} (cause : Fault) : Parser α := do
  throw (.fault cause (← here).start)

def failAtWord {α : Type} (cause : String → Fault) : Parser α := do
  fail (cause (← get).found)

/-! ## Taking words -/

/-- The state after the next word, unless that is the last. -/
def State.next (s : State) : State :=
  match s.rest with
  | w :: v :: rest => { s with rest := v :: rest, last := w.span }
  | _ => s

def advance : Parser Span := do
  let span ← here
  modify State.next
  return span

def eat (kind : TokenKind) : Parser Bool := do
  if (← peek) = kind then
    let _ ← advance
    return true
  else return false

def expect (kind : TokenKind) (what : String) : Parser Span := do
  if (← peek) = kind then advance
  else failAtWord (Fault.expected what)

def identifier : Parser (String × Span) := do
  if (← peek) = .ident then
    let name ← text
    return (name, ← advance)
  else failAtWord Fault.identifierExpected

def skip : Nat → Parser Unit
  | 0 => return
  | count + 1 => do
    let _ ← advance
    skip count

/-- The result of a parser, if it has one, with nothing taken and nothing made. -/
def lookAhead {α : Type} (p : Parser α) : Parser (Option α) := fun s =>
  match p s with
  | .ok (a, _) => .ok (some a, s)
  | .error (.fault _ _) => .ok (none, s)
  | .error .exhausted => .error .exhausted

def optionalAfter {α : Type} (kind : TokenKind) (p : Parser α) : Parser (Option α) := do
  if ← eat kind then return some (← p) else return none

def optionalUnless {α : Type} (kind : TokenKind) (p : Parser α) : Parser (Option α) := do
  if (← peek) = kind then return none else return some (← p)

/-! ## Runs of storage words -/

/-- The storage flags at the head of some words and the number of these words. A flag is told from
a kind and the kind after it. -/
def storageRun (flag? : TokenKind → TokenKind → Option StorageClass) :
    List Word → StorageClass × Nat
  | [] => (.none, 0)
  | w :: rest =>
    match flag? w.kind (headKind rest) with
    | none => (.none, 0)
    | some flag =>
      let others := storageRun flag? rest
      (flag ||| others.1, others.2 + 1)

def storageFlags (flag? : TokenKind → TokenKind → Option StorageClass) : Parser StorageClass := do
  let run := storageRun flag? (← get).rest
  skip run.2
  return run.1

/-! ## Nodes -/

def addExpr (e : Expr) (span : Span) : Parser ExprId :=
  modifyGet fun s =>
    let (id, exprs) := s.exprs.add e span
    (id, { s with exprs := exprs })

def addStmt (k : Stmt) (span : Span) : Parser StmtId :=
  modifyGet fun s =>
    let (id, stmts) := s.stmts.add k span
    (id, { s with stmts := stmts })

def internType (k : TypeKind) : Parser TypeId :=
  modifyGet fun s =>
    let (id, types) := s.types.intern k
    (id, { s with types := types })

def spanOf (id : ExprId) : Parser Span := return (← get).exprs.span id

def addExprFrom (start : Span) (e : Expr) : Parser ExprId := do
  addExpr e (start.cover (← lastSpan))

def addStmtFrom (start : Span) (k : Stmt) : Parser StmtId := do
  addStmt k (start.cover (← lastSpan))

def addExprOver (lhs rhs : ExprId) (e : Expr) : Parser ExprId := do
  addExpr e ((← spanOf lhs).cover (← spanOf rhs))

/-! ## Rules

The grammar is recursive, so its rules are written against a record of all of them. A rule calls
the record only after it has taken a word; hence the depth of calls through the record is bounded
by the number of words. -/

structure Attributes where
  storage : StorageClass := .none
  linkage : Option Linkage := none
  deriving Repr, DecidableEq, Inhabited

structure FunctionTail where
  requires : List StmtId := []
  ensures : List EnsureDecl := []
  body : Option StmtId := none
  deriving Repr, DecidableEq, Inhabited

inductive DeclsEnd where
  /-- A closing brace, which is taken; the fault is for a text that ends before. -/
  | brace (unterminated : Fault)
  | outerBrace
  | endOfText
  deriving Repr, DecidableEq, Inhabited

/-- The type that local declarations share, and where their statement starts. -/
structure LocalDecls where
  type : Option TypeId
  storage : StorageClass
  start : Span
  deriving Repr, DecidableEq, Inhabited

structure GlobalDecls where
  type : Option TypeId
  storage : StorageClass
  deriving Repr, DecidableEq, Inhabited

structure Rules where
  type : Parser TypeId
  typeTail : TypeId → Parser TypeId
  parameters : Linkage → Parser (List ParamDecl × Variadic)
  parameterList : Linkage → Parser (List ParamDecl × Variadic)
  unary : Parser ExprId
  accessTail : ExprId → Parser ExprId
  binary : Nat → Parser ExprId
  binaryTail : Nat → ExprId → Parser ExprId
  cond : Parser ExprId
  assign : Parser ExprId
  expr : Parser ExprId
  commaTail : ExprId → Parser ExprId
  arguments : TokenKind → Parser (List ExprId)
  traitArguments : Parser (List ExprId)
  statement : Parser StmtId
  statements : Parser (List StmtId)
  functionTail : Bool → Parser FunctionTail
  localDecls : LocalDecls → String → Parser (List StmtId)
  nameTail : String → Parser String
  attributes : Attributes → Parser Attributes
  globalDecls : GlobalDecls → String → Span → Parser (List Decl)
  enumMembers : Parser (List EnumMemberDecl)
  decls : Attributes → Bool → DeclsEnd → Parser (List Decl)

end DCompiler.Grammar
