import DCompiler.Grammar.Expr

/-!
# Statements and functions

A statement that could start with a type is a declaration if a whole type is followed by a name and
one of the words that go on with a declaration.
-/

namespace DCompiler.Grammar

def block (g : Rules) : Parser StmtId := do
  let start ← expect .lBrace "`\x7b`"
  let body ← g.statements
  let span := start.cover (← lastSpan)
  let inner ← addStmt (.block body) span
  addStmt (.scope inner) span

/-! ## Functions -/

def resultName : Parser (Option String) := do
  if ← eat .lParen then
    let name ← if (← peek) = .ident then pure (some (← identifier).1) else pure none
    let _ ← expect .rParen "`)`"
    return name
  else return none

/-- Contracts and body. A function without a body must have a contract or end in a semicolon. -/
def functionTail (g : Rules) (hasContract : Bool) : Parser FunctionTail := do
  match ← peek with
  | .kwIn =>
    let _ ← advance
    let requirement ← block g
    let tail ← g.functionTail true
    return { tail with requires := requirement :: tail.requires }
  | .kwOut =>
    let _ ← advance
    let result ← resultName
    let body ← block g
    let tail ← g.functionTail true
    return { tail with ensures := ⟨result, body⟩ :: tail.ensures }
  | .kwBody =>
    let _ ← advance
    return { body := some (← block g) }
  | .lBrace => return { body := some (← block g) }
  | .semi =>
    let _ ← advance
    return {}
  | _ => if hasContract then return {} else failAtWord Fault.bodyExpected

def typeParameter : Parser (Option String) := do
  let s ← get
  if s.kindAt 0 = .lParen ∧ s.kindAt 1 = .ident ∧ s.kindAt 2 = .rParen ∧ s.kindAt 3 = .lParen then
    let _ ← advance
    let (name, _) ← identifier
    let _ ← advance
    return some name
  else return none

def functionRest (g : Rules) (name : String) (span : Span) (result : TypeId) (attrs : Attributes)
    (isConstructor : Bool) : Parser FunctionDecl := do
  let typeParam ← typeParameter
  let linkage := attrs.linkage.getD .d
  let (params, variadic) ← parameters g linkage
  let tail ← g.functionTail false
  return {
    name := name
    span := span
    result := result
    params := params
    variadic := variadic
    linkage := linkage
    storage := attrs.storage
    isConstructor := isConstructor
    typeParam := typeParam
    requires := tail.requires
    ensures := tail.ensures
    body := tail.body }

/-! ## Local declarations -/

/-- Variables of one declaration from a name on, up to the last comma. -/
def localDecls (g : Rules) (d : LocalDecls) (name : String) : Parser (List StmtId) := do
  let init ← optionalAfter .assign g.assign
  if d.type.isNone && init.isNone then fail (.missingTypeAndInit name)
  let decl ← addStmtFrom d.start (.varDecl name d.type init d.storage none)
  if ← eat .comma then
    let (next, _) ← identifier
    return decl :: (← g.localDecls d next)
  else return [decl]

def localFlag? (kind next : TokenKind) : Option StorageClass :=
  match kind with
  | .kwStatic => some .static
  | .kwConst => if next = .lParen then none else some .const
  | _ => none

/-- The type of a declaration, if it has one: none behind `auto`, or when `untyped` allows a name
with its initial value to stand alone. -/
def declaredType (g : Rules) (untyped : Bool) : Parser (Option TypeId) := do
  if ← eat .kwAuto then return none
  let s ← get
  if untyped ∧ s.kindAt 0 = .ident ∧ s.kindAt 1 = .assign then return none
  return some (← wholeType g)

def declStatement (g : Rules) : Parser StmtId := do
  let start ← here
  let storage ← storageFlags localFlag?
  let type ← declaredType g true
  let (name, span) ← identifier
  if (← peek) = .lParen then
    match type with
    | none => fail .missingReturnType
    | some result =>
      let decl ← functionRest g name span result { storage := storage } false
      addStmtFrom start (.funcDecl decl none)
  else
    let decls ← localDecls g ⟨type, storage, start⟩ name
    let _ ← expect .semi "`;`"
    match decls with
    | [decl] => return decl
    | _ => addStmtFrom start (.block decls)

/-- Whether the words ahead are a type, a name, and what goes on with a declaration. -/
def typedNameAhead (g : Rules) : Parser Bool := do
  let ahead ← lookAhead do
    let _ ← type g
    return ((← peek), (← peekAt 1))
  match ahead with
  | some (.ident, next) =>
    return next = .assign || next = .semi || next = .comma || next = .lParen
  | _ => return false

def atDeclaration (g : Rules) : Parser Bool := do
  match ← peek with
  | .kwAuto | .kwStatic => return true
  | .kwConst => if (← peekAt 1) != .lParen then return true else typedNameAhead g
  | .ident => typedNameAhead g
  | _ => return false

/-! ## Statements -/

def parenthesised (g : Rules) : Parser ExprId := do
  let _ ← expect .lParen "`(`"
  let e ← g.expr
  let _ ← expect .rParen "`)`"
  return e

def forRest (g : Rules) (start : Span) : Parser StmtId := do
  let _ ← expect .lParen "`(`"
  let init ← if ← eat .semi then pure none else pure (some (← g.statement))
  let test ← optionalUnless .semi g.expr
  let _ ← expect .semi "`;`"
  let incr ← optionalUnless .rParen g.expr
  let _ ← expect .rParen "`)`"
  let body ← g.statement
  addStmtFrom start (.forLoop init test incr body)

/-- A `foreach` loop after its first word. A type before the variable is read and dropped. -/
def foreachRest (g : Rules) (start : Span) : Parser StmtId := do
  let _ ← expect .lParen "`(`"
  if (← peekAt 1) != .semi then
    let _ ← wholeType g
  let (name, _) ← identifier
  let _ ← expect .semi "`;`"
  let lower ← g.assign
  let _ ← expect .dotDot "`..`"
  let upper ← g.assign
  let _ ← expect .rParen "`)`"
  let body ← g.statement
  addStmtFrom start (.foreachRange name lower upper body none)

def simpleStatement (g : Rules) (start : Span) : Parser StmtId := do
  if ← atDeclaration g then declStatement g
  else
    let e ← expr g
    let _ ← expect .semi "`;`"
    addStmtFrom start (.expr e)

def statement (g : Rules) : Parser StmtId := do
  let start ← here
  match ← peek with
  | .lBrace => block g
  | .semi =>
    let _ ← advance
    addStmt (.block []) start
  | .kwIf =>
    let _ ← advance
    let test ← parenthesised g
    let yes ← g.statement
    let no ← optionalAfter .kwElse g.statement
    addStmtFrom start (.ifElse test yes no)
  | .kwWhile =>
    let _ ← advance
    let test ← parenthesised g
    let body ← g.statement
    addStmtFrom start (.whileLoop test body)
  | .kwFor =>
    let _ ← advance
    forRest g start
  | .kwForeach =>
    let _ ← advance
    foreachRest g start
  | .kwReturn =>
    let _ ← advance
    let value ← optionalUnless .semi g.expr
    let _ ← expect .semi "`;`"
    addStmtFrom start (.ret value)
  | .kwBreak =>
    let _ ← advance
    let _ ← expect .semi "`;`"
    addStmt .breakLoop start
  | .kwContinue =>
    let _ ← advance
    let _ ← expect .semi "`;`"
    addStmt .continueLoop start
  | .ident =>
    if (← peekAt 1) = .colon then
      let (name, _) ← identifier
      let _ ← advance
      let body ← g.statement
      addStmtFrom start (.label name body)
    else simpleStatement g start
  | _ => simpleStatement g start

def statements (g : Rules) : Parser (List StmtId) := do
  if ← eat .rBrace then return []
  if (← peek) = .eof then fail .unterminatedBlock
  let first ← statement g
  return first :: (← g.statements)

end DCompiler.Grammar
