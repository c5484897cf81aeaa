import DCompiler.Grammar.Stmt

/-!
# Declarations and modules

Attributes stand before one declaration, before a block of them in braces, or before all that
follow behind a colon. The rules are tied together here, for the two things that a source text can
be read as.
-/

namespace DCompiler.Grammar

def nameTail (g : Rules) (name : String) : Parser String := do
  if ← eat .dot then
    let (part, _) ← identifier
    g.nameTail (name ++ "." ++ part)
  else return name

def dottedName (g : Rules) : Parser String := do
  let (name, _) ← identifier
  g.nameTail name

/-! ## Attributes -/

def linkage : Parser Linkage := do
  let _ ← expect .lParen "`(`"
  let (name, _) ← identifier
  let found ←
    if name == "C" then pure .c
    else if name == "D" then pure .d
    else fail (.unsupportedLinkage name)
  let _ ← expect .rParen "`)`"
  return found

def attributeFlag? (kind next : TokenKind) (text : String) : Option StorageClass :=
  match kind with
  | .kwStatic => some .static
  | .kwAbstract => some .abstract
  | .kwOverride => some .override
  | .kwConst => if next = .lParen then none else some .const
  | .ident =>
    if text == "public" then some .exported
    else if text == "private" || text == "protected" || text == "package" then some .none
    else none
  | _ => none

def attributes (g : Rules) (attrs : Attributes) : Parser Attributes := do
  match ← peek with
  | .kwExtern =>
    let _ ← advance
    let found ← linkage
    g.attributes { attrs with linkage := some found }
  | .at =>
    let _ ← advance
    let (name, _) ← identifier
    let flag : StorageClass := if name == "property" then .property else .none
    g.attributes { attrs with storage := attrs.storage ||| flag }
  | kind =>
    match attributeFlag? kind (← peekAt 1) (← text) with
    | some flag =>
      let _ ← advance
      g.attributes { attrs with storage := attrs.storage ||| flag }
    | none => return attrs

/-! ## Kinds of declaration -/

def globalDecls (g : Rules) (d : GlobalDecls) (name : String) (span : Span) :
    Parser (List Decl) := do
  let init ← optionalAfter .assign g.assign
  if d.type.isNone && init.isNone then fail (.missingTypeAndInit name)
  let decl := Decl.global ⟨name, span, d.type, init, d.storage⟩
  if ← eat .comma then
    let (next, nextSpan) ← identifier
    return decl :: (← g.globalDecls d next nextSpan)
  let _ ← expect .semi "`;`"
  return [decl]

def aggregate (g : Rules) (isClass : Bool) : Parser Decl := do
  let _ ← advance
  let (name, span) ← identifier
  let base ←
    if isClass then optionalAfter .colon do
      let (name, span) ← identifier
      return BaseName.mk name span
    else pure none
  let _ ← expect .lBrace "`\x7b`"
  let members ← g.decls {} true (.brace (.unterminatedAggregate name))
  return .aggregate name span isClass base members

def enumMembers (g : Rules) : Parser (List EnumMemberDecl) := do
  if ← eat .rBrace then return []
  let (name, span) ← identifier
  let value ← optionalAfter .assign g.assign
  let member : EnumMemberDecl := ⟨name, value, span⟩
  if ← eat .comma then return member :: (← g.enumMembers)
  let _ ← expect .rBrace "`\x7d`"
  return [member]

def enumeration (g : Rules) : Parser Decl := do
  let _ ← advance
  let (name, span) ← identifier
  let base ← optionalAfter .colon (wholeType g)
  let _ ← expect .lBrace "`\x7b`"
  let members ← g.enumMembers
  return .enumeration ⟨name, span, base, members⟩

def typedDecl (g : Rules) (attrs : Attributes) : Parser (List Decl) := do
  let type ← declaredType g (attrs.storage.intersects (.static ||| .const))
  let (name, span) ← identifier
  if (← peek) = .lParen then
    match type with
    | none => fail .missingReturnType
    | some result => return [.func (← functionRest g name span result attrs false)]
  else globalDecls g ⟨type, attrs.storage⟩ name span

/-- One declaration with its attributes, or a group of declarations that share them. -/
def declaration (g : Rules) (inherited : Attributes) (inAggregate : Bool) :
    Parser (List Decl) := do
  let attrs ← attributes g inherited
  match ← peek with
  | .lBrace =>
    let _ ← advance
    g.decls attrs inAggregate (.brace .unterminatedDeclarations)
  | .colon =>
    let _ ← advance
    g.decls attrs inAggregate .outerBrace
  | .kwImport =>
    let span ← advance
    let name ← dottedName g
    let _ ← expect .semi "`;`"
    return [.importModule name span]
  | .kwStruct => return [← aggregate g false]
  | .kwClass => return [← aggregate g true]
  | .kwEnum => return [← enumeration g]
  | .kwThis =>
    if inAggregate then
      let span ← advance
      return [.func (← functionRest g "this" span (.ofScalar .void) attrs true)]
    else typedDecl g attrs
  | _ => typedDecl g attrs

/-- Whether a run of declarations ends here; a closing brace may be taken. -/
def atDeclsEnd : DeclsEnd → Parser Bool
  | .brace unterminated => do
    if ← eat .rBrace then return true
    if (← peek) = .eof then fail unterminated
    return false
  | .outerBrace => do
    let kind ← peek
    return kind = .rBrace || kind = .eof
  | .endOfText => return (← peek) = .eof

def decls (g : Rules) (attrs : Attributes) (inAggregate : Bool) (stop : DeclsEnd) :
    Parser (List Decl) := do
  if ← atDeclsEnd stop then return []
  let first ← declaration g attrs inAggregate
  return first ++ (← g.decls attrs inAggregate stop)

end DCompiler.Grammar

/-! ## Source texts -/

namespace DCompiler.Grammar

def exhausted {α : Type} : Parser α := throw .exhausted

def rules : Nat → Rules
  | 0 => {
    type := exhausted
    typeTail := fun _ => exhausted
    parameters := fun _ => exhausted
    parameterList := fun _ => exhausted
    unary := exhausted
    accessTail := fun _ => exhausted
    binary := fun _ => exhausted
    binaryTail := fun _ _ => exhausted
    cond := exhausted
    assign := exhausted
    expr := exhausted
    commaTail := fun _ => exhausted
    arguments := fun _ => exhausted
    traitArguments := exhausted
    statement := exhausted
    statements := exhausted
    functionTail := fun _ => exhausted
    localDecls := fun _ _ => exhausted
    nameTail := fun _ => exhausted
    attributes := fun _ => exhausted
    globalDecls := fun _ _ _ => exhausted
    enumMembers := exhausted
    decls := fun _ _ _ => exhausted }
  | depth + 1 => {
    type := fun s => type (rules depth) s
    typeTail := fun head s => typeTail (rules depth) head s
    parameters := fun linkage s => parameters (rules depth) linkage s
    parameterList := fun linkage s => parameterList (rules depth) linkage s
    unary := fun s => unary (rules depth) s
    accessTail := fun base s => accessTail (rules depth) base s
    binary := fun least s => binary (rules depth) least s
    binaryTail := fun least lhs s => binaryTail (rules depth) least lhs s
    cond := fun s => cond (rules depth) s
    assign := fun s => assign (rules depth) s
    expr := fun s => expr (rules depth) s
    commaTail := fun lhs s => commaTail (rules depth) lhs s
    arguments := fun close s => arguments (rules depth) close s
    traitArguments := fun s => traitArguments (rules depth) s
    statement := fun s => statement (rules depth) s
    statements := fun s => statements (rules depth) s
    functionTail := fun hasContract s => functionTail (rules depth) hasContract s
    localDecls := fun d name s => localDecls (rules depth) d name s
    nameTail := fun name s => nameTail (rules depth) name s
    attributes := fun attrs s => attributes (rules depth) attrs s
    globalDecls := fun d name span s => globalDecls (rules depth) d name span s
    enumMembers := fun s => enumMembers (rules depth) s
    decls := fun attrs inAggregate stop s => decls (rules depth) attrs inAggregate stop s }

def moduleDecl (g : Rules) (defaultName : String) : Parser ModuleDecl := do
  let name ←
    if ← eat .kwModule then
      let name ← dottedName g
      let _ ← expect .semi "`;`"
      pure name
    else pure defaultName
  let found ← decls g {} false .endOfText
  return ⟨name, found⟩

def wholeExpr (g : Rules) : Parser ExprId := do
  let e ← expr g
  let _ ← expect .eof "end of input"
  return e

end DCompiler.Grammar

namespace DCompiler

structure SyntaxTables where
  exprs : ExprTable
  stmts : StmtTable
  types : TypeTable
  deriving Inhabited

namespace SyntaxTables

def empty : SyntaxTables := ⟨.empty, .empty, .initial⟩

def read {α : Type} (t : SyntaxTables) (source : String)
    (p : Grammar.Rules → Grammar.Parser α) : Except ReadError (α × SyntaxTables) :=
  let lexed := Token.lex source
  match lexed.faults with
  | (cause, span) :: _ => .error (.lexical cause span.start)
  | [] =>
    let words := Grammar.words source lexed.tokens
    match p (Grammar.rules (words.length + 1)) ⟨words, .synthetic, t.exprs, t.stmts, t.types⟩ with
    | .ok (a, s) => .ok (a, ⟨s.exprs, s.stmts, s.types⟩)
    | .error (.fault cause position) => .error (.grammatical cause position)
    | .error .exhausted => .error .exhausted

def readModule (t : SyntaxTables) (source defaultName : String) :
    Except ReadError (ModuleDecl × SyntaxTables) :=
  t.read source fun g => Grammar.moduleDecl g defaultName

def readExpr (t : SyntaxTables) (source : String) : Except ReadError (ExprId × SyntaxTables) :=
  t.read source Grammar.wholeExpr

end SyntaxTables

end DCompiler
