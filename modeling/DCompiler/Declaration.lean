import DCompiler.Source
import DCompiler.Types.Table

/-!
# Declarations

What the parser makes of a module, before names are looked up. Types that were written as names are
types of kind `named`; bodies and expressions are places in their tables.
-/

namespace DCompiler

structure ParamDecl where
  name : Option String
  type : TypeId
  storage : StorageClass
  default : Option ExprId
  span : Span
  deriving Repr, DecidableEq, Inhabited

structure EnsureDecl where
  result : Option String
  body : StmtId
  deriving Repr, DecidableEq, Inhabited

structure FunctionDecl where
  name : String
  span : Span
  result : TypeId
  params : List ParamDecl
  variadic : Variadic
  linkage : Linkage
  storage : StorageClass
  isConstructor : Bool
  typeParam : Option String
  requires : List StmtId
  ensures : List EnsureDecl
  body : Option StmtId
  deriving Repr, DecidableEq, Inhabited

structure EnumMemberDecl where
  name : String
  value : Option ExprId
  span : Span
  deriving Repr, DecidableEq, Inhabited

structure EnumDecl where
  name : String
  span : Span
  base : Option TypeId
  members : List EnumMemberDecl
  deriving Repr, DecidableEq, Inhabited

structure VariableDecl where
  name : String
  span : Span
  /-- Missing when the type follows from the initial value. -/
  type : Option TypeId
  init : Option ExprId
  storage : StorageClass
  deriving Repr, DecidableEq, Inhabited

structure BaseName where
  name : String
  span : Span
  deriving Repr, DecidableEq, Inhabited

inductive Decl where
  | func (d : FunctionDecl)
  | aggregate (name : String) (span : Span) (isClass : Bool) (base : Option BaseName)
      (members : List Decl)
  | enumeration (d : EnumDecl)
  | global (d : VariableDecl)
  | importModule (name : String) (span : Span)
  deriving Repr, Inhabited

structure ModuleDecl where
  name : String
  decls : List Decl
  deriving Repr, Inhabited

end DCompiler
