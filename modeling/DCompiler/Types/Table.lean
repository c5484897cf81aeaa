import DCompiler.Scope
import DCompiler.Scalar
import DCompiler.Storage

/-!
# The type table

Every type is entered once, so two types are equal exactly when their places are. The basic types,
the error type, the type of `null` and the type of type descriptors have fixed places at the start.
A type is entered after its components, hence components have smaller places; recursion over types
descends along places.
-/

namespace DCompiler

inductive Variadic where
  | none
  | c
  | d
  /-- Further arguments that are packed into a last array parameter. -/
  | typesafe
  deriving Repr, DecidableEq, Inhabited

inductive Linkage where
  | d | c
  deriving Repr, DecidableEq, Inhabited

structure Param where
  type : TypeId
  storage : StorageClass
  name : Option String
  default : Option ExprId
  deriving Repr, DecidableEq, Inhabited

/-- The type of a function. Two signatures with different default arguments are different types. -/
structure Signature where
  params : List Param
  result : TypeId
  variadic : Variadic
  linkage : Linkage
  deriving Repr, DecidableEq, Inhabited

inductive TypeKind where
  | scalar (s : Scalar)
  | error
  | pointer (target : TypeId)
  | dynArray (elem : TypeId)
  | staticArray (elem : TypeId) (length : UInt64)
  | assocArray (key value : TypeId)
  | function (signature : Signature)
  | delegate (func : TypeId)
  | structType (symbol : SymbolId) (name : String)
  | classType (symbol : SymbolId) (name : String)
  | enumType (symbol : SymbolId) (name : String) (base : TypeId)
  | tuple (elems : List TypeId)
  | typeInfo
  | null
  | named (name : String)
  deriving Repr, DecidableEq, Inhabited

namespace TypeId

def ofScalar (s : Scalar) : TypeId := ⟨s.index⟩
def error : TypeId := ⟨22⟩
def null : TypeId := ⟨23⟩
def typeInfo : TypeId := ⟨24⟩

end TypeId

structure TypeTable where
  kinds : Array TypeKind
  deriving Repr

namespace TypeTable

def initial : TypeTable :=
  ⟨(Scalar.all.map TypeKind.scalar ++ [TypeKind.error, .null, .typeInfo]).toArray⟩

instance : Inhabited TypeTable := ⟨initial⟩

def size (t : TypeTable) : Nat := t.kinds.size

def kind (t : TypeTable) (id : TypeId) : TypeKind := (t.kinds[id.index]?).getD .error

def intern (t : TypeTable) (k : TypeKind) : TypeId × TypeTable :=
  match t.kinds.idxOf? k with
  | some i => (⟨i⟩, t)
  | none => (⟨t.kinds.size⟩, ⟨t.kinds.push k⟩)

/-! ## Questions about types -/

def isError (t : TypeTable) (id : TypeId) : Bool := t.kind id == .error

def base (t : TypeTable) (id : TypeId) : TypeId :=
  match t.kind id with
  | .enumType _ _ next => if next.index < id.index then t.base next else id
  | _ => id
termination_by id.index

def baseKind (t : TypeTable) (id : TypeId) : TypeKind := t.kind (t.base id)

def scalar? (t : TypeTable) (id : TypeId) : Option Scalar :=
  match t.baseKind id with
  | .scalar s => some s
  | _ => none

def isVoid (t : TypeTable) (id : TypeId) : Bool := t.scalar? id == some .void

def isIntegral (t : TypeTable) (id : TypeId) : Bool := (t.scalar? id).any Scalar.isIntegral

def isArithmetic (t : TypeTable) (id : TypeId) : Bool := (t.scalar? id).any Scalar.isArithmetic

def isPointer (t : TypeTable) (id : TypeId) : Bool :=
  match t.baseKind id with
  | .pointer _ => true
  | _ => false

def isScalar (t : TypeTable) (id : TypeId) : Bool := t.isArithmetic id || t.isPointer id

def next? (t : TypeTable) (id : TypeId) : Option TypeId :=
  match t.baseKind id with
  | .pointer next | .dynArray next | .staticArray next _ | .delegate next => some next
  | .assocArray _ value => some value
  | _ => none

def element? (t : TypeTable) (id : TypeId) : Option TypeId :=
  match t.baseKind id with
  | .pointer next | .dynArray next | .staticArray next _ => some next
  | _ => none

def isArray (t : TypeTable) (id : TypeId) : Bool :=
  match t.baseKind id with
  | .dynArray _ | .staticArray _ _ => true
  | _ => false

def signature? (t : TypeTable) (id : TypeId) : Option Signature :=
  match t.kind id with
  | .function s => some s
  | _ => none

def aggregate? (t : TypeTable) (id : TypeId) : Option SymbolId :=
  match t.baseKind id with
  | .structType s _ | .classType s _ => some s
  | _ => none

end TypeTable

end DCompiler

namespace DCompiler.TypeTable

/-! ## Types as text -/

def commaList (parts : List String) : String := String.intercalate ", " parts

def variadicText (params : List Param) : Variadic → String
  | .none => ""
  | .typesafe => "..."
  | .c | .d => if params.isEmpty then "..." else ", ..."

/-- The text of a type, where the types before it have the texts `below`. -/
def textOf (t : TypeTable) (below : TypeId → String) : TypeKind → String
  | .scalar s => s.name
  | .error => "_error_"
  | .pointer target => below target ++ "*"
  | .dynArray elem => below elem ++ "[]"
  | .staticArray elem length => below elem ++ "[" ++ toString length.toNat ++ "]"
  | .assocArray key value => below value ++ "[" ++ below key ++ "]"
  | .function sig =>
    let params := sig.params.map fun p =>
      match p.storage.keyword with
      | some word => word ++ " " ++ below p.type
      | none => below p.type
    below sig.result ++ "(" ++ commaList params ++ variadicText sig.params sig.variadic ++ ")"
  | .delegate func =>
    match t.kind func with
    | .function sig =>
      below sig.result ++ " delegate(" ++ commaList (sig.params.map fun p => below p.type) ++ ")"
    | _ => "delegate"
  | .structType _ name | .classType _ name | .enumType _ name _ | .named name => name
  | .tuple elems => "(" ++ commaList (elems.map below) ++ ")"
  | .typeInfo => "TypeInfo"
  | .null => "typeof(null)"

def text (t : TypeTable) (id : TypeId) : String :=
  t.textOf (fun next => if next.index < id.index then t.text next else "") (t.kind id)
termination_by id.index

def countedName (tag : String) (name : String) : String :=
  tag ++ toString name.utf8ByteSize ++ name

def mangleOf (below : TypeId → String) : TypeKind → String
  | .scalar s => s.letter.toString
  | .pointer target => "P" ++ below target
  | .dynArray elem => "A" ++ below elem
  | .staticArray elem length => "G" ++ toString length.toNat ++ below elem
  | .structType _ name => countedName "S" name
  | .classType _ name => countedName "C" name
  | .enumType _ name _ => countedName "E" name
  | _ => "v"

def mangle (t : TypeTable) (id : TypeId) : String :=
  mangleOf (fun next => if next.index < id.index then t.mangle next else "") (t.kind id)
termination_by id.index

end DCompiler.TypeTable
