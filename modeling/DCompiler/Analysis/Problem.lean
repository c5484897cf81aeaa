/-!
# Problems

What analysis can find wrong with a program, and the texts that say so. Expressions and types in a
problem are texts already, because analysis goes on to change the tables they came from.
-/

namespace DCompiler

/-- A name that is close to one that is not defined, and what it stands for. -/
structure Suggestion where
  kind : String
  name : String
  deriving Repr, DecidableEq, Inhabited

inductive Problem where
  -- Names and types
  | undefinedIdentifier (name : String) (suggestion : Option Suggestion)
  | usedAsType (name : String)
  | alreadyDefined (name : String)
  | parameterAlreadyDefined (name : String)
  | baseNotClass (name : String)
  | circularInheritance (name : String)
  | voidVariable (name : String)
  | thisOutsideMember (keyword : String)
  | noBaseClass (type : String)
  | noProperty (name type : String)
  -- Values
  | notAnExpression (expr : String)
  | noValue (expr : String)
  | assignmentAsCondition
  | noBooleanValue (expr type : String)
  | notLvalue (expr : String)
  | constModified (expr : String)
  -- Literals
  | incompatibleElements (first second : String)
  | notAStruct (name : String)
  | tooManyInitializers (fields : Nat) (name : String)
  -- Conversions
  | cannotConvert (expr type target : String)
  | cannotCast (expr type target : String)
  -- Indices and slices
  | tupleIndexNotConstant (expr : String)
  | tupleIndexOutOfBounds (value : UInt64) (length : Nat)
  | tupleSliceOutOfBounds (lower upper : UInt64)
  | pointerSliceWithoutBounds
  | cannotSlice (expr : String)
  | sliceOutOfBounds (lower upper : UInt64) (expr : String) (length : UInt64)
  | indexOutOfBounds (value : UInt64) (expr : String) (length : UInt64)
  | cannotIndex (expr type : String)
  -- Operators and assignments
  | incompatibleOperands (lhs op rhs lhsType rhsType : String)
  | notIntegral (expr type : String)
  | notArithmetic (expr type : String)
  | derefOfNonPointer (type : String)
  | tupleLengths (lhs rhs : Nat)
  | staticArrayAssigned (expr : String)
  -- Array operations
  | voidArrayOperation
  | invalidArrayOperation (expr : String)
  | arrayOperationWithoutDestination (expr : String)
  | elementWithoutOperators (expr type : String)
  | elementNotScalar (expr type : String)
  | elementNotArithmetic (expr type : String)
  | unsupportedArrayOperation (expr type : String)
  -- Calls
  | recursiveEvaluation (expr : String)
  | noCallableOverload (name args : String)
  | ambiguousCall (name args : String)
  | cannotDeduce (name args : String)
  | classNotCallable (name : String)
  | notCallable (expr type : String)
  | superCallOutsideConstructor
  | thisCallOutsideConstructor
  | noSuperConstructor (name : String)
  | constructorCallInLoop
  | repeatedConstructorCall
  | cyclicConstructorCall
  | argumentCount (expected given : Nat)
  | cannotPassByReference (expr type keyword param : String)
  -- Functions
  | contractsWithoutBody (name : String)
  | overridesNothing (name : String)
  | mainResult (name : String)
  | mainParameters (name : String)
  | missingReturn (name type : String)
  -- Statements
  | breakOutsideLoop
  | continueOutsideLoop
  | returnValueExpected
  | returnFromVoid
  | escapingLocal (name : String)
  deriving Repr, DecidableEq, Inhabited

namespace Problem

def quoted (text : String) : String := "`" ++ text ++ "`"

def message : Problem → String
  | undefinedIdentifier name none => "undefined identifier " ++ quoted name
  | undefinedIdentifier name (some s) =>
    "undefined identifier " ++ quoted name ++ ", did you mean " ++ s.kind ++ " " ++
      quoted s.name ++ "?"
  | usedAsType name => quoted name ++ " is used as a type"
  | alreadyDefined name => "declaration " ++ quoted name ++ " is already defined"
  | parameterAlreadyDefined name => "parameter " ++ quoted name ++ " is already defined"
  | baseNotClass name => "base type must be class, not " ++ quoted name
  | circularInheritance name => "circular inheritance of class " ++ quoted name
  | voidVariable name => "variable " ++ quoted name ++ " cannot be declared to be of type void"
  | thisOutsideMember keyword =>
    quoted keyword ++ " is only allowed in non-static member functions"
  | noBaseClass type => "no base class for " ++ quoted type
  | noProperty name type => "no property " ++ quoted name ++ " for type " ++ quoted type
  | notAnExpression expr => quoted expr ++ " is not an expression"
  | noValue expr => quoted expr ++ " has no value"
  | assignmentAsCondition => "'=' does not give a boolean result"
  | noBooleanValue expr type =>
    "expression " ++ quoted expr ++ " of type " ++ quoted type ++ " does not have a boolean value"
  | notLvalue expr => quoted expr ++ " is not an lvalue"
  | constModified expr => "cannot modify const variable " ++ quoted expr
  | incompatibleElements first second =>
    "incompatible types for array literal elements: '" ++ first ++ "' and '" ++ second ++ "'"
  | notAStruct name => quoted name ++ " is not a struct"
  | tooManyInitializers fields name =>
    "more initializers than fields (" ++ toString fields ++ ") of " ++ quoted name
  | cannotConvert expr type target =>
    "cannot implicitly convert expression " ++ quoted expr ++ " of type " ++ quoted type ++
      " to " ++ quoted target
  | cannotCast expr type target =>
    "cannot cast expression " ++ quoted expr ++ " of type " ++ quoted type ++ " to " ++
      quoted target
  | tupleIndexNotConstant expr => "tuple index " ++ quoted expr ++ " is not a compile-time constant"
  | tupleIndexOutOfBounds value length =>
    "array index [" ++ toString value.toNat ++ "] is outside array bounds [0 .. " ++
      toString length ++ "]"
  | tupleSliceOutOfBounds lower upper =>
    "string slice [" ++ toString lower.toNat ++ " .. " ++ toString upper.toNat ++
      "] is out of bounds"
  | pointerSliceWithoutBounds => "need upper and lower bound to slice pointer"
  | cannotSlice expr => quoted expr ++ " cannot be sliced with []"
  | sliceOutOfBounds lower upper expr length =>
    "slice `[" ++ toString lower.toNat ++ ".." ++ toString upper.toNat ++
      "]` is out of bounds of " ++ quoted expr ++ "[0 .. " ++ toString length.toNat ++ "]"
  | indexOutOfBounds value expr length =>
    "array index " ++ toString value.toNat ++ " is out of bounds " ++ quoted expr ++ "[0 .. " ++
      toString length.toNat ++ "]"
  | cannotIndex expr type =>
    quoted expr ++ " must be an array or pointer type, not " ++ quoted type
  | incompatibleOperands lhs op rhs lhsType rhsType =>
    "incompatible types for ((" ++ lhs ++ ") " ++ op ++ " (" ++ rhs ++ ")): '" ++ lhsType ++
      "' and '" ++ rhsType ++ "'"
  | notIntegral expr type => quoted expr ++ " is not of integral type, it is a " ++ quoted type
  | notArithmetic expr type => quoted expr ++ " is not of arithmetic type, it is a " ++ quoted type
  | derefOfNonPointer type => "can only `*` a pointer, not a " ++ quoted type
  | tupleLengths lhs rhs =>
    "mismatched tuple lengths, " ++ toString lhs ++ " and " ++ toString rhs
  | staticArrayAssigned expr => "cannot assign to static array " ++ quoted expr
  | voidArrayOperation => "Cannot perform array operations on void[] arrays"
  | invalidArrayOperation expr =>
    "invalid array operation " ++ quoted expr ++ " (did you forget a [] ?)"
  | arrayOperationWithoutDestination expr =>
    "array operation " ++ quoted expr ++ " without destination memory not allowed"
  | elementWithoutOperators expr type =>
    "cannot perform array operation " ++ quoted expr ++ ": element type " ++ quoted type ++
      " has no arithmetic operator overloads"
  | elementNotScalar expr type =>
    "array operation " ++ quoted expr ++ " is not supported for non-scalar element type " ++
      quoted type
  | elementNotArithmetic expr type =>
    "cannot perform array operation " ++ quoted expr ++ " on element type " ++ quoted type ++
      ", it is not arithmetic"
  | unsupportedArrayOperation expr type =>
    "array operation " ++ quoted expr ++ " is not supported for type " ++ quoted type
  | recursiveEvaluation expr => "recursive evaluation of " ++ quoted expr
  | noCallableOverload name args =>
    "none of the overloads of " ++ quoted name ++ " are callable using argument types (" ++ args ++
      ")"
  | ambiguousCall name args =>
    quoted name ++ " called with argument types (" ++ args ++ ") matches both:"
  | cannotDeduce name args =>
    "template " ++ quoted name ++ " cannot deduce function from argument types !()(" ++ args ++ ")"
  | classNotCallable name => "class " ++ quoted name ++ " does not overload ()"
  | notCallable expr type =>
    "function expected before (), not " ++ quoted expr ++ " of type " ++ quoted type
  | superCallOutsideConstructor => "super class constructor call must be in a constructor"
  | thisCallOutsideConstructor => "constructor call must be in a constructor"
  | noSuperConstructor name => "no super class constructor for " ++ quoted name
  | constructorCallInLoop => "constructor calls not allowed in loops or after labels"
  | repeatedConstructorCall => "multiple constructor calls"
  | cyclicConstructorCall => "cyclic constructor call"
  | argumentCount expected given =>
    "expected " ++ toString expected ++ " arguments, not " ++ toString given
  | cannotPassByReference expr type keyword param =>
    "cannot pass argument " ++ quoted expr ++ " of type " ++ quoted type ++ " to parameter `" ++
      keyword ++ " " ++ param ++ "`"
  | contractsWithoutBody name =>
    "function " ++ quoted name ++ " in and out contracts can only appear without a body when" ++
      " they are virtual interface functions or abstract"
  | overridesNothing name => "function " ++ quoted name ++ " does not override any function"
  | mainResult name => "function " ++ quoted name ++ " must return int or void"
  | mainParameters name =>
    "function " ++ quoted name ++ " parameters must be main() or main(string[] args)"
  | missingReturn name type =>
    "function " ++ quoted name ++ " has no return statement, but is expected to return a value" ++
      " of type " ++ quoted type
  | breakOutsideLoop => "break is not inside a loop"
  | continueOutsideLoop => "continue is not inside a loop"
  | returnValueExpected => "return expression expected"
  | returnFromVoid => "cannot return non-void from void function"
  | escapingLocal name => "escaping reference to local " ++ quoted name

end Problem

end DCompiler
