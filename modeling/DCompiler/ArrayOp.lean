import DCompiler.Scope

/-!
# Array operations made so far

For each name of an array operation the functions behind it. An operation is made once and found
here afterwards. The support library implements some: a routine is named by its operation and by the
letter of its element type.
-/

namespace DCompiler

def arrayRoutines : List (String × List Char) :=
  let all := ['a', 'd', 'f', 'g', 'h', 'i', 'k', 's', 't', 'u', 'w']
  let wide := ['d', 'f', 'i', 'k', 's', 't', 'u', 'w']
  let floating := ['d', 'f']
  let complex := ['r']
  [("ExpSliceAddass", all),
   ("ExpSliceDivass", floating),
   ("ExpSliceMinSliceAssign", all),
   ("ExpSliceMinass", all),
   ("ExpSliceMulass", wide),
   ("SliceExpAddSliceAssign", all),
   ("SliceExpDivSliceAssign", floating),
   ("SliceExpMinSliceAssign", all),
   ("SliceExpMulSliceAddass", floating ++ complex),
   ("SliceExpMulSliceAssign", wide),
   ("SliceExpMulSliceMinass", floating ++ complex),
   ("SliceSliceAddSliceAssign", all ++ complex),
   ("SliceSliceAddass", all),
   ("SliceSliceMinSliceAssign", all ++ complex),
   ("SliceSliceMinass", all),
   ("SliceSliceMulSliceAssign", wide),
   ("SliceSliceMulass", wide)]

def arrayOpName (operation elem : String) : String :=
  "_array" ++ operation ++ "_" ++ elem

def isArrayRoutine (name : String) : Bool :=
  arrayRoutines.any fun (operation, letters) =>
    letters.any fun letter => name == arrayOpName operation letter.toString

structure ArrayOpEntry where
  runtime : Option SymbolId
  interpretable : Option SymbolId
  deriving Repr, DecidableEq, Inhabited

/-- The function that calls go to: the library routine if there is one. An operation that could not
be analysed has none. -/
def ArrayOpEntry.callee (e : ArrayOpEntry) : Option SymbolId :=
  e.interpretable.map fun made => e.runtime.getD made

structure ArrayOpCache where
  entries : List (String × ArrayOpEntry)
  builds : Nat
  deriving Repr, Inhabited

namespace ArrayOpCache

def empty : ArrayOpCache := ⟨[], 0⟩

def get? (c : ArrayOpCache) (name : String) : Option ArrayOpEntry := c.entries.lookup name

def insertInto (name : String) (entry : ArrayOpEntry) :
    List (String × ArrayOpEntry) → List (String × ArrayOpEntry)
  | [] => [(name, entry)]
  | other :: rest =>
    if name = other.1 then (name, entry) :: rest
    else if name < other.1 then (name, entry) :: other :: rest
    else other :: insertInto name entry rest

def insert (c : ArrayOpCache) (name : String) (entry : ArrayOpEntry) : ArrayOpCache :=
  ⟨insertInto name entry c.entries, c.builds + 1⟩

def size (c : ArrayOpCache) : Nat := c.entries.length

def binds (c : ArrayOpCache) (func : SymbolId) : Bool :=
  c.entries.any fun e => e.2.callee == some func

end ArrayOpCache

end DCompiler
