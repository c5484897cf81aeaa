/-!
# Storage classes

A storage class is a set of flags. Its bits are part of the summary that tools read, so each flag
has a fixed bit.
-/

namespace DCompiler

structure StorageClass where
  bits : UInt32
  deriving Repr, DecidableEq, Inhabited

namespace StorageClass

def none : StorageClass := ⟨0⟩
def const : StorageClass := ⟨0x1⟩
def byRef : StorageClass := ⟨0x2⟩
def out : StorageClass := ⟨0x4⟩
def lazy : StorageClass := ⟨0x8⟩
def static : StorageClass := ⟨0x10⟩
def external : StorageClass := ⟨0x20⟩
def abstract : StorageClass := ⟨0x40⟩
def override : StorageClass := ⟨0x80⟩
def property : StorageClass := ⟨0x100⟩
def parameter : StorageClass := ⟨0x200⟩
def field : StorageClass := ⟨0x400⟩
/-- A compile-time constant: uses are replaced by its value. -/
def manifest : StorageClass := ⟨0x800⟩
def exported : StorageClass := ⟨0x1000⟩

instance : OrOp StorageClass := ⟨fun a b => ⟨a.bits ||| b.bits⟩⟩

def contains (a b : StorageClass) : Bool := a.bits &&& b.bits == b.bits

def intersects (a b : StorageClass) : Bool := a.bits &&& b.bits != 0

def without (a b : StorageClass) : StorageClass := ⟨a.bits &&& ~~~b.bits⟩

def isRef (a : StorageClass) : Bool := a.intersects (byRef ||| out)

def keyword (a : StorageClass) : Option String :=
  if a.contains out then some "out"
  else if a.contains byRef then some "ref"
  else if a.contains lazy then some "lazy"
  else if a.contains const then some "const"
  else Option.none

end StorageClass

end DCompiler
