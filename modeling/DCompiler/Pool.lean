import DCompiler.Text.Bytes

/-!
# Record pools

A pool holds records in numbered slots. The slots that no record is in form a list: each names the
next one. They are used again, the one freed last first; when there is none, the pool grows by a
chunk of slots. Each slot counts how often it was freed, and a handle names a slot together with
that count. So a handle to a record that was freed is recognised as stale, also after its slot is
used again.

Records that each name the next one are a chain, given by the handle of its first record. A
`ChainBuilder` knows the last record too, so that it appends without walking the chain. A fault ends
the work; what was done before it remains.
-/

namespace DCompiler

structure Handle where
  slot : Nat
  generation : UInt32
  deriving Repr, DecidableEq, Inhabited

def Handle.text (h : Handle) : String :=
  "#" ++ toString h.slot ++ "v" ++ toString h.generation.toNat

structure Slot (α : Type) where
  /-- How often a record was freed from it, modulo `2 ^ 32`. -/
  generation : UInt32
  record : Option α
  /-- The next slot without a record, if there is no record in this one. -/
  nextFree : Option Nat
  deriving Repr, DecidableEq, Inhabited

structure Pool (α : Type) where
  chunkLength : Nat
  slots : Array (Slot α)
  /-- The first slot without a record, which is the next to be used. -/
  freeHead : Option Nat
  live : Nat
  chunks : Nat
  deriving Repr, Inhabited

namespace Pool

variable {α : Type}

def chunkBytes : Nat := 4096

def empty (recordBytes : Nat) : Pool α :=
  ⟨max (chunkBytes / max recordBytes 1) 1, #[], none, 0, 0⟩

def capacity (p : Pool α) : Nat := p.slots.size

def get? (p : Pool α) (h : Handle) : Option α := do
  let slot ← p.slots[h.slot]?
  if slot.generation = h.generation then slot.record else none

def contains (p : Pool α) (h : Handle) : Bool := (p.get? h).isSome

/-- Replace the record behind a handle; nothing happens through a stale one. -/
def set (p : Pool α) (h : Handle) (r : α) : Pool α :=
  if p.contains h then
    { p with slots := p.slots.modify h.slot fun slot => { slot with record := some r } }
  else p

/-- Add a chunk of slots behind the others, each before the next one in the list of free slots. -/
def grow (p : Pool α) : Pool α :=
  let start := p.slots.size
  let chunk := (List.range p.chunkLength).map fun i =>
    ⟨0, none, if i + 1 < p.chunkLength then some (start + i + 1) else p.freeHead⟩
  { p with slots := p.slots ++ chunk.toArray, freeHead := some start, chunks := p.chunks + 1 }

def withFree (p : Pool α) : Pool α := if p.freeHead.isNone then p.grow else p

def add (p : Pool α) (r : α) : Handle × Pool α :=
  let p := p.withFree
  let index := p.freeHead.getD 0
  let slot := (p.slots[index]?).getD ⟨0, none, none⟩
  (⟨index, slot.generation⟩,
    { p with
      slots := p.slots.modify index fun s => ⟨s.generation, some r, none⟩
      freeHead := slot.nextFree
      live := p.live + 1 })

def allocate [Inhabited α] (p : Pool α) : Handle × Pool α := p.add default

def remove? (p : Pool α) (h : Handle) : Option (α × Pool α) := do
  let r ← p.get? h
  return (r,
    { p with
      slots := p.slots.modify h.slot fun s => ⟨s.generation + 1, none, p.freeHead⟩
      freeHead := some h.slot
      live := p.live - 1 })

def text (p : Pool α) : String :=
  "FreeList \x7b live: " ++ toString p.live ++ ", capacity: " ++ toString p.capacity ++
    ", chunks: " ++ toString p.chunks ++ " \x7d"

end Pool

/-! ## Faults -/

inductive Fault where
  | staleHandle (h : Handle)
  | staleFree (h : Handle)
  /-- A chain of records leads back into itself. -/
  | endlessChain
  | parityOfJump (parity opcode : UInt32)
  | commonNotZero
  | commonInsideData
  | notFlat (record : String)
  | notAnAddress (record : String)
  | noObjectSymbol (count index : Nat)
  | fieldOutOfRange (stop length : Nat)
  | endlessType
  | sumOverflow
  | differenceOverflow
  | productOverflow
  deriving Repr, DecidableEq, Inhabited

namespace Fault

def hexText (n : Nat) : String := "0x" ++ Text.hex n

def message : Fault → String
  | staleHandle h => "stale record handle " ++ h.text
  | staleFree h => "freeing stale handle " ++ h.text
  | endlessChain => "endless chain of records"
  | parityOfJump parity opcode =>
    "bad parity prefix " ++ hexText parity.toNat ++ " in jump opcode " ++ hexText opcode.toNat
  | commonNotZero => "COMMON data must be a single zero run"
  | commonInsideData => "COMMON record inside initialised data"
  | notFlat record => "cannot flatten data record " ++ record
  | notAnAddress record => "patching offset of non-xoff data record " ++ record
  | noObjectSymbol count index =>
    "index out of bounds: the len is " ++ toString count ++ " but the index is " ++ toString index
  | fieldOutOfRange stop length =>
    "range end index " ++ toString stop ++ " out of range for slice of length " ++ toString length
  | endlessType => "a type contains itself"
  | sumOverflow => "attempt to add with overflow"
  | differenceOverflow => "attempt to subtract with overflow"
  | productOverflow => "attempt to multiply with overflow"

/-- The word for a number, if there is one. -/
def wordOr (fault : Fault) (n : Nat) : Except Fault UInt64 :=
  if n < 2 ^ 64 then .ok n.toUInt64 else .error fault

/-- The signed word for a number, if there is one. -/
def signedWordOr (fault : Fault) (n : Int) : Except Fault Int64 :=
  if -2 ^ 63 ≤ n ∧ n < 2 ^ 63 then .ok (.ofInt n) else .error fault

end Fault

abbrev Work (σ : Type) := ExceptT Fault (StateM σ)

namespace Work

variable {σ τ : Type} {α : Type}

def onPart (read : σ → τ) (write : τ → σ → σ) (w : Work τ α) : Work σ α := fun s =>
  let (result, part) := w.run (read s)
  (result, write part s)

end Work

/-! ## Chains -/

structure Linked (α : Type) where
  item : α
  next : Option Handle
  deriving Repr, DecidableEq, Inhabited

abbrev ChainPool (α : Type) := Pool (Linked α)

abbrev Chain := Option Handle

abbrev ChainWork (α : Type) := Work (ChainPool α)

namespace ChainWork

variable {α : Type}

def record (h : Handle) : ChainWork α (Linked α) := do
  match (← get).get? h with
  | some r => return r
  | none => throw (.staleHandle h)

def modifyRecord (h : Handle) (f : Linked α → Linked α) : ChainWork α Unit := do
  let r ← record h
  modify (·.set h (f r))

def modifyItem (h : Handle) (f : α → α) : ChainWork α Unit :=
  modifyRecord h fun r => { r with item := f r.item }

def setNext (h : Handle) (next : Chain) : ChainWork α Unit :=
  modifyRecord h fun r => { r with next := next }

def make (item : α) : ChainWork α Handle := modifyGet (·.add ⟨item, none⟩)

def remove (h : Handle) : ChainWork α (Linked α) := do
  match (← get).remove? h with
  | some (r, p) =>
    set p
    return r
  | none => throw (.staleFree h)

def handlesWithin : Nat → Chain → ChainWork α (List Handle)
  | _, none => return []
  | 0, some _ => throw .endlessChain
  | steps + 1, some h => do
    let r ← record h
    return h :: (← handlesWithin steps r.next)

def handles (c : Chain) : ChainWork α (List Handle) := do
  handlesWithin ((← get).capacity + 1) c

def items (c : Chain) : ChainWork α (List α) := do
  (← handles c).mapM fun h => return (← record h).item

def last (c : Chain) : ChainWork α (Option Handle) := return (← handles c).getLast?

def append (first second : Chain) : ChainWork α Chain := do
  match ← last first with
  | none => return second
  | some tail =>
    setNext tail second
    return first

def releaseWithin : Nat → Chain → ChainWork α Unit
  | _, none => return
  | 0, some h => throw (.staleHandle h)
  | steps + 1, some h => do
    let r ← record h
    let _ ← remove h
    releaseWithin steps r.next

/-- Free the records of a chain. Each step frees a record, so a chain that leads back into itself
ends at a stale handle. -/
def release (c : Chain) : ChainWork α Unit := do
  releaseWithin ((← get).live + 1) c

end ChainWork

structure ChainBuilder where
  first : Chain := none
  last : Chain := none
  deriving Repr, DecidableEq, Inhabited

namespace ChainBuilder

variable {α : Type}

def empty : ChainBuilder := {}

def isEmpty (b : ChainBuilder) : Bool := b.first.isNone

def ofChain (c : Chain) : ChainWork α ChainBuilder :=
  return ⟨c, ← ChainWork.last c⟩

/-- Append records from `first` to `last`, which are linked already. -/
def link (b : ChainBuilder) (first last : Handle) : ChainWork α ChainBuilder := do
  match b.last with
  | some tail =>
    ChainWork.setNext tail (some first)
    return { b with last := some last }
  | none => return ⟨some first, some last⟩

def push (b : ChainBuilder) (item : α) : ChainWork α (Handle × ChainBuilder) := do
  let h ← ChainWork.make item
  return (h, ← b.link h h)

def append (b other : ChainBuilder) : ChainWork α ChainBuilder := do
  match other.first, other.last with
  | some first, some last => b.link first last
  | _, _ => return b

def appendChain (b : ChainBuilder) (c : Chain) : ChainWork α ChainBuilder := do
  match c, ← ChainWork.last c with
  | some first, some last => b.link first last
  | _, _ => return b

end ChainBuilder

end DCompiler
