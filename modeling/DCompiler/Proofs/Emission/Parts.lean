import DCompiler.Emission
import DCompiler.Proofs.Object.Assembly

/-!
# The data of a program

The initial value of a global variable is described by *parts*: bytes, addresses of symbols, and
addresses of data without a name of its own, such as the elements of a dynamic array. A description
(`Description`) holds the parts of a value and the unnamed data that is made for it. All data of a
program is a list of *items* (`Program.dataItems`): for each global variable the unnamed data of its
value, and then the variable.

A value takes the bytes of its type, with one exception. An address is always as large as a pointer,
also in the place of a value that is larger. So a value takes at least the bytes of its type if each
address in it is in the place of a value that is no larger than a pointer
(`size_le_total`).
-/

namespace DCompiler

open Emission List Option

/-! ## Parts -/

inductive DataPart where
  | byte (value : UInt8)
  /-- The address of a symbol, in the place of a value of a type. -/
  | address (type : TypeId) (target : SymbolId)
  /-- The address of unnamed data. -/
  | unnamed
  deriving Repr, DecidableEq

namespace DataPart

def size (pointerSize : Nat) : DataPart → Nat
  | byte _ => 1
  | address _ _ | unnamed => pointerSize

def total (pointerSize : Nat) (ps : List DataPart) : Nat := (ps.map (size pointerSize)).sum

def literal (bs : List UInt8) : List DataPart := bs.map byte

def zeros (n : Nat) : List DataPart := literal (replicate n 0)

def target? : DataPart → Option SymbolId
  | address _ s => some s
  | _ => none

/-- The type of the value in whose place an address is. -/
def place? : DataPart → Option TypeId
  | address type _ => some type
  | _ => none

variable (pointerSize : Nat)

@[simp] theorem total_nil : total pointerSize [] = 0 := rfl

@[simp] theorem total_append (ps qs : List DataPart) :
    total pointerSize (ps ++ qs) = total pointerSize ps + total pointerSize qs := by
  simp [total]

@[simp] theorem total_literal (bs : List UInt8) : total pointerSize (literal bs) = bs.length := by
  induction bs with
  | nil => rfl
  | cons b bs ih =>
    have hcons : total pointerSize (literal (b :: bs)) = 1 + total pointerSize (literal bs) := by
      simp [total, literal, size]
    rw [hcons, ih, length_cons, Nat.add_comm]

@[simp] theorem total_zeros (n : Nat) : total pointerSize (zeros n) = n := by simp [zeros]

@[simp] theorem total_unnamed : total pointerSize [unnamed] = pointerSize := by simp [total, size]

@[simp] theorem total_address (type : TypeId) (s : SymbolId) :
    total pointerSize [address type s] = pointerSize := by simp [total, size]

theorem total_copies (n : Nat) (ps : List DataPart) :
    total pointerSize (replicate n ps).flatten = n * total pointerSize ps := by
  induction n with
  | zero => simp
  | succ n ih => rw [replicate_succ, flatten_cons, total_append, ih, Nat.succ_mul, Nat.add_comm]

end DataPart

open DataPart

/-- What the data of a value is. -/
structure Description where
  parts : List DataPart
  /-- The unnamed data that is made for it, in order. -/
  besides : List (List DataPart) := []
  deriving Repr, DecidableEq

namespace Description

def join (ds : List Description) : Description :=
  ⟨ds.flatMap (·.parts), ds.flatMap (·.besides)⟩

/-- A number of copies of one value. What it needs besides is made once. -/
def copies (n : Nat) (d : Description) : Description :=
  ⟨(replicate n d.parts).flatten, d.besides⟩

end Description

namespace Program

/-! ## Values -/

/-- The size of a value of a type, or zero if there is none. -/
def sizeOf (p : Program) (type : TypeId) : UInt64 :=
  (p.types.byteSize p.symbols p.pointerSize type).toOption.getD 0

/-- The data of an array literal: a length and a pointer to the elements, or the elements
themselves and zeros behind them. -/
def arrayDescription (p : Program) (type : TypeId) (count : Nat) (elems : Description) :
    Description :=
  match p.types.kind type with
  | .dynArray _ =>
    ⟨literal (Text.littleEndian p.pointerSize count.toUInt64) ++ [.unnamed],
      elems.besides ++ [elems.parts]⟩
  | _ =>
    ⟨elems.parts ++
      zeros ((p.sizeOf type).toNat - total p.pointerSize elems.parts), elems.besides⟩

/-- The data of a value that is not repeated. -/
def plainDescription (p : Program) (data : TypeId → ExprId → Description) (type : TypeId)
    (e : ExprId) : Description :=
  let size := p.sizeOf type
  match p.exprs.kind e with
  | .integer value _ => ⟨literal (Text.littleEndian size.toNat value), []⟩
  | .real value _ =>
    let bits := if size = 4 then value.toSingleBits.toUInt64 else value.bits
    ⟨literal (Text.littleEndian size.toNat bits), []⟩
  | .array elems =>
    p.arrayDescription type elems.length
      (.join (elems.map (data ((p.types.next? type).getD type))))
  | .unary .addressOf operand =>
    match p.exprs.kind operand with
    | .symbolRef target => ⟨[.address type target], []⟩
    | _ => ⟨zeros size.toNat, []⟩
  | _ => ⟨zeros size.toNat, []⟩

def descriptionWithin (p : Program) : Nat → TypeId → ExprId → Description
  | 0, _, _ => ⟨[], []⟩
  | depth + 1, type, e =>
    let e := p.belowCasts e
    let plain := p.plainDescription (p.descriptionWithin depth) type e
    match p.types.kind type with
    | .staticArray elem count =>
      if p.types.isArray ((p.exprs.type? e).getD type) then plain
      else .copies count.toNat (p.descriptionWithin depth elem e)
    | _ => plain

def description (p : Program) (type : TypeId) : Option ExprId → Description
  | none => ⟨zeros (p.sizeOf type).toNat, []⟩
  | some e => p.descriptionWithin (p.exprs.size + p.types.size + 1) type e

end Program

/-! ## Items -/

/-- Data that is placed as a whole. -/
structure DataItem where
  /-- The variable; unnamed data has none. -/
  symbol : Option SymbolId
  parts : List DataPart
  deriving Repr, DecidableEq

/-- The symbols whose addresses are in the data. -/
def DataItem.addresses (item : DataItem) : List SymbolId := item.parts.filterMap target?

theorem DataItem.mem_addresses {item : DataItem} {s : SymbolId} :
    s ∈ item.addresses ↔ ∃ type, address type s ∈ item.parts := by
  unfold addresses
  rw [mem_filterMap]
  constructor
  · rintro ⟨part, hpart, htarget⟩
    cases part with
    | address type target =>
      obtain rfl := Option.some.inj htarget
      exact ⟨type, hpart⟩
    | _ => exact nomatch htarget
  · rintro ⟨type, hpart⟩
    exact ⟨_, hpart, rfl⟩

/-- What an emission places for a value: the data it needs besides, and then the value itself. -/
def Description.items (d : Description) (symbol : Option SymbolId) : List DataItem :=
  d.besides.map (⟨none, ·⟩) ++ [⟨symbol, d.parts⟩]

/-- The name of a variable or function in the object file. -/
def Emission.objectName (p : Program) (s : SymbolId) : String :=
  match p.symbols.func? s with
  | some _ => p.linkName s
  | none => p.symbols.qualifiedName s

namespace Program

def emittedGlobals (p : Program) : List SymbolId := p.symbols.ids.filter p.isEmittedGlobal

def globalDescription (p : Program) (s : SymbolId) : Description :=
  let v := (p.symbols.var? s).getD default
  p.description v.type v.init

/-- All data of a program, in the order in which it is placed. -/
def dataItems (p : Program) : List DataItem :=
  p.emittedGlobals.flatMap fun s => (p.globalDescription s).items (some s)

/-- The symbols whose addresses are in the data of a program. -/
def addressed (p : Program) : List SymbolId := p.dataItems.flatMap (·.addresses)

/-- The size that is declared for a symbol; a function has none. -/
def objectSize (p : Program) (s : SymbolId) : UInt64 :=
  match p.symbols.func? s with
  | some _ => 0
  | none =>
    match p.symbols.var? s with
    | some v => p.sizeOf v.type
    | none => 0

/-- The largest size that is declared under a name. -/
def sizeUnder (p : Program) (name : String) : Nat :=
  ((p.symbols.ids.filter fun s => objectName p s = name).map fun s => (p.objectSize s).toNat).foldl
    max 0

/-- How many bytes an item takes at most. -/
def room (p : Program) (item : DataItem) : Nat :=
  max (total p.pointerSize item.parts)
    (match item.symbol with
    | some s => p.sizeUnder (objectName p s)
    | none => 0)

def dataSize (p : Program) : Nat := (p.dataItems.map p.room).sum

theorem objectSize_le (p : Program) (s : SymbolId) :
    (p.objectSize s).toNat ≤ p.sizeUnder (objectName p s) := by
  by_cases hs : s ∈ p.symbols.ids
  · rw [sizeUnder, foldl_max]
    refine Nat.le_trans (le_max?_getD_of_mem ?_) (Nat.le_max_right ..)
    exact mem_map.mpr ⟨s, mem_filter.mpr ⟨hs, by simp⟩, rfl⟩
  -- a symbol that is not in the table is no variable
  have hnone : p.symbols.symbols[s.index]? = none :=
    Array.getElem?_eq_none (Nat.le_of_not_lt fun hlt =>
      hs (mem_map.mpr ⟨s.index, mem_range.mpr hlt, rfl⟩))
  have hdefault : p.symbols.symbol s = default := by
    rw [SymbolTable.symbol, hnone]
    rfl
  have hzero : p.objectSize s = 0 := by
    rw [objectSize, SymbolTable.func?, SymbolTable.var?, hdefault]
    rfl
  rw [hzero]
  exact Nat.zero_le _

end Program

/-! ## Sizes -/

section Layout

variable {t : TypeTable} {symbols : SymbolTable} {pointerSize : Nat}

theorem foldlM_mono {α β : Type} {f g : β → α → Except Fault β} {xs : List α} {b c : β}
    (hfg : ∀ b x c, f b x = .ok c → g b x = .ok c) (hf : xs.foldlM f b = .ok c) :
    xs.foldlM g b = .ok c := by
  induction xs generalizing b with
  | nil => exact hf
  | cons x xs ih =>
    rw [foldlM_cons] at hf ⊢
    obtain ⟨d, hd, hf⟩ := Fault.bind_eq_ok.mp hf
    exact Fault.bind_eq_ok.mpr ⟨d, hfg b x d hd, ih hf⟩

theorem layoutBy_mono {below below' : TypeId → Except Fault Layout} {type : TypeId} {l : Layout}
    (hbelow : ∀ c l, below c = .ok l → below' c = .ok l)
    (hl : t.layoutBy symbols pointerSize below type = .ok l) :
    t.layoutBy symbols pointerSize below' type = .ok l := by
  have hbind {α : Type} {f : Layout → Except Fault α} {c : TypeId} {x : α}
      (h : (below c >>= f) = .ok x) : (below' c >>= f) = .ok x := by
    obtain ⟨m, hm, hf⟩ := Fault.bind_eq_ok.mp h
    exact Fault.bind_eq_ok.mpr ⟨m, hbelow c m hm, hf⟩
  unfold TypeTable.layoutBy at hl ⊢
  split at hl <;> try exact hl
  · exact hbind hl
  · exact hbind hl
  · obtain ⟨sum, hsum, hl⟩ := Fault.bind_eq_ok.mp hl
    exact Fault.bind_eq_ok.mpr ⟨sum, foldlM_mono (fun _ _ _ => hbind) hsum, hl⟩
  split at hl
  · exact hl
  obtain ⟨fields, hfields, hl⟩ := Fault.bind_eq_ok.mp hl
  exact Fault.bind_eq_ok.mpr ⟨fields, foldlM_mono (fun _ _ _ => hbind) hfields, hl⟩

theorem layoutWithin_mono {depth more : Nat} (hle : depth ≤ more) {type : TypeId} {l : Layout}
    (hl : t.layoutWithin symbols pointerSize depth type = .ok l) :
    t.layoutWithin symbols pointerSize more type = .ok l := by
  induction depth generalizing more type l with
  | zero => exact nomatch hl
  | succ depth ih =>
    obtain ⟨more, rfl⟩ : ∃ n, more = n + 1 := ⟨more - 1, by omega⟩
    exact layoutBy_mono (fun _ _ => ih (by omega)) hl

end Layout

namespace Program

variable {p : Program} {type elem : TypeId} {e : ExprId} {depth d : Nat} {l : Layout}

theorem sizeOf_eq (hd : d ≤ p.types.size + 1)
    (hl : p.types.layoutWithin p.symbols p.pointerSize d type = .ok l) :
    p.sizeOf type = l.size := by
  rw [sizeOf, TypeTable.byteSize, layoutWithin_mono hd hl]
  rfl

/-- Each address is in the place of a value that is no larger than a pointer. -/
def AddressesFit (p : Program) (ps : List DataPart) : Prop :=
  ∀ type ∈ ps.filterMap place?, (p.sizeOf type).toNat ≤ p.pointerSize

instance (p : Program) (ps : List DataPart) : Decidable (p.AddressesFit ps) :=
  inferInstanceAs (Decidable (∀ type ∈ ps.filterMap place?, _))

theorem AddressesFit.of_subset {ps qs : List DataPart} (hqs : p.AddressesFit qs)
    (hsubset : ps ⊆ qs) : p.AddressesFit ps := fun type htype => by
  obtain ⟨part, hpart, hplace⟩ := mem_filterMap.mp htype
  exact hqs type (mem_filterMap.mpr ⟨part, hsubset hpart, hplace⟩)

section

variable (hd : d ≤ p.types.size)
  (hl : p.types.layoutWithin p.symbols p.pointerSize (d + 1) type = .ok l)
include hd hl

theorem size_le_total_array
    (count : Nat) (elems : Description) :
    l.size.toNat ≤
      total p.pointerSize (p.arrayDescription type count elems).parts := by
  unfold arrayDescription
  split
  · next hkind =>
    rw [TypeTable.layoutWithin, TypeTable.layoutBy, hkind] at hl
    obtain rfl := Except.ok.inj hl
    rw [total_append, total_literal, Text.length_littleEndian, total_unnamed]
    calc (p.pointerSize.toUInt64 * 2).toNat
        ≤ p.pointerSize.toUInt64.toNat * 2 := by
          exact Nat.mod_le _ _
      _ ≤ p.pointerSize * 2 := by
          have hword : p.pointerSize.toUInt64.toNat =
            p.pointerSize % 2 ^ 64 := UInt64.toNat_ofNat'
          exact Nat.mul_le_mul_right 2 (hword ▸ Nat.mod_le _ _)
      _ = _ := Nat.mul_two _
  · rw [sizeOf_eq (by omega) hl]
    simp only [total_append, total_zeros]
    omega

theorem size_le_total_plain
    {data : TypeId → ExprId → Description}
    (hfit : p.AddressesFit (p.plainDescription data type e).parts) :
    l.size.toNat ≤ total p.pointerSize (p.plainDescription data type e).parts := by
  have hsize := sizeOf_eq (by omega) hl
  unfold plainDescription at hfit ⊢
  rw [hsize] at hfit ⊢
  split
  · simp
  · simp
  · exact size_le_total_array hd hl _ _
  · next hexpr =>
    split
    · next hoperand =>
      simp only [hexpr, hoperand] at hfit
      rw [total_address, ← hsize]
      exact hfit type (by simp [place?])
    · simp
  · simp

end

/-- **A value takes the bytes of its type**, if each address in it fits. -/
theorem size_le_total (hd : d ≤ p.types.size + 1) (hdepth : d ≤ depth)
    (hl : p.types.layoutWithin p.symbols p.pointerSize d type = .ok l)
    (hfit : p.AddressesFit (p.descriptionWithin depth type e).parts) :
    l.size.toNat ≤ total p.pointerSize (p.descriptionWithin depth type e).parts := by
  induction d generalizing depth type e l with
  | zero => exact nomatch hl
  | succ d ih =>
    obtain ⟨depth, rfl⟩ : ∃ n, depth = n + 1 := ⟨depth - 1, by omega⟩
    have hd' : d ≤ p.types.size := by omega
    unfold descriptionWithin at hfit ⊢
    dsimp only at hfit ⊢
    split
    · next elem count hkind =>
      simp only [hkind] at hfit
      split
      · next harray =>
        rw [if_pos harray] at hfit
        exact size_le_total_plain hd' hl hfit
      · next harray =>
        -- copies of an element, and the size of the type is that of as many elements
        rw [if_neg harray] at hfit
        rw [TypeTable.layoutWithin, TypeTable.layoutBy, hkind] at hl
        obtain ⟨below, hbelow, hl⟩ := Fault.bind_eq_ok.mp hl
        obtain ⟨size, hsize, hl⟩ := Fault.bind_eq_ok.mp hl
        obtain rfl := Except.ok.inj hl
        rw [Description.copies, total_copies, Fault.wordOr_eq_ok.mp hsize]
        rcases Nat.eq_zero_or_pos count.toNat with hzero | hpos
        · simp [hzero]
        rw [Nat.mul_comm]
        refine Nat.mul_le_mul_left _ (ih (by omega) (by omega) hbelow (hfit.of_subset ?_))
        intro part hpart
        exact mem_flatten.mpr ⟨_, mem_replicate.mpr ⟨by omega, rfl⟩, hpart⟩
    · next hkind =>
      split at hfit
      · next elem count hkind' => exact absurd hkind' (hkind elem count)
      · exact size_le_total_plain hd' hl hfit

theorem size_le_description (init : Option ExprId)
    (hfit : p.AddressesFit (p.description type init).parts) :
    (p.sizeOf type).toNat ≤
      total p.pointerSize (p.description type init).parts := by
  cases init with
  | none => simp [description]
  | some e =>
    rw [sizeOf, TypeTable.byteSize]
    cases hl : p.types.layoutWithin p.symbols p.pointerSize (p.types.size + 1)
      type with
    | error e => exact Nat.zero_le _
    | ok l => exact size_le_total .refl (by omega) hl hfit

end Program

end DCompiler
