import Mathlib.Data.List.Nodup
import DCompiler.Object.File
import DCompiler.Proofs.Text.Encoding

/-!
# Writing to object files

Bytes are written over others or behind them, and a write to one segment leaves the others alone.
An object file that holds data only (`DataOnly`) stays one as long as nothing is written to the
code segment and no reference is made from it.

Code is laid out as *pieces*, which are bytes and fields of four bytes that refer to names. An image
shows pieces as bytes once the contents of the fields are known. Fields do not overlap, so writing
one changes that field and nothing else (`writeAt_image`).

A call field waits for its symbol with zeros in it, and then meets one of two *fates*: it holds the
distance to a place in the code, or it keeps its zeros and there is one relocation at it. A file
*shows* pieces with fates if its code is the image of the pieces, and if the relocations in it are
those of the fates. Filling in fields changes their fates and nothing else.
-/

namespace DCompiler

open List

/-! ## Bytes -/

theorem writeAt_behind (bytes data : List UInt8) :
    writeAt data.length bytes data = data ++ bytes := by
  simp [writeAt]

theorem writeAt_between (front old new back : List UInt8) (hlength : old.length = new.length) :
    writeAt front.length new (front ++ (old ++ back)) = front ++ (new ++ back) := by
  have hroom : front.length - (front ++ (old ++ back)).length = 0 := by simp
  have hback : (front ++ (old ++ back)).drop (front.length + new.length) = back := by
    rw [← append_assoc, ← hlength, ← length_append, drop_left]
  rw [writeAt, take_left, hroom, hback, replicate_zero, append_nil, append_assoc]

theorem length_writeAt (offset : Nat) (bytes data : List UInt8) :
    (writeAt offset bytes data).length = max data.length (offset + bytes.length) := by
  simp only [writeAt, length_append, length_take, length_replicate, length_drop]
  omega

theorem getElem?_writeAt (offset : Nat) (bytes data : List UInt8) (k : Nat) :
    (writeAt offset bytes data)[k]? =
      if k < offset then if k < data.length then data[k]? else some 0
      else if k < offset + bytes.length then bytes[k - offset]? else data[k]? := by
  simp only [writeAt, getElem?_append, getElem?_take, getElem?_replicate, getElem?_drop,
    length_append, length_take, length_replicate]
  grind

namespace ObjectFile

variable {pointerSize : Nat} {f g : ObjectFile} {s : Segment} {offset : UInt64} {bytes : List UInt8}
  {k : Nat}

/-! ## Segments -/

theorem segment_write (f : ObjectFile) (s : Segment) (offset : UInt64) (bytes : List UInt8)
    (s' : Segment) :
    (f.write s offset bytes).segment s' =
      if s' = s then writeAt offset.toNat bytes (f.segment s) else f.segment s' := by
  cases s <;> cases s' <;> rfl

theorem getElem?_write_outside {s' : Segment} (hroom : offset.toNat ≤ (f.segment s).length)
    (hout : s' = s → k < offset.toNat ∨ offset.toNat + bytes.length ≤ k) :
    ((f.write s offset bytes).segment s')[k]? = (f.segment s')[k]? := by
  rw [segment_write]
  split
  · next hs =>
    subst hs
    rw [getElem?_writeAt]
    grind
  · rfl

theorem getElem?_write_inside (hk : k < bytes.length) :
    ((f.write s offset bytes).segment s)[offset.toNat + k]? = bytes[k]? := by
  rw [segment_write, if_pos rfl, getElem?_writeAt, if_neg (by omega), if_pos (by omega)]
  congr 1
  omega

/-! ## Files without code -/

/-- A file for pointers of a size with data only. -/
structure DataOnly (pointerSize : Nat) (f : ObjectFile) : Prop where
  pointerSize_eq : f.pointerSize = pointerSize
  code : f.segment .code = []
  relocations : ∀ r ∈ f.relocations, r.segment ≠ .code
  externals : f.externals = []
  defined : ∀ d ∈ f.defined, d.segment ≠ .code

theorem DataOnly.write (hf : DataOnly pointerSize f) (hs : s ≠ .code) (offset : UInt64)
    (bytes : List UInt8) : DataOnly pointerSize (f.write s offset bytes) :=
  { hf with code := by rw [segment_write, if_neg hs.symm, hf.code] }

theorem DataOnly.refer (hf : DataOnly pointerSize f) (hs : s ≠ .code) (offset : UInt64)
    (bytes : List UInt8) {r : Relocation} (hr : r.segment = s) :
    DataOnly pointerSize
      { f.write s offset bytes with relocations := f.relocations ++ [r] } :=
  { hf.write hs offset bytes with
    code := (hf.write hs offset bytes).code
    relocations := fun q hq => by
      rcases mem_append.mp hq with hq | hq
      · exact hf.relocations q hq
      · rw [mem_singleton.mp hq, hr]
        exact hs }

theorem DataOnly.define (hf : DataOnly pointerSize f) {sym : ObjectSymbol}
    (hsym : sym.segment ≠ some .code) : DataOnly pointerSize (f.define sym) := by
  unfold ObjectFile.define
  cases hsegment : sym.segment with
  | none => exact hf
  | some s =>
    refine { hf with defined := fun d hd => ?_, code := hf.code }
    rcases mem_append.mp hd with hd | hd
    · exact hf.defined d hd
    · rw [mem_singleton.mp hd]
      exact fun h => hsym (hsegment.trans (congrArg some h))

/-! ## Files that grow -/

/-- The file `f'` has all segments of `f`, with more bytes at most, and its external names. -/
structure Grows (f f' : ObjectFile) : Prop where
  pointerSize : f'.pointerSize = f.pointerSize
  externals : f'.externals = f.externals
  length : ∀ g, (f.segment g).length ≤ (f'.segment g).length

variable {f' f'' : ObjectFile}

theorem Grows.refl (f : ObjectFile) : f.Grows f := ⟨rfl, rfl, fun _ => .refl⟩

theorem Grows.trans (hf : f.Grows f') (hf' : f'.Grows f'') : f.Grows f'' :=
  ⟨hf'.pointerSize.trans hf.pointerSize, hf'.externals.trans hf.externals,
    fun g => Nat.le_trans (hf.length g) (hf'.length g)⟩

theorem grows_write (f : ObjectFile) (s : Segment) (offset : UInt64) (bytes : List UInt8) :
    f.Grows (f.write s offset bytes) := by
  refine ⟨rfl, rfl, fun g => ?_⟩
  rw [segment_write]
  split
  · next hg =>
    rw [length_writeAt, hg]
    omega
  · exact .refl

theorem grows_define (f : ObjectFile) (s : ObjectSymbol) : f.Grows (f.define s) := by
  unfold define
  split
  · exact .refl f
  · exact ⟨rfl, rfl, fun _ => .refl⟩

/-- The file grows, and no code comes into it. -/
structure GrowsData (f f' : ObjectFile) : Prop extends Grows f f' where
  dataOnly : ∀ n, f.DataOnly n → f'.DataOnly n

theorem GrowsData.refl (f : ObjectFile) : f.GrowsData f := ⟨.refl f, fun _ hf => hf⟩

theorem GrowsData.trans (hf : f.GrowsData f') (hf' : f'.GrowsData f'') : f.GrowsData f'' :=
  ⟨hf.toGrows.trans hf'.toGrows, fun n h => hf'.dataOnly n (hf.dataOnly n h)⟩

theorem growsData_write (hs : s ≠ .code) (offset : UInt64) (bytes : List UInt8) :
    f.GrowsData (f.write s offset bytes) :=
  ⟨f.grows_write s offset bytes, fun _ hf => hf.write hs offset bytes⟩

theorem growsData_refer (hs : s ≠ .code) (offset : UInt64) (bytes : List UInt8) {r : Relocation}
    (hr : r.segment = s) :
    f.GrowsData { f.write s offset bytes with relocations := f.relocations ++ [r] } :=
  let hwrite := f.grows_write s offset bytes
  ⟨⟨hwrite.pointerSize, hwrite.externals, hwrite.length⟩, fun _ hf => hf.refer hs offset bytes hr⟩

end ObjectFile

/-! ## Images of code with fields -/

inductive Piece where
  | byte (b : UInt8)
  /-- Four bytes that refer to a name. -/
  | field (name : String)
  deriving Repr, DecidableEq

namespace Piece

variable {contents contents' : Nat → List UInt8} {start o : Nat} {name : String}
  {ps qs : List Piece}

def width : List Piece → Nat
  | [] => 0
  | byte _ :: ps => width ps + 1
  | field _ :: ps => width ps + 4

/-- The fields of pieces from an offset on, with their offsets. -/
def fields (start : Nat) : List Piece → List (Nat × String)
  | [] => []
  | byte _ :: ps => fields (start + 1) ps
  | field name :: ps => (start, name) :: fields (start + 4) ps

/-- The bytes of pieces from an offset on, with the contents of each field by its offset. -/
def image (contents : Nat → List UInt8) (start : Nat) : List Piece → List UInt8
  | [] => []
  | byte b :: ps => b :: image contents (start + 1) ps
  | field _ :: ps => contents start ++ image contents (start + 4) ps

/-! ## Pieces behind pieces -/

@[simp] theorem width_append (ps qs : List Piece) : width (ps ++ qs) = width ps + width qs := by
  induction ps with
  | nil => simp [width]
  | cons p ps ih => cases p <;> simp only [cons_append, width, ih] <;> omega

@[simp] theorem width_bytes (bs : List UInt8) : width (bs.map byte) = bs.length := by
  induction bs with
  | nil => rfl
  | cons b bs ih => simp [width, ih]

theorem fields_append (start : Nat) (ps qs : List Piece) :
    fields start (ps ++ qs) = fields start ps ++ fields (start + width ps) qs := by
  induction ps generalizing start with
  | nil => rfl
  | cons p ps ih => cases p <;> simp [fields, width, ih, Nat.add_assoc, Nat.add_comm (width ps)]

theorem image_append (contents : Nat → List UInt8) (start : Nat) (ps qs : List Piece) :
    image contents start (ps ++ qs) =
      image contents start ps ++ image contents (start + width ps) qs := by
  induction ps generalizing start with
  | nil => rfl
  | cons p ps ih => cases p <;> simp [image, width, ih, Nat.add_assoc, Nat.add_comm (width ps)]

@[simp] theorem fields_bytes (start : Nat) (bs : List UInt8) : fields start (bs.map byte) = [] := by
  induction bs generalizing start with
  | nil => rfl
  | cons b bs ih => exact ih (start + 1)

@[simp] theorem image_bytes (contents : Nat → List UInt8) (start : Nat) (bs : List UInt8) :
    image contents start (bs.map byte) = bs := by
  induction bs generalizing start with
  | nil => rfl
  | cons b bs ih => simp [image, ih]

theorem length_image (hcontents : ∀ o, (contents o).length = 4) (start : Nat) (ps : List Piece) :
    (image contents start ps).length = width ps := by
  induction ps generalizing start with
  | nil => rfl
  | cons p ps ih => cases p <;> simp [image, width, ih, hcontents, Nat.add_comm]

/-! ## Places of fields -/

theorem split_of_mem_fields (hmem : (o, name) ∈ fields start ps) :
    ∃ before behind, ps = before ++ field name :: behind ∧ o = start + width before := by
  induction ps generalizing start with
  | nil => simp [fields] at hmem
  | cons p ps ih =>
    cases p with
    | byte b =>
      obtain ⟨before, behind, rfl, rfl⟩ := ih hmem
      exact ⟨byte b :: before, behind, rfl, by simp only [width]; omega⟩
    | field other =>
      rcases mem_cons.mp hmem with heq | hmem
      · obtain ⟨rfl, rfl⟩ := Prod.mk.inj heq
        exact ⟨[], ps, rfl, rfl⟩
      · obtain ⟨before, behind, rfl, rfl⟩ := ih hmem
        exact ⟨field other :: before, behind, rfl, by simp only [width]; omega⟩

theorem field_in_range (hmem : (o, name) ∈ fields start ps) :
    start ≤ o ∧ o + 4 ≤ start + width ps := by
  obtain ⟨before, behind, rfl, rfl⟩ := split_of_mem_fields hmem
  simp only [width_append, width]
  omega

theorem nodup_fields (start : Nat) (ps : List Piece) : ((fields start ps).map Prod.fst).Nodup := by
  induction ps generalizing start with
  | nil => exact nodup_nil
  | cons p ps ih =>
    cases p with
    | byte b => exact ih (start + 1)
    | field name =>
      refine nodup_cons.mpr ⟨fun hmem => ?_, ih (start + 4)⟩
      obtain ⟨⟨o, other⟩, hmem, rfl⟩ := mem_map.mp hmem
      have := field_in_range hmem
      omega

theorem name_unique {other : String} (hname : (o, name) ∈ fields start ps)
    (hother : (o, other) ∈ fields start ps) : name = other :=
  congrArg Prod.snd (inj_on_of_nodup_map (nodup_fields start ps) hname hother rfl)

/-! ## Contents of fields -/

theorem image_congr (hsame : ∀ o name, (o, name) ∈ fields start ps → contents o = contents' o) :
    image contents start ps = image contents' start ps := by
  induction ps generalizing start with
  | nil => rfl
  | cons p ps ih =>
    cases p with
    | byte b => exact congrArg (b :: ·) (ih hsame)
    | field name =>
      rw [image, image, hsame start name mem_cons_self,
        ih fun o other hmem => hsame o other (mem_cons_of_mem _ hmem)]

theorem writeAt_image (hcontents : ∀ o, (contents o).length = 4) (hmem : (o, name) ∈ fields 0 ps)
    {bytes : List UInt8} (hbytes : bytes.length = 4) :
    writeAt o bytes (image contents 0 ps) =
      image (fun k => if k = o then bytes else contents k) 0 ps := by
  obtain ⟨before, behind, rfl, rfl⟩ := split_of_mem_fields hmem
  have hfront : image (fun k => if k = 0 + width before then bytes else contents k) 0 before =
      image contents 0 before := image_congr fun k other hk => by
    have := field_in_range hk
    rw [if_neg (by omega)]
  have hback : image (fun k => if k = 0 + width before then bytes else contents k)
      (0 + width before + 4) behind = image contents (0 + width before + 4) behind :=
    image_congr fun k other hk => by
      have := field_in_range hk
      rw [if_neg (by omega)]
  rw [image_append, image_append, image, image, hfront, hback, if_pos rfl]
  have hlength := length_image hcontents 0 before
  have hwrite := writeAt_between (image contents 0 before) (contents (0 + width before)) bytes
    (image contents (0 + width before + 4) behind) (by rw [hcontents, hbytes])
  rw [hlength] at hwrite
  simpa only [Nat.zero_add] using hwrite

theorem bytes_of_field (hcontents : ∀ o, (contents o).length = 4)
    (hmem : (o, name) ∈ fields 0 ps) : ((image contents 0 ps).drop o).take 4 = contents o := by
  obtain ⟨before, behind, rfl, rfl⟩ := split_of_mem_fields hmem
  have hlength := length_image hcontents 0 before
  simp only [Nat.zero_add] at *
  rw [image_append, ← hlength, drop_left, hlength, Nat.zero_add, image, take_left' (hcontents _)]

end Piece

/-! ## Tables of waiting fields -/

namespace FixupTable

variable {t : FixupTable} {s i : ObjectSymbolId} {f : Fixup}

/-- Each symbol has one queue, the order lists these symbols, and no queue is empty. -/
structure WF (t : FixupTable) : Prop where
  nodup : t.order.Nodup
  order_eq : t.order = t.queues.map (·.symbol)
  nonempty : ∀ q ∈ t.queues, q.fixups ≠ []
  idle : t.flushing = false

theorem wf_empty : WF .empty := ⟨nodup_nil, rfl, by simp [empty], rfl⟩

theorem waiting_cons (q : FixupQueue) (qs : List FixupQueue) (o : List ObjectSymbolId) (b : Bool)
    (i : ObjectSymbolId) :
    waiting ⟨q :: qs, o, b⟩ i = if q.symbol = i then q.fixups else waiting ⟨qs, o, b⟩ i := by
  unfold waiting
  by_cases hq : q.symbol = i <;> simp [hq]

theorem waiting_add (t : FixupTable) (s : ObjectSymbolId) (f : Fixup) (i : ObjectSymbolId) :
    (t.add s f).waiting i = if i = s then t.waiting s ++ [f] else t.waiting i := by
  obtain ⟨qs, o, b⟩ := t
  show waiting ⟨addTo s f qs, o, b⟩ i = _
  induction qs with
  | nil =>
    rw [addTo, waiting_cons]
    grind [waiting]
  | cons q qs ih =>
    rw [addTo]
    by_cases hq : q.symbol = s
    · rw [if_pos hq]
      grind [waiting_cons]
    · rw [if_neg hq, waiting_cons, ih]
      grind [waiting_cons]

theorem waiting_erase (t : FixupTable) (s i : ObjectSymbolId) :
    (t.erase s).waiting i = if i = s then [] else t.waiting i := by
  obtain ⟨qs, o, b⟩ := t
  cases b with
  | false =>
    show waiting ⟨qs.filter (·.symbol ≠ s), o, false⟩ i = _
    induction qs with
    | nil => simp [waiting]
    | cons q qs ih =>
      rw [filter_cons, waiting_cons]
      by_cases hq : q.symbol = s
      · rw [if_neg (by simpa using hq), ih]
        grind
      · rw [if_pos (by simpa using hq), waiting_cons, ih]
        grind
  | true =>
    show waiting ⟨qs.map fun q => if q.symbol = s then ⟨s, []⟩ else q, o, true⟩ i = _
    induction qs with
    | nil => simp [waiting]
    | cons q qs ih =>
      rw [map_cons, waiting_cons, ih, waiting_cons]
      grind

theorem symbols_addTo (i : ObjectSymbolId) (x : Fixup) (qs : List FixupQueue) :
    (addTo i x qs).map (·.symbol) =
      if i ∈ qs.map (·.symbol) then qs.map (·.symbol) else qs.map (·.symbol) ++ [i] := by
  induction qs with
  | nil => simp [addTo]
  | cons q qs ih =>
    rw [addTo]
    by_cases hq : q.symbol = i
    · simp [hq]
    rw [if_neg hq, map_cons, ih]
    grind

theorem WF.order_add (ht : t.WF) (s : ObjectSymbolId) (f : Fixup) :
    (t.add s f).order = if s ∈ t.order then t.order else t.order ++ [s] := by
  have hknown : t.queues.any (·.symbol = s) = true ↔ s ∈ t.order := by
    rw [ht.order_eq]
    simp
  simp only [add, hknown]

theorem nonempty_addTo {qs : List FixupQueue} (hqs : ∀ q ∈ qs, q.fixups ≠ []) :
    ∀ q ∈ addTo s f qs, q.fixups ≠ [] := by
  induction qs with
  | nil => simp [addTo]
  | cons q qs ih =>
    obtain ⟨hq, hqs⟩ := forall_mem_cons.mp hqs
    rw [addTo]
    split
    · exact forall_mem_cons.mpr ⟨by simp, hqs⟩
    · exact forall_mem_cons.mpr ⟨hq, ih hqs⟩

theorem WF.add (ht : t.WF) (s : ObjectSymbolId) (f : Fixup) : (t.add s f).WF where
  nodup := by
    rw [ht.order_add]
    split
    · exact ht.nodup
    · next hs => exact nodup_append.mpr ⟨ht.nodup, by simp, by grind⟩
  order_eq := by
    rw [ht.order_add, ht.order_eq]
    exact (symbols_addTo s f t.queues).symm
  nonempty := nonempty_addTo ht.nonempty
  idle := ht.idle

theorem WF.erase_eq (ht : t.WF) (s : ObjectSymbolId) : t.erase s =
    { t with queues := t.queues.filter (·.symbol ≠ s), order := t.order.filter (· ≠ s) } := by
  rw [FixupTable.erase, ht.idle]
  rfl

theorem WF.order_erase (ht : t.WF) (s : ObjectSymbolId) :
    (t.erase s).order = t.order.filter (· ≠ s) := by
  rw [ht.erase_eq]

theorem WF.erase (ht : t.WF) (s : ObjectSymbolId) : (t.erase s).WF := by
  rw [ht.erase_eq]
  refine ⟨ht.nodup.sublist filter_sublist, ?_, fun q hq => ht.nonempty q (mem_filter.mp hq).1,
    ht.idle⟩
  rw [ht.order_eq, filter_map]
  rfl

theorem WF.mem_order (ht : t.WF) : i ∈ t.order ↔ t.waiting i ≠ [] := by
  rw [ht.order_eq]
  obtain ⟨qs, o, b⟩ := t
  obtain ⟨-, -, hnonempty, -⟩ := ht
  dsimp only at hnonempty ⊢
  induction qs with
  | nil => simp [waiting]
  | cons q qs ih =>
    rw [map_cons, mem_cons, waiting_cons, ih fun q' hq' => hnonempty q' (mem_cons_of_mem _ hq')]
    by_cases hi : q.symbol = i
    · simp [hi, hnonempty q mem_cons_self]
    · simp [hi, Ne.symm hi]

theorem WF.filter_order (ht : t.WF) (hs : t.waiting s = []) : t.order.filter (· ≠ s) = t.order :=
  filter_eq_self.mpr fun _ hi => decide_eq_true fun h => ht.mem_order.mp (h ▸ hi) hs

end FixupTable

/-! ## Fates -/

/-- What becomes of a call field. -/
inductive Fate where
  | waiting
  /-- The callee starts here in the code. -/
  | near (start : UInt64)
  /-- The callee is not in the code. -/
  | far
  deriving Repr, DecidableEq

namespace Fate

def bytes (o : Nat) : Fate → List UInt8
  | near start => Text.littleEndian 4 (start - (o.toUInt64 + 4))
  | _ => replicate 4 0

def relocations (o : Nat) (name : String) : Fate → List Relocation
  | far => [⟨.code, o.toUInt64, .symbol name, 0, 4, true⟩]
  | _ => []

/-- The fate of the fields that are filled in with a symbol. -/
def ofSymbol (s : ObjectSymbol) : Fate := if s.segment = some .code then near s.offset else far

@[simp] theorem length_bytes (fate : Fate) (o : Nat) : (fate.bytes o).length = 4 := by
  cases fate <;> simp [bytes]

end Fate

def Fixup.ofCall (o : Nat) : Fixup := ⟨.code, .selfRelative, o.toUInt64, 0, 4⟩

namespace ObjectFile

open Piece

variable {ps : List Piece} {fate : Nat → Fate} {f : ObjectFile} {o : Nat} {name : String}

/-- The code of a file is that of pieces whose fields have met fates. -/
structure Shows (ps : List Piece) (fate : Nat → Fate) (f : ObjectFile) : Prop where
  fits : width ps < 2 ^ 64
  fieldWidth_eq : f.fieldWidth .selfRelative = 4
  code : f.segment .code = image (fun o => (fate o).bytes o) 0 ps
  relocations : ∀ o name, (o, name) ∈ fields 0 ps →
    f.relocationsAt .code o.toUInt64 = (fate o).relocations o name
  inside : ∀ r ∈ f.relocations, r.segment = .code → r.offset.toNat < width ps

theorem toNat_offset (h : o < 2 ^ 64) : o.toUInt64.toNat = o := UInt64.toNat_ofNat_of_lt' h

theorem Shows.write_bytes (hf : Shows ps fate f) (bs : List UInt8)
    (hfits : width ps + bs.length < 2 ^ 64) :
    Shows (ps ++ bs.map .byte) fate (f.write .code (width ps).toUInt64 bs) where
  fits := by simpa using hfits
  fieldWidth_eq := hf.fieldWidth_eq
  code := by
    have hlength := length_image (fun o => (fate o).length_bytes o) 0 ps
    rw [segment_write, if_pos rfl, hf.code, toNat_offset hf.fits, ← hlength, writeAt_behind,
      image_append, image_bytes]
  relocations o name hmem := by
    rw [fields_append, fields_bytes, append_nil] at hmem
    exact hf.relocations o name hmem
  inside r hr hcode := Nat.lt_of_lt_of_le (hf.inside r hr hcode) (by simp)

theorem Shows.write_field (hf : Shows ps fate f) (name : String) (hfits : width ps + 4 < 2 ^ 64) :
    Shows (ps ++ [.field name]) (fun o => if o = width ps then .waiting else fate o)
      (f.write .code (width ps).toUInt64 (replicate 4 0)) where
  fits := by simpa [width] using hfits
  fieldWidth_eq := hf.fieldWidth_eq
  code := by
    have hlength := length_image (fun o => (fate o).length_bytes o) 0 ps
    have hold : image (fun o => (fate o).bytes o) 0 ps =
        image (fun o => Fate.bytes o (if o = width ps then .waiting else fate o)) 0 ps :=
      image_congr fun o name hmem => by
        have := field_in_range hmem
        rw [if_neg (by omega)]
    rw [segment_write, if_pos rfl, hf.code, toNat_offset hf.fits, ← hlength, writeAt_behind,
      hlength, image_append, ← hold]
    simp [image, Fate.bytes]
  relocations o other hmem := by
    rw [fields_append, mem_append] at hmem
    rcases hmem with hmem | hmem
    · have := field_in_range hmem
      rw [if_neg (by omega)]
      exact hf.relocations o other hmem
    obtain ⟨rfl, rfl⟩ : o = width ps ∧ other = name := by simpa [fields] using hmem
    rw [if_pos rfl]
    refine filter_eq_nil_iff.mpr fun r hr => ?_
    simp only [Bool.and_eq_true, decide_eq_true_eq, not_and]
    intro hcode hoffset
    have := hf.inside r hr hcode
    rw [hoffset, toNat_offset hf.fits] at this
    omega
  inside r hr hcode := Nat.lt_of_lt_of_le (hf.inside r hr hcode) (by simp)

end ObjectFile

end DCompiler
