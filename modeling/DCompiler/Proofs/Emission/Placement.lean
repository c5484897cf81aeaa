import Mathlib.Data.List.Forall2
import DCompiler.Proofs.Emission.Parts
import DCompiler.Proofs.Object.Layout

/-!
# Placing the data of a program

Emitting the global variables of a program places its data items one behind the other. What is known
about the file on the way (`Holds`) is a list of *placements*, one for each item: the definition of
its name, and how many bytes are its own. Placements in one segment do not overlap. Each address in
an item has a relocation, and no relocation is for anything but these addresses and unnamed data.

Values are appended to builders. A value is *described* by its parts (`Describes`): what is appended
stands for the parts, and the unnamed data is placed on the way.
-/

namespace DCompiler

open Cells Work Assemble List LaidRecord Datum Data

/-! ## Names of unnamed data -/

/-- The name of unnamed data, with the number of symbols before it. -/
def unnamedName (n : Nat) : String := "__dtoff" ++ toString n

theorem unnamedName_inj {m n : Nat} (hmn : unnamedName m = unnamedName n) : m = n := by
  have htext : toString m = toString n := (String.append_right_inj _).mp hmn
  have hdigits : Nat.toDigits 10 m = Nat.toDigits 10 n := by
    simpa [Nat.toList_repr] using congrArg String.toList htext
  rw [← Nat.ofDigitChars_ten_toDigits (n := m), hdigits, Nat.ofDigitChars_ten_toDigits]

namespace ObjectSymbolTable

variable {t u v : ObjectSymbolTable} {name : String}

/-- Symbols keep their names, and those that are placed stay placed. -/
def Keeps (t u : ObjectSymbolTable) : Prop :=
  ∀ i s, t.get? i = some s → ∃ r, u.get? i = some r ∧ r.name = s.name ∧ (s.isDefined → r.isDefined)

theorem Keeps.refl (t : ObjectSymbolTable) : Keeps t t := fun _ s hs => ⟨s, hs, rfl, fun h => h⟩

theorem Keeps.trans (htu : Keeps t u) (huv : Keeps u v) : Keeps t v := fun i s hs => by
  obtain ⟨r, hr, hname, hplaced⟩ := htu i s hs
  obtain ⟨q, hq, hname', hplaced'⟩ := huv i r hr
  exact ⟨q, hq, hname'.trans hname, fun h => hplaced' (hplaced h)⟩

theorem keeps_of_declares {cls : SymbolClass} {id : ObjectSymbolId}
    (hd : Declares t name cls id u) : Keeps t u := fun i s hs => by
  obtain ⟨r, hr, c, rfl⟩ := hd.kept i s hs
  exact ⟨_, hr, rfl, fun h => h⟩

theorem keeps_modify (id : ObjectSymbolId) {f : ObjectSymbol → ObjectSymbol}
    (hname : ∀ s, (f s).name = s.name) (hplaced : ∀ s, s.isDefined → (f s).isDefined) :
    Keeps t (t.modify id f) := fun i s hs => by
  rw [get?_modify]
  split
  · next hi => exact ⟨f s, by rw [← hi, hs]; rfl, hname s, hplaced s⟩
  · exact ⟨s, hs, rfl, fun h => h⟩

theorem Keeps.name? (htu : Keeps t u) {i : ObjectSymbolId} (hname : t.name? i = some name) :
    u.name? i = some name := by
  obtain ⟨s, hs, rfl⟩ := Option.map_eq_some_iff.mp hname
  obtain ⟨r, hr, hrname, -⟩ := htu i s hs
  rw [ObjectSymbolTable.name?, hr]
  exact congrArg some hrname

end ObjectSymbolTable

open ObjectSymbolTable

namespace Emission

variable {p : Program} {a b : Assembly} {f f' : ObjectFile}
  {t u : ObjectSymbolTable} {name : String} {part : DataPart} {d : Datum} {id : ObjectSymbolId}
  {names : ObjectSymbolId → Option String}

/-! ## Where symbols come from -/

/-- A symbol has the name and the size of a symbol of the program, or it is that of unnamed data,
with its own place in its name. -/
def Origin (p : Program) (i : ObjectSymbolId) (s : ObjectSymbol) : Prop :=
  (∃ sym, s.name = objectName p sym ∧ s.size = p.objectSize sym) ∨ s.name = unnamedName i.index

def Origins (p : Program) (t : ObjectSymbolTable) : Prop :=
  ∀ i s, t.get? i = some s → Origin p i s

theorem Origins.modify (ht : Origins p t) (id : ObjectSymbolId) {g : ObjectSymbol → ObjectSymbol}
    (hg : ∀ s, (g s).name = s.name ∧ (g s).size = s.size) : Origins p (t.modify id g) := by
  intro i s hs
  rw [get?_modify] at hs
  split at hs
  · next hi =>
    obtain ⟨r, hr, rfl⟩ := Option.map_eq_some_iff.mp hs
    have horigin := ht id r hr
    unfold Origin at horigin ⊢
    rw [(hg r).1, (hg r).2, hi]
    exact horigin
  · exact ht i s hs

theorem Origins.declare (ht : Origins p t) {cls : SymbolClass} {size : UInt64}
    (hnew : ∀ s : ObjectSymbol, s.name = name → s.size = size → Origin p ⟨t.size⟩ s) :
    Origins p (t.declare name cls size).2 :=
  forall_declare ht fun s hs => hnew s hs.name_eq

/-- Some type has no size, and the fault is about that. -/
def Endless (p : Program) (e : Fault) : Prop :=
  ∃ type, p.types.byteSize p.symbols p.pointerSize type = .error e

theorem sizeOf_gives (p : Program) (type : TypeId) (a : Assembly) :
    (sizeOf p type).Gives (Endless p) a fun size b => b = a ∧ size = p.sizeOf type := by
  unfold Program.sizeOf
  refine .lift (fun e he => ⟨type, he⟩) fun size hsize => ?_
  rw [hsize]
  exact ⟨rfl, rfl⟩

theorem objectSymbol_gives (p : Program) (s : SymbolId) (a : Assembly) :
    (objectSymbol p s).Gives (Endless p) a fun id b => ∃ t cls, cls ≠ SymbolClass.static ∧
      a.symbols.Declares (objectName p s) cls id t ∧ (Origins p a.symbols → Origins p t) ∧
        b = { a with symbols := t } := by
  unfold objectSymbol
  cases hfunc : p.symbols.func? s with
  | some f =>
    have hname : objectName p s = p.linkName s := by simp only [objectName, hfunc]
    have hsize : p.objectSize s = 0 := by simp only [Program.objectSize, hfunc]
    dsimp only
    generalize hcls : (if f.body.isSome then SymbolClass.global else .external) = cls
    have hne : cls ≠ .static := by
      subst hcls
      split <;> decide
    have hdeclares := declare_declares a.symbols (p.linkName s) cls 0
    obtain ⟨sym, hsym, -⟩ := hdeclares.named
    refine .after (run_modifyGet _ a)
      (.after (modifySymbol_run (a := { a with symbols := _ }) hsym _)
        (.pure ⟨_, cls, hne, hname ▸ hdeclares.modify fun _ => ⟨_, rfl⟩, fun ha => ?_, rfl⟩))
    exact (ha.declare fun r hr hzero =>
      .inl ⟨s, hr.trans hname.symm, hzero.trans hsize.symm⟩).modify _ fun _ => ⟨rfl, rfl⟩
  | none =>
    have hname : objectName p s = p.symbols.qualifiedName s := by simp only [objectName, hfunc]
    have hdone : (declare (p.symbols.qualifiedName s) .global (p.objectSize s)).Gives (Endless p) a
        fun id b => ∃ t cls, cls ≠ SymbolClass.static ∧
          a.symbols.Declares (objectName p s) cls id t ∧
          (Origins p a.symbols → Origins p t) ∧ b = { a with symbols := t } :=
      .of_run (run_modifyGet _ a) ⟨_, .global, by decide, hname ▸ declare_declares .., fun ha =>
        ha.declare fun r hr hsize => .inl ⟨s, hr.trans hname.symm, hsize⟩, rfl⟩
    dsimp only
    split
    · next v hv =>
      refine .bind (sizeOf_gives p _ a) ?_
      rintro size _ ⟨rfl, rfl⟩
      rwa [Program.objectSize, hfunc, hv] at hdone
    · next hv =>
      rw [Program.objectSize, hfunc, hv] at hdone
      exact .after (run_pure 0 a) hdone

/-! ## What parts stand for -/

/-- A part of described data is a part of data. -/
def Stands (p : Program) (t : ObjectSymbolTable) : DataPart → Datum → Prop
  | .byte b, d => d = .byte b
  | .address _ s, d => ∃ id, d = .pointer p.pointerSize (.symbol id) 0 ∧
      t.name? id = some (objectName p s)
  | .unnamed, d => ∃ id s, d = .pointer p.pointerSize (.symbol id) 0 ∧
      t.get? id = some s ∧ s.isDefined

theorem Stands.mono (htu : Keeps t u) (hd : Stands p t part d) : Stands p u part d := by
  cases part with
  | byte b => exact hd
  | address type s =>
    obtain ⟨id, rfl, hname⟩ := hd
    exact ⟨id, rfl, htu.name? hname⟩
  | unnamed =>
    obtain ⟨id, s, rfl, hs, hplaced⟩ := hd
    obtain ⟨r, hr, -, hrplaced⟩ := htu id s hs
    exact ⟨id, r, rfl, hr, hrplaced hplaced⟩

abbrev AllStand (p : Program) (t : ObjectSymbolTable) : List DataPart → List Datum → Prop :=
  Forall₂ (Stands p t)

variable {parts : List DataPart} {x : List Datum}

theorem AllStand.mono (htu : Keeps t u) (hx : AllStand p t parts x) : AllStand p u parts x :=
  Forall₂.imp (fun _ _ => Stands.mono htu) hx

theorem allStand_literal (p : Program) (t : ObjectSymbolTable) (bs : List UInt8) :
    AllStand p t (DataPart.literal bs) (literal bs) := by
  induction bs with
  | nil => exact .nil
  | cons b bs ih => exact .cons rfl ih

theorem AllStand.eq_literal {bs : List UInt8} (hx : AllStand p t (DataPart.literal bs) x) :
    x = literal bs := by
  induction bs generalizing x with
  | nil => exact forall₂_nil_left_iff.mp hx
  | cons b bs ih =>
    obtain ⟨d, rest, rfl, hrest, rfl⟩ := forall₂_cons_left_iff.mp hx
    exact congrArg _ (ih hrest)

section

variable (hx : AllStand p t parts x)
include hx

theorem AllStand.copies (n : Nat) :
    AllStand p t (replicate n parts).flatten (copies n x) := by
  induction n with
  | zero => exact .nil
  | succ n ih =>
    exact rel_append hx ih

theorem AllStand.total : Datum.total x = DataPart.total p.pointerSize parts := by
  induction hx with
  | nil => rfl
  | @cons part d parts x hd _ ih =>
    have hsize : d.size = part.size p.pointerSize := by
      cases part with
      | byte b => exact hd ▸ rfl
      | address type s =>
        obtain ⟨id, rfl, -⟩ := hd
        rfl
      | unnamed =>
        obtain ⟨id, s, rfl, -⟩ := hd
        rfl
    simpa [Datum.total, DataPart.total, hsize] using ih

theorem AllStand.exists_part (hd : d ∈ x) : ∃ part ∈ parts, Stands p t part d := by
  induction hx with
  | nil => exact nomatch hd
  | cons hstand _ ih =>
    rcases mem_cons.mp hd with rfl | hd
    · exact ⟨_, mem_cons_self, hstand⟩
    · obtain ⟨part, hpart, hstand⟩ := ih hd
      exact ⟨part, mem_cons_of_mem _ hpart, hstand⟩

theorem AllStand.exists_datum (hpart : part ∈ parts) : ∃ d ∈ x, Stands p t part d := by
  induction hx with
  | nil => exact nomatch hpart
  | cons hstand _ ih =>
    rcases mem_cons.mp hpart with rfl | hpart
    · exact ⟨_, mem_cons_self, hstand⟩
    · obtain ⟨d, hd, hstand⟩ := ih hpart
      exact ⟨d, mem_cons_of_mem _ hd, hstand⟩

end

/-! ## Records of described data -/

/-- A record stands for bytes, or is the address of a symbol. -/
def Simple (pointerSize count : Nat) (r : DataRecord) : Prop :=
  r.IsLiteral ∨ ∃ id : ObjectSymbolId, id.index < count ∧ r = .address pointerSize id 0

variable {pointerSize count : Nat} {r : DataRecord} {rs : List DataRecord}

theorem Simple.mono {more : Nat} (hle : count ≤ more) (hr : Simple pointerSize count r) :
    Simple pointerSize more r :=
  hr.imp_right fun ⟨id, hid, h⟩ => ⟨id, Nat.lt_of_lt_of_le hid hle, h⟩

theorem Simple.safe (hr : Simple pointerSize count r) : r.Safe count := by
  rcases hr with hr | ⟨id, hid, rfl⟩
  · exact hr.safe count
  · exact hid

theorem Simple.writable (hr : Simple pointerSize count r) : r.Writable count := hr.safe.writable

theorem isLiteral_facts (hr : r.IsLiteral) :
    (∃ bs, r.content = literal bs ∧ r.flat? = some bs) ∧
    r.width? = none ∧ r.copied = [] ∧ ∀ names copy, r.pointer? names copy = none := by
  cases r with
  | zeros size => exact ⟨⟨_, rfl, rfl⟩, rfl, rfl, fun _ _ => rfl⟩
  | inline bs => exact ⟨⟨_, rfl, rfl⟩, rfl, rfl, fun _ _ => rfl⟩
  | bytes bs => exact ⟨⟨_, rfl, rfl⟩, rfl, rfl, fun _ _ => rfl⟩
  | _ => exact hr.elim

theorem Simple.fitsPointer (hr : Simple pointerSize count r) (hf : f.pointerSize = pointerSize) :
    FitsPointer f r := by
  intro w hw
  rcases hr with hr | ⟨id, -, rfl⟩
  · rw [(isLiteral_facts hr).2.1] at hw
    exact nomatch hw
  · exact (Option.some.inj hw).symm.trans hf.symm

theorem copies_of_simple (hrs : ∀ r ∈ rs, Simple pointerSize count r) : Data.copies rs = [] := by
  refine flatMap_eq_nil_iff.mpr fun r hr => ?_
  rcases hrs r hr with h | ⟨id, -, rfl⟩
  · exact (isLiteral_facts h).2.2.1
  · rfl

theorem address_of_mem_contents {width : Nat} {offset : UInt64}
    (hrs : ∀ r ∈ rs, Simple pointerSize count r)
    (hmem : .pointer width (.symbol id) offset ∈ contents rs) :
    .address pointerSize id 0 ∈ rs := by
  obtain ⟨r, hr, hmem⟩ := mem_flatMap.mp hmem
  rcases hrs r hr with hliteral | ⟨id', -, rfl⟩
  · obtain ⟨bs, hbs, -⟩ := (isLiteral_facts hliteral).1
    rw [hbs] at hmem
    obtain ⟨b, -, hb⟩ := mem_map.mp hmem
    exact nomatch hb
  · have hfield : pointer width (.symbol id) offset ∈
        field pointerSize (.symbol id') 0 := hmem
    unfold field at hfield
    split at hfield
    · exact nomatch hfield
    · simp only [mem_singleton, pointer.injEq, DataTarget.symbol.injEq] at hfield
      exact hfield.2.1 ▸ hr

theorem mem_contents_of_address (hpointer : 0 < pointerSize)
    (hmem : .address pointerSize id 0 ∈ rs) :
    .pointer pointerSize (.symbol id) 0 ∈ contents rs := by
  refine mem_flatMap.mpr ⟨_, hmem, ?_⟩
  have hne : pointerSize ≠ 0 := Nat.pos_iff_ne_zero.mp hpointer
  simp [DataRecord.content, field, hne]

theorem record_layOut (offset copy : Nat) (rs : List DataRecord) :
    (layOut offset copy rs).map (·.record) = rs := by
  induction rs generalizing offset copy with
  | nil => rfl
  | cons r rs ih => rw [layOut, map_cons, ih]

theorem mem_relocations_layOut {g : Segment} {offset copy : Nat} {x : Relocation}
    (hrs : ∀ r ∈ rs, Simple pointerSize count r)
    (hx : x ∈ (layOut offset copy rs).filterMap (·.relocation? names g)) :
    ∃ id name, .address pointerSize id 0 ∈ rs ∧ names id = some name ∧ x.target = .symbol name := by
  obtain ⟨y, hy, hx⟩ := mem_filterMap.mp hx
  have hrecord : y.record ∈ rs := record_layOut offset copy rs ▸ mem_map_of_mem hy
  obtain ⟨field, hfield, rfl⟩ := Option.map_eq_some_iff.mp hx
  rcases hrs _ hrecord with hliteral | ⟨id, -, haddress⟩
  · rw [pointer?, (isLiteral_facts hliteral).2.2.2] at hfield
    cases hfield
  rw [pointer?, haddress] at hfield
  obtain ⟨name, hname, rfl⟩ := Option.map_eq_some_iff.mp hfield
  exact ⟨id, name, haddress ▸ hrecord, hname, rfl⟩

theorem reference_of_mem_layOut {offset copy : Nat} {x : LaidRecord}
    (hrs : ∀ r ∈ rs, Simple pointerSize count r) (hx : x ∈ layOut offset copy rs) :
    x.reference = 0 := by
  have hrecord : x.record ∈ rs := record_layOut offset copy rs ▸ mem_map_of_mem hx
  unfold reference
  split
  · next hconstant => exact nomatch hconstant ▸ (hrs _ hrecord).safe
  · rfl

theorem exists_relocation_layOut (g : Segment) (offset copy : Nat)
    (hmem : .address pointerSize id 0 ∈ rs) (hname : names id = some name) :
    ∃ x ∈ (layOut offset copy rs).filterMap (·.relocation? names g),
      x.target = .symbol name := by
  rw [← record_layOut offset copy rs] at hmem
  obtain ⟨y, hy, hrecord⟩ := mem_map.mp hmem
  refine ⟨⟨g, y.offset.toUInt64, .symbol name, UInt64.toInt64 0, pointerSize, false⟩,
    mem_filterMap.mpr ⟨y, hy, ?_⟩, rfl⟩
  rw [relocation?, pointer?, hrecord, DataRecord.pointer?, hname]
  rfl

theorem length_bytes_layOut (hrs : ∀ r ∈ rs, r.Writable a.symbols.size) (offset copy : Nat) :
    ((layOut offset copy rs).flatMap (·.bytes a.symbols.name?)).length =
      Datum.total (contents rs) := by
  induction rs generalizing offset copy with
  | nil => rfl
  | cons r rs ih =>
    have hr := length_bytes (a := a) (x := ⟨r, offset, copy⟩) (hrs r mem_cons_self)
    rw [layOut, flatMap_cons, length_append, hr, contents_cons,
      total_append, ih fun q hq => hrs q (mem_cons_of_mem _ hq)]

theorem bytes_layOut (hpointer : 0 < pointerSize) (hrs : ∀ r ∈ rs, Simple pointerSize count r)
    {bs : List UInt8} (hbs : contents rs = literal bs) (offset copy : Nat) :
    (layOut offset copy rs).flatMap (·.bytes names) = bs := by
  induction rs generalizing bs offset copy with
  | nil => exact (map_eq_nil_iff.mp hbs.symm).symm
  | cons r rs ih =>
    obtain ⟨first, rest, rfl, hfirst, hrest⟩ := map_eq_append_iff.mp hbs.symm
    have hr : bytes names ⟨r, offset, copy⟩ = first := by
      rcases hrs r mem_cons_self with hr | ⟨id, -, rfl⟩
      · obtain ⟨⟨own, hown, hflat⟩, -, -, hpointer⟩ := isLiteral_facts hr
        obtain rfl : first = own := (map_inj_right fun _ _ => byte.inj).mp (hfirst.trans hown)
        simp [bytes, pointer?, hpointer, hflat]
      · have hmem := mem_contents_of_address hpointer
          (mem_singleton_self (DataRecord.address _ id 0))
        simp [contents, ← hfirst] at hmem
    rw [layOut, flatMap_cons, hr, ih (fun r hr => hrs r (mem_cons_of_mem _ hr)) hrest.symm]

/-! ## Placements -/

/-- An item in its place: the definition of its name, and how many bytes from there on are its
own. -/
structure Placement where
  item : DataItem
  definition : Definition
  length : Nat

namespace Placement

def stop (q : Placement) : Nat := q.definition.offset.toNat + q.length

def Named (p : Program) (q : Placement) : Prop :=
  match q.item.symbol with
  | some s => q.definition.name = objectName p s
  | none => ∃ n, q.definition.name = unnamedName n

end Placement

def Unreserved (p : Program) : Prop := ∀ s n, objectName p s ≠ unnamedName n

/-- The placements of a file: each item has its bytes in a segment, and in each segment they are one
behind the other. -/
structure Placed (p : Program) (qs : List Placement) (f : ObjectFile) : Prop where
  segments : ∀ q ∈ qs, q.definition.segment = .data ∨ q.definition.segment = .zeroData
  inside : ∀ q ∈ qs, q.stop ≤ (f.segment q.definition.segment).length
  apart : qs.Pairwise fun q r => q.definition.segment = r.definition.segment →
    q.stop ≤ r.definition.offset.toNat
  long : ∀ q ∈ qs, DataPart.total p.pointerSize q.item.parts ≤ q.length ∧
    q.length ≤ p.room q.item
  used : (f.segment .data).length + (f.segment .zeroData).length = (qs.map (·.length)).sum
  constData : f.segment .constData = []

/-- The relocations of a file with data only. -/
structure Refers (p : Program) (qs : List Placement) (f : ObjectFile) : Prop where
  target : ∀ r ∈ f.relocations, ∃ name, r.target = .symbol name ∧
    (name ∈ f.defined.map (·.name) ∨ ∃ q ∈ qs, ∃ s ∈ q.item.addresses, name = objectName p s)
  covers : ∀ q ∈ qs, ∀ s ∈ q.item.addresses,
    ∃ r ∈ f.relocations, r.target = .symbol (objectName p s)

/-- What a file holds after some items were placed. -/
structure Holds (p : Program) (qs : List Placement) (f : ObjectFile) : Prop where
  defined : f.defined = qs.map (·.definition)
  named : ∀ q ∈ qs, q.Named p
  fresh : Unreserved p → ((qs.filter (·.item.symbol.isNone)).map (·.definition.name)).Nodup
  placed : Placed p qs f
  bytes : ∀ q ∈ qs, ∀ bs, q.item.parts = DataPart.literal bs →
    bs <+: (f.segment q.definition.segment).drop q.definition.offset.toNat
  refers : Refers p qs f
  commons : f.commons = []

theorem holds_empty (p : Program) (pointerSize : Nat) : Holds p [] (.empty pointerSize) where
  defined := rfl
  named := nofun
  fresh _ := nodup_nil
  placed := ⟨nofun, nofun, .nil, nofun, rfl, rfl⟩
  bytes := nofun
  refers := ⟨nofun, nofun⟩
  commons := rfl

variable {qs : List Placement} {item : DataItem} {s : ObjectSymbol}

def placementIn (f : ObjectFile) (item : DataItem) (rs : List DataRecord) (s : ObjectSymbol) :
    Placement :=
  ⟨item, definitionIn f rs s, Datum.total (contents rs) + padding s rs⟩

theorem segmentOf_cases (rs : List DataRecord) :
    segmentOf rs = .data ∨ segmentOf rs = .zeroData := by
  by_cases hzero : segmentOf rs = .zeroData
  · exact .inr hzero
  · exact .inl (segmentOf_eq_data hzero)

theorem Placed.length_le (hf : Placed p qs f) (rs : List DataRecord) :
    (f.segment (segmentOf rs)).length ≤ (qs.map (·.length)).sum := by
  have hused := hf.used
  rcases segmentOf_cases rs with h | h <;> rw [h] <;> omega

theorem Placed.segment_ne (hf : Placed p qs f) {q : Placement} (hq : q ∈ qs) :
    q.definition.segment ≠ .constData := by
  rcases hf.segments q hq with h | h <;> rw [h] <;> decide

theorem Placed.toNat_offset (hf : Placed p qs f) (hfits : (qs.map (·.length)).sum < 2 ^ 64) :
    (placementIn f item rs s).definition.offset.toNat = (f.segment (segmentOf rs)).length :=
  ObjectFile.toNat_offset (Nat.lt_of_le_of_lt (hf.length_le rs) hfits)

section Add

variable {names : List Definition}
  (hgains : GainsData a.symbols.name? s rs names a.file f')
  (hrs : ∀ r ∈ rs, Simple p.pointerSize a.symbols.size r)

include hgains

theorem segment_gains {g : Segment} (hg : g ≠ .constData) : a.file.segment g <+: f'.segment g := by
  by_cases hsame : g = segmentOf rs
  · rw [hsame, hgains.bytes]
    exact prefix_append _ _
  · exact hgains.others g hsame hg ▸ prefix_rfl

include hrs

theorem length_gains : (f'.segment (segmentOf rs)).length =
    (a.file.segment (segmentOf rs)).length +
      (Datum.total (contents rs) + padding s rs) := by
  rw [hgains.bytes, length_append, length_append, laidIn,
    length_bytes_layOut fun r hr => (hrs r hr).writable, length_replicate]

theorem Placed.add (hf : Placed p qs a.file)
    (htotal : DataPart.total p.pointerSize item.parts =
      Datum.total (contents rs))
    (hroom : Datum.total (contents rs) + padding s rs ≤ p.room item)
    (hfits : (qs.map (·.length)).sum < 2 ^ 64) :
    Placed p (qs ++ [placementIn a.file item rs s]) f' := by
  have hlength := length_gains hgains hrs
  have hoffset : (placementIn a.file item rs s).definition.offset.toNat = _ := hf.toNat_offset hfits
  refine ⟨?_, fun q hq => ?_, ?_, fun q hq => ?_, ?_, ?_⟩
  · simpa [or_imp, forall_and] using ⟨hf.segments, segmentOf_cases rs⟩
  · rcases mem_append.mp hq with hq | hq
    · exact Nat.le_trans (hf.inside q hq) (segment_gains hgains (hf.segment_ne hq)).length_le
    · rw [mem_singleton.mp hq, Placement.stop, hoffset]
      exact Nat.le_of_eq hlength.symm
  · refine pairwise_append.mpr ⟨hf.apart, pairwise_singleton _ _, fun q hq r hr hsame => ?_⟩
    rw [mem_singleton.mp hr] at hsame ⊢
    have hinside := hf.inside q hq
    rw [hoffset]
    rwa [hsame] at hinside
  · rcases mem_append.mp hq with hq | hq
    · exact hf.long q hq
    · rw [mem_singleton.mp hq]
      exact ⟨htotal ▸ Nat.le_add_right _ _, hroom⟩
  · have hused := hf.used
    rw [map_append, sum_append, ← hused]
    simp only [placementIn, map_cons, map_nil, sum_cons, sum_nil]
    rcases segmentOf_cases rs with h | h <;> rw [h] at hlength
    · rw [hlength, hgains.others .zeroData (by simp [h]) (by decide)]
      omega
    · rw [hlength, hgains.others .data (by simp [h]) (by decide)]
      omega
  · rw [hgains.copies, hf.constData, copies_of_simple hrs]
    rfl

theorem Refers.add (hpointer : 0 < p.pointerSize) (hf : Refers p qs a.file)
    (hstand : AllStand p a.symbols item.parts (contents rs))
    (hplaced : ∀ i r, a.symbols.get? i = some r → r.isDefined →
      r.name ∈ a.file.defined.map (·.name)) :
    Refers p (qs ++ [placementIn a.file item rs s]) f' := by
  have hdefined : f'.defined = a.file.defined ++ names := by rw [hgains.rest]
  have hrelocations : f'.relocations = a.file.relocations ++
      (laidIn a.file rs).filterMap (·.relocation? a.symbols.name? (segmentOf rs)) := by
    rw [hgains.rest]
  have hmono : a.file.defined.map (·.name) ⊆ f'.defined.map (·.name) := by
    rw [hdefined, map_append]
    exact subset_append_left _ _
  refine ⟨fun r hr => ?_, fun q hq sym hsym => ?_⟩
  · rw [hrelocations] at hr
    rcases mem_append.mp hr with hr | hr
    · obtain ⟨name, htarget, hname | ⟨q, hq, hname⟩⟩ := hf.target r hr
      · exact ⟨name, htarget, .inl (hmono hname)⟩
      · exact ⟨name, htarget, .inr ⟨q, mem_append_left _ hq, hname⟩⟩
    obtain ⟨id, name, hmem, hname, htarget⟩ := mem_relocations_layOut hrs hr
    obtain ⟨part, hpart, hstands⟩ := hstand.exists_part (mem_contents_of_address hpointer hmem)
    refine ⟨name, htarget, ?_⟩
    cases part with
    | byte b => exact nomatch hstands
    | address type sym =>
      obtain ⟨id', hid, hname'⟩ := hstands
      simp only [pointer.injEq, DataTarget.symbol.injEq, true_and, and_true] at hid
      subst hid
      have heq : name = objectName p sym := Option.some.inj (hname.symm.trans hname')
      exact .inr ⟨_, mem_append_right _ mem_cons_self, sym,
        DataItem.mem_addresses.mpr ⟨type, hpart⟩, heq⟩
    | unnamed =>
      obtain ⟨id', sym, hid, hsym, hdefined⟩ := hstands
      simp only [pointer.injEq, DataTarget.symbol.injEq, true_and, and_true] at hid
      subst hid
      rw [name?, hsym] at hname
      exact .inl (hmono (Option.some.inj hname ▸ hplaced id sym hsym hdefined))
  · rw [hrelocations]
    rcases mem_append.mp hq with hq | hq
    · obtain ⟨r, hr, htarget⟩ := hf.covers q hq sym hsym
      exact ⟨r, mem_append_left _ hr, htarget⟩
    rw [mem_singleton.mp hq] at hsym
    obtain ⟨type, hpart⟩ := DataItem.mem_addresses.mp hsym
    obtain ⟨d, hd, id, rfl, hname⟩ := hstand.exists_datum hpart
    obtain ⟨r, hr, htarget⟩ := exists_relocation_layOut (segmentOf rs) _ _
      (address_of_mem_contents hrs hd) hname
    exact ⟨r, mem_append_right _ hr, htarget⟩

end Add

/-- One more item is placed behind the others. -/
theorem Holds.add (hf : Holds p qs a.file) (hpointer : 0 < p.pointerSize)
    (hgains : GainsData a.symbols.name? s rs [definitionIn a.file rs s] a.file f')
    (hrs : ∀ r ∈ rs, Simple p.pointerSize a.symbols.size r)
    (hstand : AllStand p a.symbols item.parts (contents rs))
    (hplaced : ∀ i r, a.symbols.get? i = some r → r.isDefined →
      r.name ∈ a.file.defined.map (·.name))
    (hnamed : (placementIn a.file item rs s).Named p)
    (hfresh : Unreserved p → item.symbol = none → s.name ∉ a.file.defined.map (·.name))
    (hroom : Datum.total (contents rs) + padding s rs ≤ p.room item)
    (hfits : (qs.map (·.length)).sum < 2 ^ 64) :
    Holds p (qs ++ [placementIn a.file item rs s]) f' where
  defined := by
    have hdefined : f'.defined = a.file.defined ++ [definitionIn a.file rs s] := by rw [hgains.rest]
    rw [hdefined, hf.defined, map_append]
    rfl
  named := by simpa [or_imp, forall_and] using ⟨hf.named, hnamed⟩
  fresh hun := by
    rw [filter_append, map_append]
    by_cases hsymbol : item.symbol = none
    · have hsingle : [placementIn a.file item rs s].filter (·.item.symbol.isNone) =
          [placementIn a.file item rs s] := by simp [placementIn, hsymbol]
      rw [hsingle]
      refine nodup_append.mpr ⟨hf.fresh hun, nodup_singleton _, fun x hx y hy hxy => ?_⟩
      obtain ⟨q, hq, rfl⟩ := mem_map.mp hx
      have hmem : q.definition.name ∈ a.file.defined.map (·.name) := by
        rw [hf.defined, map_map]
        exact mem_map.mpr ⟨q, (mem_filter.mp hq).1, rfl⟩
      rw [mem_singleton.mp hy] at hxy
      have hname : q.definition.name = s.name := hxy
      exact hfresh hun hsymbol (hname ▸ hmem)
    · have hnone : [placementIn a.file item rs s].filter (·.item.symbol.isNone) = [] := by
        simp [placementIn, hsymbol]
      rw [hnone, map_nil, append_nil]
      exact hf.fresh hun
  placed := hf.placed.add hgains hrs hstand.total.symm hroom hfits
  bytes q hq bs hbs := by
    rcases mem_append.mp hq with hq | hq
    · obtain ⟨more, hmore⟩ := segment_gains hgains (hf.placed.segment_ne hq)
      rw [← hmore, drop_append]
      exact (hf.bytes q hq bs hbs).trans (prefix_append _ _)
    rw [mem_singleton.mp hq] at hbs ⊢
    have hitem : item.parts = DataPart.literal bs := hbs
    rw [hitem] at hstand
    rw [hf.placed.toNat_offset hfits]
    show bs <+: (f'.segment (segmentOf rs)).drop _
    rw [hgains.bytes, drop_left, laidIn, bytes_layOut hpointer hrs hstand.eq_literal]
    exact prefix_append _ _
  refers := hf.refers.add hgains hrs hpointer hstand hplaced
  commons := by
    rw [hgains.rest]
    exact hf.commons

end Emission

end DCompiler
