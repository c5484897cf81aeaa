import DCompiler.Proofs.Object.Fill

/-!
# The layout of data

The records that describe the data of a symbol are laid out one behind the other (`layOut`). Bytes
and runs of zeros stand for themselves. A pointer becomes a field that holds its addend, and a
relocation says what is added to it. The bytes that a constant points to are copied behind the data
that is only read.

`writeData_lays_out` says that writing the data of a symbol does this at the end of a segment, and
what else it does: it defines the symbol there and frees the records. Each step of the loop over the
records adds what the layout of one record says (`Lays`), and layouts compose.
-/

namespace DCompiler

open Cells Work Datum Data List ObjectSymbolTable DataRecord Assemble

/-! ## Records in their places -/

/-- A field with an addend, which refers to a target. -/
structure PointerField where
  width : Nat
  target : RelocationTarget
  addend : UInt64
  deriving Repr, DecidableEq

namespace DataRecord

def width? : DataRecord → Option Nat
  | constant width _ _ | address width _ _ | codeAddress width _ => some width
  | _ => none

def copied : DataRecord → List UInt8
  | constant _ _ bs => bs
  | _ => []

/-- The field of a pointer, with the names of symbols and the offset of the copy of its bytes. -/
def pointer? (names : ObjectSymbolId → Option String) (copy : UInt64) :
    DataRecord → Option PointerField
  | constant width offset _ => some ⟨width, .place .constData (copy + offset), copy + offset⟩
  | address width s offset => (names s).map fun name => ⟨width, .symbol name, offset⟩
  | codeAddress width offset => some ⟨width, .place .code offset, offset⟩
  | _ => none

end DataRecord

/-- A record with the offset of its bytes and that of the copy it may need. -/
structure LaidRecord where
  record : DataRecord
  offset : Nat
  copy : Nat
  deriving Repr, DecidableEq

namespace LaidRecord

def pointer? (names : ObjectSymbolId → Option String) (r : LaidRecord) : Option PointerField :=
  r.record.pointer? names r.copy.toUInt64

/-- The offset that a record refers to in the data that is only read. -/
def reference (r : LaidRecord) : Nat :=
  match r.record with
  | .constant _ offset _ => r.copy + offset.toNat
  | _ => 0

def bytes (names : ObjectSymbolId → Option String) (r : LaidRecord) : List UInt8 :=
  match r.pointer? names with
  | some field => Text.littleEndian field.width field.addend
  | none => r.record.flat?.getD []

def relocation? (names : ObjectSymbolId → Option String) (g : Segment) (r : LaidRecord) :
    Option Relocation :=
  (r.pointer? names).map fun field =>
    ⟨g, r.offset.toUInt64, field.target, field.addend.toInt64, field.width, false⟩

end LaidRecord

namespace Data

/-- Records one behind the other from an offset on, and the copies they need likewise. -/
def layOut (offset copy : Nat) : List DataRecord → List LaidRecord
  | [] => []
  | r :: rs => ⟨r, offset, copy⟩ :: layOut (offset + total r.content) (copy + r.copied.length) rs

def copies (rs : List DataRecord) : List UInt8 := rs.flatMap copied

/-- How many zeros follow the data of a symbol: zero data is as long as the symbol. -/
def padding (s : ObjectSymbol) (rs : List DataRecord) : Nat :=
  if segmentOf rs = .zeroData then s.size.toNat - total (contents rs) else 0

variable {rs : List DataRecord}

theorem toNat_max_size {s : ObjectSymbol} (hzero : segmentOf rs = .zeroData) :
    (max (Data.sizeOf rs) s.size).toNat = total (contents rs) + padding s rs := by
  have htotal : total (contents rs) < 2 ^ 64 := by
    rcases segmentOf_eq_zeroData.mp hzero with rfl | ⟨size, rfl⟩
    · simp
    · simpa [content] using size.toNat_lt
  have hmax : (max (Data.sizeOf rs) s.size).toNat =
      max (Data.sizeOf rs).toNat s.size.toNat := by
    show (if Data.sizeOf rs ≤ s.size then s.size else Data.sizeOf rs).toNat = _
    rw [Nat.max_def]
    simp only [UInt64.le_iff_toNat_le]
    split <;> rfl
  rw [hmax, toNat_sizeOf htotal, padding, if_pos hzero]
  omega

end Data

def ObjectSymbolTable.name? (t : ObjectSymbolTable) (i : ObjectSymbolId) : Option String :=
  (t.get? i).map (·.name)

theorem ObjectSymbolTable.name?_modify (t : ObjectSymbolTable) (id : ObjectSymbolId)
    {f : ObjectSymbol → ObjectSymbol} (hname : ∀ s, (f s).name = s.name) :
    (t.modify id f).name? = t.name? := by
  funext i
  unfold name?
  rw [get?_modify]
  by_cases hi : i = id
  · rw [if_pos hi, hi]
    cases t.get? id <;> simp [hname]
  · rw [if_neg hi]

/-! ## Files with more data -/

namespace ObjectFile

variable {names : ObjectSymbolId → Option String} {g : Segment} {f f' f'' : ObjectFile}
  {rs qs : List LaidRecord}

/-- What a file gains by records that are laid out behind a segment. -/
structure Lays (names : ObjectSymbolId → Option String) (g : Segment) (rs : List LaidRecord)
    (f f' : ObjectFile) : Prop where
  bytes : f'.segment g = f.segment g ++ rs.flatMap (·.bytes names)
  copies : f'.segment .constData = f.segment .constData ++ rs.flatMap (·.record.copied)
  others : ∀ s, s ≠ g → s ≠ .constData → f'.segment s = f.segment s
  rest : f' = { f with
    segments := f'.segments
    relocations := f.relocations ++ rs.filterMap (·.relocation? names g) }

theorem Lays.trans (hrs : Lays names g rs f f') (hqs : Lays names g qs f' f'') :
    Lays names g (rs ++ qs) f f'' := by
  refine ⟨?_, ?_, fun s hg hconst => ?_, ?_⟩
  · rw [hqs.bytes, hrs.bytes, append_assoc, flatMap_append]
  · rw [hqs.copies, hrs.copies, append_assoc, flatMap_append]
  · rw [hqs.others s hg hconst, hrs.others s hg hconst]
  rw [filterMap_append, ← append_assoc]
  have hfirst := hrs.rest
  have hsecond := hqs.rest
  generalize f'.segments = segments at hfirst
  subst hfirst
  exact hsecond

theorem segment_write_end (hfits : (f.segment g).length < 2 ^ 64) (bytes : List UInt8)
    (s : Segment) : (f.write g (f.segmentSize g) bytes).segment s =
      if s = g then f.segment g ++ bytes else f.segment s := by
  have hend : (f.segmentSize g).toNat = (f.segment g).length := toNat_offset hfits
  rw [segment_write, hend, writeAt_behind]

theorem fieldWidth_flagsOfWidth (f : ObjectFile) :
    f.fieldWidth (flagsOfWidth f.pointerSize) = f.pointerSize := by
  unfold fieldWidth relocationWidth flagsOfWidth
  by_cases hsize : f.pointerSize = 8
  · rw [hsize]
    decide
  · simp [hsize]

/-- The file with a field at a place and its relocation. -/
def withField (f : ObjectFile) (g : Segment) (offset : UInt64) (field : PointerField) :
    ObjectFile :=
  { f.write g offset (Text.littleEndian field.width field.addend) with
    relocations := f.relocations ++
      [⟨g, offset, field.target, field.addend.toInt64, field.width, false⟩] }

theorem referToPlace_eq (f : ObjectFile) (g : Segment) (offset : UInt64) (target : Segment)
    (addend : UInt64) :
    f.referToPlace g offset target addend (flagsOfWidth f.pointerSize) =
      f.withField g offset ⟨f.pointerSize, .place target addend, addend⟩ := by
  unfold referToPlace withField
  rw [fieldWidth_flagsOfWidth]

theorem referToSymbol_eq (f : ObjectFile) (g : Segment) (offset : UInt64) (name : String)
    (addend : UInt64) :
    f.referToSymbol g offset name addend.toInt64 (flagsOfWidth f.pointerSize) =
      f.withField g offset ⟨f.pointerSize, .symbol name, addend⟩ := by
  have habsolute : (flagsOfWidth f.pointerSize).contains .selfRelative = false := by
    unfold flagsOfWidth
    split <;> decide
  unfold referToSymbol withField
  rw [fieldWidth_flagsOfWidth, habsolute]
  rfl

end ObjectFile

namespace Assemble

variable {a b : Assembly} {id : ObjectSymbolId} {s : ObjectSymbol} {c : Chain} {g : Segment}
  {r : DataRecord} {rs : List DataRecord} {l : Cells DataRecord}
  {names : ObjectSymbolId → Option String} {f : ObjectFile}

open ObjectFile

/-- The record of a pointer has the width of pointers in a file. -/
def FitsPointer (f : ObjectFile) (r : DataRecord) : Prop := ∀ w ∈ r.width?, w = f.pointerSize

/-- A record at the end of a segment, and at the end of the data that is only read. -/
def atEnd (f : ObjectFile) (g : Segment) (r : DataRecord) : LaidRecord :=
  ⟨r, (f.segment g).length, (f.segment .constData).length⟩

/-! ## One record -/

theorem lays_flat {bs : List UInt8} (hg : g ≠ .constData) (hfits : (f.segment g).length < 2 ^ 64)
    (hflat : r.flat? = some bs) :
    Lays names g [atEnd f g r] f (f.write g (f.segmentSize g) bs) := by
  have hrecord : (atEnd f g r).record = r := rfl
  obtain ⟨hpointer, hcopied⟩ : (atEnd f g r).pointer? names = none ∧ r.copied = [] := by
    cases r <;> first | exact ⟨rfl, rfl⟩ | exact nomatch hflat
  refine ⟨?_, ?_, fun s hs _ => ?_, ?_⟩
  · rw [segment_write_end hfits, if_pos rfl]
    simp [LaidRecord.bytes, hpointer, hrecord, hflat]
  · rw [segment_write_end hfits, if_neg hg.symm]
    simp [hrecord, hcopied]
  · rw [segment_write_end hfits, if_neg hs]
  · simp [LaidRecord.relocation?, hpointer, write]

/-- A pointer is a field with its addend and a relocation, once the copy it needs is made. -/
theorem lays_pointer (f f' : ObjectFile) {field : PointerField}
    (hfits : (f.segment g).length < 2 ^ 64) (hpointer : (atEnd f g r).pointer? names = some field)
    (hcopy : ∀ s, f'.segment s =
      if s = .constData then f.segment .constData ++ r.copied else f.segment s)
    (hrest : f' = { f with segments := f'.segments }) (hg : g ≠ .constData) :
    Lays names g [atEnd f g r] f (f'.withField g (f.segmentSize g) field) := by
  have hsame : f'.segment g = f.segment g := by rw [hcopy, if_neg hg]
  have hwrite (s : Segment) : (f'.withField g (f.segmentSize g) field).segment s =
      if s = g then f'.segment g ++ Text.littleEndian field.width field.addend
      else f'.segment s := by
    have hsize : f.segmentSize g = f'.segmentSize g := by rw [segmentSize, segmentSize, hsame]
    rw [hsize]
    exact segment_write_end (hsame ▸ hfits) _ s
  have hrelocation : (atEnd f g r).relocation? names g =
      some ⟨g, f.segmentSize g, field.target, field.addend.toInt64, field.width, false⟩ := by
    rw [LaidRecord.relocation?, hpointer]
    rfl
  refine ⟨?_, ?_, fun s hs hconst => ?_, ?_⟩
  · rw [hwrite, if_pos rfl, hsame]
    simp [LaidRecord.bytes, hpointer]
  · rw [hwrite, if_neg hg.symm, hcopy, if_pos rfl]
    simp [atEnd]
  · rw [hwrite, if_neg hs, hcopy, if_neg hconst]
  generalize f'.segments = segments at hrest
  subst hrest
  simp [hrelocation, withField, write]

theorem writeRecord_lays (hg : g ≠ .constData) (hfits : (a.file.segment g).length < 2 ^ 64)
    (hconst : (a.file.segment .constData).length < 2 ^ 64) (hr : r.Writable a.symbols.size)
    (hwidth : FitsPointer a.file r) (hreference : (atEnd a.file g r).reference < 2 ^ 64) :
    ∃ f, (writeRecord g (a.file.segmentSize g) r).run a = (.ok ⟨⟩, { a with file := f }) ∧
      Lays a.symbols.name? g [atEnd a.file g r] a.file f := by
  have hcopy : ∀ s, a.file.segment s = if s = .constData then a.file.segment .constData ++ []
      else a.file.segment s := fun s => by
    by_cases hs : s = .constData <;> simp [hs]
  cases r with
  | zeros | inline | bytes => exact ⟨_, rfl, lays_flat hg hfits rfl⟩
  | constant width offset bs =>
    obtain rfl : width = a.file.pointerSize := hwidth width rfl
    have hplace : Fault.wordOr .sumOverflow
        ((a.file.segmentSize .constData).toNat + offset.toNat) =
        .ok (a.file.segmentSize .constData + offset) := by
      have hend : (a.file.segmentSize .constData).toNat = _ := toNat_offset hconst
      rw [hend]
      exact (if_pos hreference).trans (congrArg Except.ok (by simp [segmentSize]))
    refine ⟨_, (run_bind (run_get a) _).trans ((run_bind (modifyFile_run _ a) _).trans
      ((run_bind ((run_liftExcept _ _).trans (congrArg (·, _) hplace)) _).trans
        (modifyFile_run _ _))), ?_⟩
    rw [show a.file.pointerSize =
      (a.file.write .constData (a.file.segmentSize .constData) bs).pointerSize from rfl,
      referToPlace_eq]
    exact lays_pointer a.file _ hfits rfl (segment_write_end hconst bs) rfl hg
  | address width target offset =>
    obtain rfl : width = a.file.pointerSize := hwidth width rfl
    obtain ⟨sym, hsym⟩ := lt_size_iff.mp hr
    refine ⟨_, (run_bind (symbol_run hsym) _).trans (modifyFile_run _ a), ?_⟩
    rw [referToSymbol_eq]
    refine lays_pointer a.file a.file hfits ?_ hcopy rfl hg
    simp [LaidRecord.pointer?, atEnd, pointer?, name?, hsym]
  | codeAddress width offset =>
    obtain rfl : width = a.file.pointerSize := hwidth width rfl
    refine ⟨a.file.referToPlace g _ .code offset (flagsOfWidth _), rfl, ?_⟩
    rw [referToPlace_eq]
    exact lays_pointer a.file a.file hfits rfl hcopy rfl hg
  | common size => exact hr.elim

/-! ## All records -/

theorem length_bytes {x : LaidRecord} (hx : x.record.Writable a.symbols.size) :
    (x.bytes a.symbols.name?).length = total x.record.content := by
  obtain ⟨r, offset, copy⟩ := x
  cases r with
  | address width target offset =>
    obtain ⟨sym, hsym⟩ := lt_size_iff.mp hx
    simp [LaidRecord.bytes, LaidRecord.pointer?, pointer?, name?, hsym, content]
  | common size => exact hx.elim
  | _ =>
    simp [LaidRecord.bytes, LaidRecord.pointer?, pointer?, flat?, content]

theorem writeRecords_lays (hg : g ≠ .constData)
    (hfits : (a.file.segment g).length + total (contents rs) < 2 ^ 64)
    (hconst : (a.file.segment .constData).length + (Data.copies rs).length < 2 ^ 64)
    (hrs : ∀ r ∈ rs, r.Writable a.symbols.size) (hwidth : ∀ r ∈ rs, FitsPointer a.file r)
    (hreferences : ∀ x ∈ layOut (a.file.segment g).length (a.file.segment .constData).length rs,
      x.reference < 2 ^ 64) :
    ∃ f, (writeRecords g (a.file.segmentSize g) rs).run a = (.ok ⟨⟩, { a with file := f }) ∧
      Lays a.symbols.name? g
        (layOut (a.file.segment g).length (a.file.segment .constData).length rs) a.file f := by
  induction rs generalizing a with
  | nil =>
    exact ⟨a.file, rfl, by simp [layOut], by simp [layOut], fun _ _ _ => rfl, by simp [layOut]⟩
  | cons r rs ih =>
    have hr := hrs r mem_cons_self
    simp only [contents_cons, total_append] at hfits
    simp only [Data.copies, flatMap_cons, length_append] at hconst
    obtain ⟨f, hrun, hlays⟩ := writeRecord_lays hg (by omega) (by omega) hr
      (hwidth r mem_cons_self) (hreferences _ mem_cons_self)
    have hlength : (f.segment g).length = (a.file.segment g).length + total r.content := by
      rw [hlays.bytes, length_append, flatMap_singleton, length_bytes (x := atEnd a.file g r) hr]
      rfl
    have hcopies : (f.segment .constData).length =
        (a.file.segment .constData).length + r.copied.length := by
      rw [hlays.copies, length_append, flatMap_singleton]
      rfl
    have hnext : a.file.segmentSize g + r.size = f.segmentSize g := by
      rw [r.size_eq, segmentSize, segmentSize, hlength]
      exact (UInt64.ofNat_add _ _).symm
    have hpointer : f.pointerSize = a.file.pointerSize := by rw [hlays.rest]
    obtain ⟨f', hrun', hlays'⟩ := ih (a := { a with file := f })
      (by simp only [hlength]; omega) (by simp only [hcopies, Data.copies]; omega)
      (fun q hq => hrs q (mem_cons_of_mem _ hq))
      (fun q hq w hw => (hwidth q (mem_cons_of_mem _ hq) w hw).trans hpointer.symm)
      (by simpa only [hlength, hcopies] using fun x hx => hreferences x (mem_cons_of_mem _ hx))
    refine ⟨f', ?_, ?_⟩
    · rw [writeRecords, run_bind hrun, hnext, hrun']
    · simp only [hlength, hcopies] at hlays'
      exact hlays.trans hlays'

/-! ## A symbol -/

/-- The records of a symbol's data in their places behind a file's segments. -/
def laidIn (f : ObjectFile) (rs : List DataRecord) : List LaidRecord :=
  layOut (f.segment (segmentOf rs)).length (f.segment .constData).length rs

/-- There is room for the data of a symbol: offsets behind it, and those that its records refer to,
fit into a word. -/
structure Room (f : ObjectFile) (s : ObjectSymbol) (rs : List DataRecord) : Prop where
  segment : (f.segment (segmentOf rs)).length + (total (contents rs) + padding s rs) < 2 ^ 64
  constData : (f.segment .constData).length + (Data.copies rs).length < 2 ^ 64
  references : ∀ x ∈ laidIn f rs, x.reference < 2 ^ 64

/-- What a file gains by the data of a symbol, and by definitions. -/
structure GainsData (names : ObjectSymbolId → Option String) (s : ObjectSymbol)
    (rs : List DataRecord) (new : List Definition) (f f' : ObjectFile) : Prop where
  bytes : f'.segment (segmentOf rs) = f.segment (segmentOf rs) ++
    ((laidIn f rs).flatMap (·.bytes names) ++ List.replicate (padding s rs) 0)
  copies : f'.segment .constData = f.segment .constData ++ Data.copies rs
  others : ∀ g, g ≠ segmentOf rs → g ≠ .constData → f'.segment g = f.segment g
  rest : f' = { f with
    segments := f'.segments
    relocations := f.relocations ++ (laidIn f rs).filterMap (·.relocation? names (segmentOf rs))
    defined := f.defined ++ new }

theorem copied_layOut (offset copy : Nat) (rs : List DataRecord) :
    (layOut offset copy rs).flatMap (·.record.copied) = Data.copies rs := by
  induction rs generalizing offset copy with
  | nil => rfl
  | cons r rs ih =>
    rw [layOut, flatMap_cons, ih]
    rfl

/-- Data that is not all zeros has no zeros behind it. -/
theorem gainsData_of_lays {f' : ObjectFile} (hdata : segmentOf rs ≠ .zeroData)
    (hf : Lays names (segmentOf rs) (laidIn f rs) f f') : GainsData names s rs [] f f' := by
  have hpadding : padding s rs = 0 := if_neg hdata
  refine ⟨?_, ?_, hf.others, ?_⟩
  · rw [hf.bytes, hpadding, replicate_zero, append_nil]
  · rw [hf.copies, laidIn, copied_layOut]
  · rw [append_nil]
    exact hf.rest

theorem gainsData_zeros (hzero : segmentOf rs = .zeroData)
    (hfits : (f.segment .zeroData).length < 2 ^ 64) :
    GainsData names s rs [] f (f.write .zeroData (f.segmentSize .zeroData)
      (List.replicate (max (Data.sizeOf rs) s.size).toNat 0)) := by
  have hbytes : (laidIn f rs).flatMap (·.bytes names) =
      List.replicate (total (contents rs)) 0 := by
    rcases segmentOf_eq_zeroData.mp hzero with rfl | ⟨size, rfl⟩
    · rfl
    · simp [laidIn, layOut, LaidRecord.bytes, LaidRecord.pointer?, pointer?,
        flat?, content]
  obtain ⟨hcopies, hrelocations⟩ : Data.copies rs = [] ∧
      (laidIn f rs).filterMap (·.relocation? names (segmentOf rs)) = [] := by
    rcases segmentOf_eq_zeroData.mp hzero with rfl | ⟨size, rfl⟩ <;> exact ⟨rfl, rfl⟩
  refine ⟨?_, ?_, fun g hg _ => ?_, ?_⟩
  · rw [hzero, segment_write_end hfits, if_pos rfl, hbytes, replicate_append_replicate,
      toNat_max_size hzero]
  · rw [segment_write_end hfits, if_neg (by decide), hcopies, append_nil]
  · rw [segment_write_end hfits, if_neg (hzero ▸ hg)]
  · rw [hrelocations, append_nil, append_nil]
    rfl

theorem placeSymbol_gains (hdata : a.data.WF) (hs : a.symbols.get? id = some s)
    (hl : Spans a.data c l) (hrs : ∀ r ∈ items l, r.Writable a.symbols.size)
    (hwidth : ∀ r ∈ items l, FitsPointer a.file r) (hroom : Room a.file s (items l)) :
    ∃ f, (placeSymbol id c).run a = (.ok ⟨⟩,
        { moved a id (segmentOf (items l)) (a.file.segmentSize (segmentOf (items l))) with
          file := f.define { s with
            segment := some (segmentOf (items l))
            offset := a.file.segmentSize (segmentOf (items l)) } }) ∧
      GainsData a.symbols.name? s (items l) [] a.file f := by
  have hstart : (placeSymbol id c).run a = _ := placeSymbol_run hdata hl
  generalize items l = rs at *
  have hsegment := hroom.segment
  rw [hstart]
  by_cases hzero : segmentOf rs = .zeroData
  · rw [hzero] at hsegment ⊢
    exact ⟨_, placeIn_run hs (writeZeros_run (get?_moved hs _ _) _ _ _),
      gainsData_zeros hzero (by omega)⟩
  have hplain := segmentOf_eq_data hzero
  have hnames : (moved a id .data (a.file.segmentSize .data)).symbols.name? = a.symbols.name? :=
    name?_modify _ _ fun _ => rfl
  obtain ⟨f, hrun, hlays⟩ := writeRecords_lays (a := moved a id .data (a.file.segmentSize .data))
    (g := .data) (by decide)
    (by
      rw [hplain] at hsegment
      exact Nat.lt_of_le_of_lt (by simp only [moved]; omega) hsegment) hroom.constData
    (fun r hr => by
      rw [moved, size_modify]
      exact hrs r hr) hwidth (by simpa only [laidIn, hplain, moved] using hroom.references)
  rw [hnames] at hlays
  refine ⟨f, ?_, gainsData_of_lays hzero ?_⟩
  · rw [hplain]
    exact placeIn_run hs hrun
  · rw [laidIn, hplain]
    exact hlays

def withDataIn (f : ObjectFile) (rs : List DataRecord) (s : ObjectSymbol) : ObjectSymbol :=
  { s with
    segment := some (segmentOf rs)
    offset := f.segmentSize (segmentOf rs)
    data := none
    flags := s.flags ||| .written }

def definitionIn (f : ObjectFile) (rs : List DataRecord) (s : ObjectSymbol) : Definition :=
  ⟨s.name, segmentOf rs, f.segmentSize (segmentOf rs), s.cls != .static⟩

/-- The assembly `b` is `a` with the data of a symbol written: its records are in the file, the
symbol is defined at their start, and the records are free. -/
structure WritesData (id : ObjectSymbolId) (s : ObjectSymbol) (l : Cells DataRecord)
    (a b : Assembly) : Prop where
  symbols : Replaces a.symbols id (withDataIn a.file (items l) s) b.symbols
  file : GainsData a.symbols.name? s (items l) [definitionIn a.file (items l) s] a.file b.file
  relocations : b.file.relocations.length =
    a.file.relocations.length + (items l).countP isPointer
  pool : Released a.data l b.data
  rest : b.code = a.code ∧ b.fixups = a.fixups

theorem GainsData.define {f' : ObjectFile} (hf : GainsData names s rs [] f f') {r : ObjectSymbol}
    (hsegment : r.segment = some g) :
    GainsData names s rs [⟨r.name, g, r.offset, r.cls != .static⟩] f (f'.define r) := by
  have hdefine : f'.define r =
      { f' with defined := f'.defined ++ [⟨r.name, g, r.offset, r.cls != .static⟩] } := by
    simp only [ObjectFile.define, hsegment]
  rw [hdefine]
  refine ⟨hf.bytes, hf.copies, hf.others, ?_⟩
  have hrest := hf.rest
  generalize f'.segments = segments at hrest
  subst hrest
  simp

theorem length_relocations (hrs : ∀ r ∈ rs, r.Writable a.symbols.size) (offset copy : Nat) :
    ((layOut offset copy rs).filterMap (·.relocation? a.symbols.name? g)).length =
      rs.countP isPointer := by
  induction rs generalizing offset copy with
  | nil => rfl
  | cons r rs ih =>
    have hone : ((⟨r, offset, copy⟩ : LaidRecord).relocation? a.symbols.name? g).isSome =
        r.isPointer := by
      have hr := hrs r mem_cons_self
      cases r with
      | address width target offset =>
        obtain ⟨sym, hsym⟩ := lt_size_iff.mp hr
        simp [LaidRecord.relocation?, LaidRecord.pointer?, pointer?,
          name?, hsym, isPointer]
      | _ => rfl
    have hrest := ih (fun q hq => hrs q (mem_cons_of_mem _ hq)) (offset + total r.content)
      (copy + r.copied.length)
    rw [layOut, filterMap_cons, countP_cons, ← hone, ← hrest]
    cases (⟨r, offset, copy⟩ : LaidRecord).relocation? a.symbols.name? g <;> simp

theorem writeData_gains {E : Fault → Prop} (hpool : a.data.WF) (hs : a.symbols.get? id = some s)
    (hl : Spans a.data s.data l) (hrs : ∀ r ∈ items l, r.Writable a.symbols.size)
    (hwidth : ∀ r ∈ items l, FitsPointer a.file r) (hroom : Room a.file s (items l)) :
    (writeData id).Gives E a fun _ b => WritesData id s l a b := by
  have hsize : (cleared a id).symbols.size = a.symbols.size := size_modify ..
  have hnames : (cleared a id).symbols.name? = a.symbols.name? := name?_modify _ _ fun _ => rfl
  obtain ⟨f, hplace, hgains⟩ := placeSymbol_gains (a := cleared a id) hpool (get?_cleared hs) hl
    (hsize.symm ▸ hrs) hwidth ⟨hroom.segment, hroom.constData, hroom.references⟩
  rw [hnames] at hgains
  have hdefined := hgains.define (g := segmentOf (items l)) (r := { s with
    segment := some (segmentOf (items l))
    offset := (cleared a id).file.segmentSize (segmentOf (items l))
    data := none }) rfl
  generalize f.define _ = f' at hplace hdefined
  have hplaced : PlacedIn (fun g offset f => g = segmentOf (items l) ∧
      offset = a.file.segmentSize (segmentOf (items l)) ∧ f = f') id (cleared a id) _ :=
    ⟨_, _, _, ⟨rfl, rfl, rfl⟩, rfl⟩
  refine (writeData_places hpool hs hl (commonSize_writable hl hrs) (.of_run hplace hplaced)).imp ?_
  rintro _ _ ⟨_, _, _, q, ⟨rfl, rfl, rfl⟩, hq, rfl⟩
  refine ⟨replaces_modify hs _, ⟨hdefined.bytes, hdefined.copies, hdefined.others, hdefined.rest⟩,
    ?_, hq, rfl, rfl⟩
  rw [hdefined.rest, length_append, laidIn, length_relocations hrs]
  rfl

/-- **Data is written as it is described.** A symbol whose data is a chain of records, none of them
a shared block, is placed at the end of a segment: that of zero data if there are no records or
zeros only, and that of data otherwise. Its records stand there in order, behind all that was there
before. Every pointer has the width of pointers and one relocation, and the offset it refers to is a
word. The records are free afterwards, and nothing else changes. -/
theorem writeData_lays_out (hpool : a.data.WF) (hs : a.symbols.get? id = some s)
    (hl : Spans a.data s.data l) (hrs : ∀ r ∈ items l, r.Writable a.symbols.size)
    (hwidth : ∀ r ∈ items l, FitsPointer a.file r) (hroom : Room a.file s (items l)) :
    ∃ b, (writeData id).run a = (.ok ⟨⟩, b) ∧ WritesData id s l a b := by
  obtain ⟨_, b, hrun, hb⟩ := (writeData_gains hpool hs hl hrs hwidth hroom).run
  exact ⟨b, hrun, hb⟩

/-- The address of another symbol, and a pointer to a text. -/
def pointerCells : Cells DataRecord :=
  [(⟨0, 0⟩, .address 8 ⟨0⟩ 4), (⟨1, 0⟩, .constant 8 0 [104, 105, 0])]

def pointerSymbol : ObjectSymbol :=
  { name := "pointer", cls := .global, size := 16, operandClass := .undefined, data := some ⟨0, 0⟩ }

def pointerAssembly : Assembly :=
  { Assembly.empty 8 with
    data := ((DataPool.empty.add ⟨.address 8 ⟨0⟩ 4, some ⟨1, 0⟩⟩).2.add
      ⟨.constant 8 0 [104, 105, 0], none⟩).2
    symbols := ⟨#[{ name := "value", cls := .global, size := 4, operandClass := .undefined },
      pointerSymbol]⟩ }

theorem writeData_lays_out_pointers :
    ∃ b, (writeData ⟨1⟩).run pointerAssembly = (.ok ⟨⟩, b) ∧
      b.file.segment .data = [4, 0, 0, 0, 0, 0, 0, 0, 0, 0, 0, 0, 0, 0, 0, 0] ∧
      b.file.segment .constData = [104, 105, 0] ∧
      b.file.relocations = [⟨.data, 0, .symbol "value", 4, 8, false⟩,
        ⟨.data, 8, .place .constData 0, 0, 8, false⟩] ∧
      b.data.live = 0 := by
  have hfirst := (Pool.wf_empty 64).add (⟨.address 8 ⟨0⟩ 4, some ⟨1, 0⟩⟩ : Linked DataRecord)
  have hpool : pointerAssembly.data.WF :=
    (hfirst.1.add (⟨.constant 8 0 [104, 105, 0], none⟩ : Linked DataRecord)).1
  have hspans : Spans pointerAssembly.data pointerSymbol.data pointerCells :=
    .cons (by decide) (.cons (by decide) .nil)
  have hsymbol : pointerAssembly.symbols.get? ⟨1⟩ = some pointerSymbol := rfl
  have hwritable : ∀ r ∈ items pointerCells, r.Writable pointerAssembly.symbols.size := by
    simp [pointerCells, Writable, pointerAssembly, ObjectSymbolTable.size]
  have hwidth : ∀ r ∈ items pointerCells, FitsPointer pointerAssembly.file r := by
    simp [pointerCells, FitsPointer, width?, pointerAssembly, Assembly.empty,
      ObjectFile.empty]
  obtain ⟨b, hrun, hb⟩ := writeData_lays_out hpool hsymbol hspans hwritable hwidth
    ⟨by decide, by decide, by decide⟩
  refine ⟨b, hrun, hb.file.bytes.trans (by decide), hb.file.copies.trans (by decide), ?_, ?_⟩
  · rw [hb.file.rest]
    dsimp only
    decide
  · have hlive := hb.pool.live
    have hbefore : pointerAssembly.data.live = 2 := by decide
    have hlength : pointerCells.length = 2 := rfl
    omega

/-- A pointer behind a text that does not stand at the start of its segment. -/
theorem writeData_overflows : ((writeData ⟨0⟩).run { Assembly.empty 8 with
    data := (DataPool.empty.add ⟨.constant 8 0xffffffffffffffff [104, 105, 0], none⟩).2
    symbols := ⟨#[{ pointerSymbol with size := 8 }]⟩
    file := (ObjectFile.empty 8).write .constData 0 [0] }).1 = .error .sumOverflow := by
  decide +kernel

end Assemble

end DCompiler
