import DCompiler.Proofs.Emission.Code
import DCompiler.Proofs.Analysis.Reached

/-!
# Calls in object files

The code of an object file is the code of the emitted functions one after the other, and each of its
call fields leads to its callee (`LinksCalls`). The field of a call to an emitted function holds the
distance to the start of that function. The field of any other call holds zeros and has one
relocation to the name of the callee, and that name is an external one exactly if no data has it.

Calls may go backward, to the function itself, or forward: a field is filled in when it is written,
when its function is placed, or when all references are closed.

An emitted file is data with code behind it (`Emitted`).
-/

namespace DCompiler

open Cells Work Piece Assemble List ObjectFile Program

namespace Program

/-- The definitions of functions whose code lies behind an offset. -/
def codeDefinitions (p : Program) (start : Nat) : List SymbolId → List Definition
  | [] => []
  | s :: rest =>
    ⟨p.linkName s, .code, start.toUInt64, true⟩ ::
      p.codeDefinitions (start + width (p.functionPieces s)) rest

def code (p : Program) : List Piece := p.codePieces p.emittedFunctions

variable {p : Program} {start : Nat} {functions : List SymbolId}

theorem names_codeDefinitions (start : Nat) (functions : List SymbolId) :
    (p.codeDefinitions start functions).map (·.name) = functions.map p.linkName := by
  induction functions generalizing start with
  | nil => rfl
  | cons s rest ih => rw [codeDefinitions, map_cons, ih, map_cons]

theorem mem_codeDefinitions {d : Definition} (hd : d ∈ p.codeDefinitions start functions) :
    d.segment = .code ∧ d.name ∈ functions.map p.linkName := by
  refine ⟨?_, names_codeDefinitions start functions ▸ mem_map_of_mem hd⟩
  induction functions generalizing start with
  | nil => exact nomatch hd
  | cons s rest ih =>
    rcases mem_cons.mp hd with rfl | hd
    · rfl
    · exact ih hd

theorem codeDefinitions_append (before behind : List SymbolId) :
    p.codeDefinitions start (before ++ behind) = p.codeDefinitions start before ++
      p.codeDefinitions (start + width (p.codePieces before)) behind := by
  induction before generalizing start with
  | nil => rfl
  | cons s before ih =>
    simp only [cons_append, codeDefinitions, ih, codePieces, flatMap_cons, width_append,
      Nat.add_assoc]

end Program

namespace Emission

variable {calm : Prop} {f0 : ObjectFile} {ps : List Piece} {dataDefs defs : List Definition}
  {a b : Assembly} {p : Program} {functions : List SymbolId} {pointerSize : Nat}
  {globals : List String} {f : ObjectFile} {fate : Nat → Fate}

/-! ## All functions -/

theorem emitFunctions_gives (source : SourceText) (hfunctions : ∀ s ∈ functions, p.isFunction s)
    (hnames : calm → (functions.map p.linkName).Nodup)
    (hfresh : calm → ∀ d ∈ f0.defined ++ defs, d.name ∉ functions.map p.linkName)
    (hfits : width (ps ++ p.codePieces functions) < 2 ^ 63)
    (ha : CodePhase calm f0 ps nothing defs a) :
    (functions.mapM (emitFunction p source)).Gives (Endless p) a fun _ a' =>
      CodePhase calm f0 (ps ++ p.codePieces functions) nothing
        (defs ++ p.codeDefinitions (width ps) functions) a' ∧
      a'.code.live = a.code.live ∧ a'.data = a.data := by
  induction functions generalizing ps defs a with
  | nil => exact .pure ⟨by simpa [codePieces, codeDefinitions] using ha, rfl, rfl⟩
  | cons s rest ih =>
    have hpieces : ps ++ p.codePieces (s :: rest) =
        ps ++ p.functionPieces s ++ p.codePieces rest := by
      simp [codePieces]
    have hdefs : defs ++ p.codeDefinitions (width ps) (s :: rest) =
        defs ++ [⟨p.linkName s, .code, (width ps).toUInt64, true⟩] ++
          p.codeDefinitions (width (ps ++ p.functionPieces s)) rest := by
      simp [codeDefinitions]
    rw [hpieces] at hfits ⊢
    rw [hdefs, mapM_cons]
    have hfits1 : width (ps ++ p.functionPieces s) < 2 ^ 63 := Nat.lt_of_le_of_lt (by simp) hfits
    refine .bind (emitFunction_gives source (hfunctions s mem_cons_self) ha
      (fun hcalm d hd hname => hfresh hcalm d hd (hname ▸ mem_cons_self)) hfits1) ?_
    rintro _ a1 ⟨ha1, hcode1, hdata1⟩
    refine .bind (ih (fun s' hs' => hfunctions s' (mem_cons_of_mem _ hs'))
      (fun hcalm => (nodup_cons.mp (hnames hcalm)).2) (fun hcalm d hd => ?_) hfits ha1)
      fun _ _ ⟨ha2, hcode2, hdata2⟩ => .pure ⟨ha2, hcode2.trans hcode1, hdata2.trans hdata1⟩
    rw [← append_assoc] at hd
    rcases mem_append.mp hd with hd | hd
    · exact fun hmem => hfresh hcalm d hd (mem_cons_of_mem _ hmem)
    · rw [mem_singleton.mp hd]
      exact (nodup_cons.mp (hnames hcalm)).1

/-! ## From data to code -/

/-- A file for one of the known sizes of pointers has call fields of four bytes. -/
theorem fieldWidth_selfRelative (hsize : f.pointerSize = 4 ∨ f.pointerSize = 8) :
    f.fieldWidth .selfRelative = 4 := by
  unfold fieldWidth
  rcases hsize with h | h <;> rw [h] <;> decide

theorem codePhase_of_dataPhase (ha : DataPhase pointerSize globals nothing a)
    (hsize : pointerSize = 4 ∨ pointerSize = 8) : CodePhase calm a.file [] nothing [] a := by
  have hnone : ∀ i, a.fixups.waiting i = [] := fun i => by rw [ha.fixups]; rfl
  have hcode : ∀ i s, a.symbols.get? i = some s → s.segment ≠ some .code :=
    fun i s hs hsegment => by
    obtain ⟨d, hd, -, hplace, -⟩ := (ha.symbols.sound i s hs).placed .code hsegment
    exact ha.file.defined d hd hplace
  have hfields : ∀ o name, (o, name) ∉ fields 0 [] := fun _ _ => not_mem_nil
  have hwidth := fieldWidth_selfRelative (ha.file.pointerSize_eq ▸ hsize)
  have hshows : a.file.Shows [] fun _ => .waiting :=
    { fits := by simp [width]
      fieldWidth_eq := hwidth
      code := ha.file.code
      relocations := fun o name hmem => absurd hmem (hfields o name)
      inside := fun r hr hin => absurd hin (ha.file.relocations r hr) }
  exact
    { added := ⟨fun _ _ => rfl, ⟨[], by simp, forall_mem_nil _, rfl⟩,
        ⟨[], by simp, forall_mem_nil _⟩, rfl⟩
      fields := fun i x hx => absurd (hnone i ▸ hx) not_mem_nil
      calls := fun _ hname => absurd hname not_mem_nil
      queued := fun i hi => absurd (hnone i) hi
      externals := ha.file.externals ▸ nil_subset _
      near := ⟨by simp [width], hwidth, by rw [ha.file.code]; rfl,
        fun i x hx => absurd (hnone i ▸ hx) not_mem_nil,
        fun i s hs hsegment => absurd hsegment (hcode i s hs)⟩
      codePool := ha.codePool ▸ Pool.wf_empty _
      wellFormed := ha.fixups ▸ FixupTable.wf_empty
      static := fun i _ hi => absurd (hnone i) hi
      symbols := ha.symbols
      links := fun _ => ⟨fun _ => .waiting,
        { shows := hshows
          waiting := fun i _ _ => hnone i
          known := fun o name hmem => absurd hmem (hfields o name)
          settled := fun o _ _ hmem => absurd hmem (hfields o _)
          global := fun i s hs hsegment => absurd hsegment (hcode i s hs)
          functions := fun d hd hsegment => absurd hsegment (ha.file.defined d (by simpa using hd))
          defined := (append_nil _).symm
          externals := ha.file.externals }⟩ }

/-! ## Linked calls -/

def callField (f : ObjectFile) (o : Nat) : List UInt8 := ((f.segment .code).drop o).take 4

/-- The call fields of a file with the code of a program lead to the callees. -/
structure LinksCalls (p : Program) (f : ObjectFile) : Prop where
  dataNames : ∀ d ∈ f.defined, d.segment ≠ .code →
    DataName (p.emittedGlobals.map (objectName p)) d.name
  code : f.segment .code = image (callField f) 0 p.code
  starts : ∀ before g behind, p.emittedFunctions = before ++ g :: behind →
    ⟨p.linkName g, .code, (width (p.codePieces before)).toUInt64, true⟩ ∈ f.defined
  near : ∀ o before g behind, (o, p.linkName g) ∈ fields 0 p.code →
    p.emittedFunctions = before ++ g :: behind →
      (Text.ofLittleEndian (callField f o) + (o + 4)) % 2 ^ 32 =
          width (p.codePieces before) % 2 ^ 32 ∧
        f.relocationsAt .code o.toUInt64 = []
  far : ∀ o name, (o, name) ∈ fields 0 p.code → name ∉ p.emittedFunctions.map p.linkName →
    callField f o = replicate 4 0 ∧
      f.relocationsAt .code o.toUInt64 = [⟨.code, o.toUInt64, .symbol name, 0, 4, true⟩] ∧
      f.externals.count name = if name ∈ f.defined.map (·.name) then 0 else 1

/-- The distance to a callee, added to the offset behind the field, is where the callee starts. -/
theorem near_reaches {o start : Nat} (ho : o + 4 < 2 ^ 64) (hstart : start < 2 ^ 64) :
    (Text.ofLittleEndian ((Fate.near start.toUInt64).bytes o) + (o + 4)) % 2 ^ 32 =
      start % 2 ^ 32 := by
  have hbehind : (o.toUInt64 + 4).toNat = o + 4 := by
    rw [UInt64.toNat_add, toNat_offset (by omega)]
    exact Nat.mod_eq_of_lt ho
  rw [Fate.bytes, Text.ofLittleEndian_littleEndian, UInt64.toNat_sub, hbehind, toNat_offset hstart]
  omega

theorem image_callField (hf : f.Shows ps fate) :
    (∀ o name, (o, name) ∈ fields 0 ps → callField f o = (fate o).bytes o) ∧
      f.segment .code = image (callField f) 0 ps := by
  have hfields : ∀ o name, (o, name) ∈ fields 0 ps → callField f o = (fate o).bytes o :=
    fun o name hmem => by
      rw [callField, hf.code]
      exact bytes_of_field (fun o => (fate o).length_bytes o) hmem
  exact ⟨hfields, hf.code.trans (image_congr fun o name hmem => (hfields o name hmem).symm)⟩

/-- A name that no emitted function has is that of data, or fields wait for it. -/
theorem external_iff {name : String} {o : Nat} (hlinks : Links ps fate nothing defs a)
    (hsound : a.symbols.Sound defs nothing) (hmem : (o, name) ∈ fields 0 ps)
    (hcode : ∀ d ∈ defs, d.segment = .code → d.name ≠ name) : closed (fate o) = .far ∧
      ((∃ i s, a.symbols.get? i = some s ∧ s.name = name ∧ a.fixups.waiting i ≠ []) ↔
        name ∉ defs.map (·.name)) := by
  obtain ⟨i, s, hs, rfl⟩ := hlinks.known o name hmem
  have hsettled : ∀ o, (o, s.name) ∈ fields 0 ps → fate o = s.fate := fun o hmem =>
    (hlinks.settled o i s hmem hs).resolve_right fun h => h.1
  have hqueue : (∃ j r, a.symbols.get? j = some r ∧ r.name = s.name ∧ a.fixups.waiting j ≠ []) ↔
      s.fate = .waiting := by
    constructor
    · rintro ⟨j, r, hr, hname, hwaiting⟩
      rw [hlinks.waiting j r hr, ne_eq, map_eq_nil_iff] at hwaiting
      obtain ⟨o', ho'⟩ := exists_mem_of_ne_nil _ hwaiting
      obtain ⟨hin, hfate⟩ := mem_waitingFor.mp ho'
      exact (hsettled o' (hname ▸ hin)).symm.trans hfate
    · intro hfate
      refine ⟨i, s, hs, rfl, ?_⟩
      rw [hlinks.waiting i s hs, ne_eq, map_eq_nil_iff]
      exact ne_nil_of_mem (mem_waitingFor.mpr ⟨hmem, (hsettled o hmem).trans hfate⟩)
  rw [hqueue, hsettled o hmem]
  cases hsegment : s.segment with
  | none =>
    have hfate : s.fate = .waiting := by simp [ObjectSymbol.fate, ObjectSymbol.isDefined, hsegment]
    refine ⟨by rw [hfate]; rfl, fun _ hdef => ?_, fun _ => hfate⟩
    obtain ⟨d, hd, hname⟩ := mem_map.mp hdef
    obtain ⟨j, r, hr, hrname, hplaced⟩ := hsound.backed d hd
    obtain rfl := hsound.unique j i r s hr hs (hrname.trans hname)
    obtain rfl := Option.some.inj (hs.symm.trans hr)
    simp [ObjectSymbol.isDefined, hsegment] at hplaced
  | some g =>
    obtain ⟨d, hd, hname, hplace, -⟩ := (hsound.sound i s hs).placed g hsegment
    have hdata : s.segment ≠ some .code := fun h => by
      rw [hsegment] at h
      exact hcode d hd (hplace.trans (Option.some.inj h)) hname
    have hfate : s.fate = .far := by
      simp [ObjectSymbol.fate, ObjectSymbol.isDefined, hsegment, Fate.ofSymbol]
      exact fun h => hdata (hsegment.trans (congrArg some h))
    rw [hfate]
    refine ⟨rfl, by simp, fun hnone => absurd ?_ hnone⟩
    exact mem_map.mpr ⟨d, hd, hname⟩

theorem linksCalls_of_closed (hdata : ∀ d ∈ dataDefs, d.segment ≠ .code)
    (hnamed : ∀ d ∈ dataDefs, DataName (p.emittedGlobals.map (objectName p)) d.name)
    (hb : CallsClosed p.code (dataDefs ++ p.codeDefinitions 0 p.emittedFunctions) a b)
    (hsound : a.symbols.Sound (dataDefs ++ p.codeDefinitions 0 p.emittedFunctions) nothing)
    (hdefined : b.file.defined = dataDefs ++ p.codeDefinitions 0 p.emittedFunctions) :
    LinksCalls p b.file := by
  obtain ⟨fate, fate', hlinks, hshows, hfates⟩ := hb.shows
  obtain ⟨hfield, hcode⟩ := image_callField hshows
  have hstarts : ∀ before g behind, p.emittedFunctions = before ++ g :: behind →
      ⟨p.linkName g, .code, (width (p.codePieces before)).toUInt64, true⟩ ∈
        dataDefs ++ p.codeDefinitions 0 p.emittedFunctions := fun before g behind hsplit => by
    rw [hsplit, codeDefinitions_append, Nat.zero_add]
    exact mem_append_right _ (mem_append_right _ mem_cons_self)
  refine ⟨fun d hd hsegment => ?_, hcode,
    fun before g behind hsplit => hdefined ▸ hstarts before g behind hsplit,
    fun o before g behind hmem hsplit => ?_, fun o name hmem hname => ?_⟩
  · rw [hdefined] at hd
    rcases mem_append.mp hd with hd | hd
    · exact hnamed d hd
    · exact absurd (mem_codeDefinitions hd).1 hsegment
  · -- The callee is placed, so the fate of the field is the distance to it.
    obtain ⟨i, s, hs, hname, hsegment, hoffset⟩ :=
      hlinks.functions _ (hstarts before g behind hsplit) rfl
    have hfate : fate o = .near (width (p.codePieces before)).toUInt64 := by
      have hsettled := (hlinks.settled o i s (hname ▸ hmem) hs).resolve_right fun h => h.1
      rw [hsettled]
      simp [ObjectSymbol.fate, ObjectSymbol.isDefined, hsegment, Fate.ofSymbol, hoffset]
    have hnow : fate' o = .near (width (p.codePieces before)).toUInt64 := by
      rw [hfates o _ hmem, hfate]
      rfl
    have hrange := field_in_range hmem
    have hfits := hshows.fits
    have hbefore : width (p.codePieces before) ≤ width p.code := by
      rw [code, hsplit]
      simp [codePieces]
    refine ⟨?_, by rw [hshows.relocations o _ hmem, hnow]; rfl⟩
    rw [hfield o _ hmem, hnow]
    exact near_reaches (by omega) (by omega)
  · obtain ⟨hfar, hexternal⟩ := external_iff hlinks hsound hmem fun d hd hsegment heq => by
      rcases mem_append.mp hd with hd | hd
      · exact hdata d hd hsegment
      · exact hname (heq ▸ (mem_codeDefinitions hd).2)
    have hnow : fate' o = .far := (hfates o name hmem).trans hfar
    refine ⟨by rw [hfield o name hmem, hnow]; rfl,
      by rw [hshows.relocations o name hmem, hnow]; rfl, ?_⟩
    rw [hdefined]
    split
    · next hdef => exact count_eq_zero.mpr fun h => hexternal.mp ((hb.externals name).mp h) hdef
    · next hdef =>
      rw [hb.nodup.count, if_pos ((hb.externals name).mpr (hexternal.mpr hdef))]

/-! ## Emission -/

/-- No two emitted functions have one name, and none has that of data in the file. -/
structure Distinct (p : Program) (f : ObjectFile) : Prop where
  functions : (p.emittedFunctions.map p.linkName).Nodup
  data : ∀ d ∈ f.defined, d.segment ≠ .code → d.name ∉ p.emittedFunctions.map p.linkName

theorem isFunction_of_emitted {s : SymbolId} (hs : s ∈ p.emittedFunctions) : p.isFunction s := by
  obtain ⟨f, hf, -⟩ := (Option.any_eq_true _ _).mp (mem_filter.mp hs).2
  exact Option.isSome_iff_exists.mpr ⟨f, hf⟩

/-- A file with the data and the code of a program. It knows the names that it defines and those of
calls. -/
structure Emitted (p : Program) (qs : List Placement) (f : ObjectFile) : Prop where
  items : qs.map (·.item) = p.dataItems
  data : ∃ f0, Holds p qs f0 ∧ CodeAdded f0 (p.emittedFunctions.map p.linkName) f
  knows : ∀ name, f.Knows name ↔ name ∈ f.defined.map (·.name) ∨ name ∈ names p.code

theorem ready_empty (calm : Prop) (p : Program) (size : Nat) :
    Ready calm p [] { Assembly.empty size with file := .empty p.pointerSize } where
  phase := ⟨rfl, Pool.wf_empty _, rfl,
    ⟨rfl, rfl, by simp [ObjectFile.empty], rfl, by simp [ObjectFile.empty]⟩, nofun,
    ObjectSymbolTable.sound_empty _⟩
  origins _ i s hs := by
    simp [ObjectSymbolTable.get?, Assembly.empty, ObjectSymbolTable.empty] at hs
  holds _ := holds_empty p _

/-- The data and the code of a program fit in a file for one of the known sizes of pointers, and
distances in the code are signed words. -/
structure Fits (p : Program) : Prop where
  pointerSize : p.pointerSize = 4 ∨ p.pointerSize = 8
  code : width p.code < 2 ^ 63
  data : p.dataSize < 2 ^ 64

instance (p : Program) : Decidable (Fits p) :=
  decidable_of_iff (_ ∧ _ ∧ _) ⟨fun ⟨hsize, hcode, hdata⟩ => ⟨hsize, hcode, hdata⟩,
    fun h => ⟨h.pointerSize, h.code, h.data⟩⟩

/-- The object file of a program, and what is left of the assembly. -/
structure Emits (p : Program) (em : Emission) (a : Assembly) : Prop where
  drained : Drained a
  links : Distinct p em.file → LinksCalls p em.file
  emitted : VariablesNamed p → ∃ qs, Emitted p qs em.file

/-- **Emitting a program places its data, and writes its code behind it.** -/
theorem emit_gives (hfits : Fits p) (source : SourceText) (size : Nat) :
    (emit p source).Gives (Endless p) (.empty size) fun result a =>
      ∃ em, result = .ok em ∧ Emits p em a := by
  refine .after (modifyFile_run _ _) ?_
  have hpointer := hfits.pointerSize
  refine .bind (emitGlobals_places (fun hvars : VariablesNamed p => ⟨hvars, by omega⟩)
    (fun s hs => hs) (ready_empty _ p size)
    (fun _ => by rw [map_nil, sum_nil, Nat.zero_add]; exact hfits.data)) ?_
  rintro globals a1 ⟨hdata1, qs, hqs, hready⟩
  have ha1 := hready.phase
  -- From here on, what is said about calls depends on the names of the data.
  let calm := (p.emittedFunctions.map p.linkName).Nodup ∧
    ∀ d ∈ a1.file.defined, d.name ∉ p.emittedFunctions.map p.linkName
  have hcode : CodePhase calm a1.file [] nothing [] a1 := codePhase_of_dataPhase ha1 hpointer
  refine .bind (emitFunctions_gives source (fun _ => isFunction_of_emitted) (fun h => h.1)
    (fun h => append_nil _ ▸ h.2) hfits.code hcode) ?_
  rintro functions a2 ⟨ha2, hcode2, hdata2⟩
  refine .bind (flush_gives ha2) ?_
  rintro result a3 ⟨rfl, ⟨hadded, hknows⟩, hdefined, hdrained, hclosed⟩
  refine .after (run_get a3) (.pure ⟨_, rfl, ?_, fun hdistinct => ?_, fun hvars => ?_⟩)
  · exact hdrained (hcode2.trans (congrArg Pool.live ha1.codePool)) (hdata2 ▸ hdata1)
  · have hcalm : calm := ⟨hdistinct.functions, fun d hd =>
      hdistinct.data d (hdefined ▸ ha2.added.kept hd) (ha1.file.defined d hd)⟩
    obtain ⟨fate, hlinks⟩ := ha2.links hcalm
    exact linksCalls_of_closed ha1.file.defined ha1.named (hclosed hcalm)
      (hlinks.defined ▸ ha2.symbols) (hdefined.trans hlinks.defined)
  · have hholds := hready.holds hvars
    rw [nil_append, names_codeDefinitions] at hadded
    refine ⟨qs, hqs, ⟨a1.file, hholds, hadded⟩, fun name => ?_⟩
    rw [hknows, hholds.commons]
    simp [code, emittedFunctions]

/-- A type of the program has no size, and emission ends with that fault. -/
def EndsSizeless (s : Session) : Prop :=
  ∃ e, s.emit.1 = .error (.fault e) ∧ Endless s.program e

theorem emits_or_endsSizeless (s : Session) {size : Nat} (hfresh : s.assembly = .empty size)
    (hfits : Fits s.program) :
    (∃ em, s.emit.1 = .ok em ∧ Emits s.program em s.emit.2.assembly) ∨ EndsSizeless s := by
  have hgives := emit_gives hfits s.source size
  unfold Gives at hgives
  unfold EndsSizeless Session.emit
  rw [hfresh]
  rcases hrun : (Emission.emit s.program s.source).run (.empty size) with ⟨e | result, a⟩ <;>
    simp only [hrun] at hgives
  · exact .inr ⟨e, rfl, hgives⟩
  · obtain ⟨em, rfl, hem⟩ := hgives
    exact .inl ⟨em, rfl, hem⟩

end Emission

open Emission

/-- Emitting a program into a new object file links all its calls, as long as the names of functions
are distinct. There is an object file unless a type contains itself or has a size that is no
word. -/
theorem emit_links_calls (s : Session) {size : Nat} (hfresh : s.assembly = .empty size)
    (hfits : Fits s.program) :
    (∃ em, s.emit.1 = .ok em ∧ (Distinct s.program em.file → LinksCalls s.program em.file)) ∨
      EndsSizeless s := by
  rcases emits_or_endsSizeless s hfresh hfits with ⟨em, hem, hemits⟩ | hsizeless
  · exact .inl ⟨em, hem, hemits.links⟩
  · exact .inr hsizeless

theorem assembly_sessionOf (text : String) : (sessionOf text).assembly = .empty 8 := by
  unfold sessionOf Session.analyse
  dsimp only
  split
  · rfl
  · split <;> rfl

theorem exists_ok_of_check {ε α : Type} {r : Except ε α} {P : α → Prop} [DecidablePred P]
    (hcheck : r.toOption.any (fun x => decide (P x)) = true) :
    ∃ x, r = .ok x ∧ P x := by
  cases r with
  | ok x => exact ⟨x, rfl, of_decide_eq_true hcheck⟩
  | error e => exact absurd hcheck nofun

/-- A backward call, a forward call and a call of the function itself. -/
def callsAround : Session :=
  sessionOf "module m; void g() { } void f() { g(); f(); h(); } void h() { f(); }"

theorem emit_links_callsAround :
    ∃ em, callsAround.emit.1 = .ok em ∧ LinksCalls callsAround.program em.file := by
  obtain ⟨em, hem, hnames, hfits, hcode⟩ : ∃ em, callsAround.emit.1 = .ok em ∧
      (callsAround.program.emittedFunctions.map callsAround.program.linkName).Nodup ∧
      Fits callsAround.program ∧ ∀ d ∈ em.file.defined, d.segment = .code := by
    apply exists_ok_of_check
    decide +kernel
  rcases emit_links_calls callsAround (assembly_sessionOf _) hfits with
    ⟨em', hem', hlinks⟩ | ⟨e, herror, -⟩
  · obtain rfl : em = em' := Except.ok.inj (hem.symm.trans hem')
    exact ⟨em, hem, hlinks ⟨hnames, fun d hd hsegment => absurd (hcode d hd) hsegment⟩⟩
  · exact nomatch hem.symm.trans herror

/-- The callee is declared elsewhere and has the name of the data of the array literal. -/
def callOfData : Session :=
  sessionOf "module m; int[] a = [1, 2]; extern(C) void __dtoff0(); void f() { __dtoff0(); }"

/-- The call goes to that data, and the name is not an external one. -/
theorem call_of_unnamed_data :
    ∃ em, callOfData.emit.1 = .ok em ∧ callOfData.program.log.errors = 0 ∧
      em.functions = ["m.f"] ∧
      em.file.defined.map (·.name) = ["__dtoff0", "m.a", "m.f"] ∧
      em.file.relocationsAt .code 5 = [⟨.code, 5, .symbol "__dtoff0", 0, 4, true⟩] ∧
      em.file.externals = [] := by
  apply exists_ok_of_check
  decide +kernel

end DCompiler
