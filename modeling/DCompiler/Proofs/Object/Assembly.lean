import DCompiler.Object.Assembly
import DCompiler.Proofs.Data.Builder
import DCompiler.Proofs.Object.File
import DCompiler.Proofs.Object.Symbol

/-!
# Writing data

While data is written, the assembly of an object file is in its data phase (`DataPhase`): the file
has no code, no reference waits, and the symbols are *sound*. Names are unique, each placed symbol
is defined in the file at its place, and each static symbol is placed, apart from those that are
about to be. Writing the data of a symbol keeps the phase, and places the symbol.

A symbol for internal use is named by a base and the number of symbols before it. Other symbols can
have that name, so it is a new symbol exactly if the name is free (`internal_fresh_iff`).
-/

namespace DCompiler

open Cells Work List ObjectSymbolTable

variable {f : ObjectSymbol → ObjectSymbol} {α : Type} {w : DataWork α} {g : Segment}

/-! ## Sound symbols -/

/-- A symbol agrees with the definitions of a file. If it is static, it is placed or about to be,
and only then it may have data that is not yet written. -/
structure ObjectSymbol.Sound (defined : List Definition) (pending : Prop) (s : ObjectSymbol) :
    Prop where
  externIndex : s.externIndex = 0
  flags : s.flags = .none ∨ s.flags = .written
  static : s.cls = .static → s.isDefined ∨ pending
  data : s.data = none ∨ pending
  placed : ∀ g, s.segment = some g →
    ∃ d ∈ defined, d.name = s.name ∧ d.segment = g ∧ d.offset = s.offset

theorem ObjectSymbol.Sound.mono {defined defined' : List Definition} {pending pending' : Prop}
    {s : ObjectSymbol} (hs : s.Sound defined pending) (hdefined : defined ⊆ defined')
    (hpending : pending → pending') : s.Sound defined' pending' :=
  { hs with
    static := fun hstatic => (hs.static hstatic).imp_right hpending
    data := hs.data.imp_right hpending
    placed := fun g hg => (hs.placed g hg).imp fun _ => And.imp_left fun hd => hdefined hd }

namespace ObjectSymbolTable

variable {t u : ObjectSymbolTable} {defined defined' : List Definition}
  {pending pending' : ObjectSymbolId → Prop} {id : ObjectSymbolId} {s : ObjectSymbol}
  {name : String} {cls : SymbolClass}

/-- Names are unique, all symbols are sound, and what the file defines is placed. -/
structure Sound (defined : List Definition) (pending : ObjectSymbolId → Prop)
    (t : ObjectSymbolTable) : Prop where
  unique : t.Unique
  sound : ∀ i s, t.get? i = some s → s.Sound defined (pending i)
  backed : ∀ d ∈ defined, ∃ i s, t.get? i = some s ∧ s.name = d.name ∧ s.isDefined

theorem sound_empty (pending : ObjectSymbolId → Prop) : Sound [] pending .empty :=
  ⟨unique_empty, fun i s hs => by simp [get?, empty] at hs, fun d hd => nomatch hd⟩

theorem Declares.sound (hd : Declares t name cls id u) (ht : Sound defined pending t)
    (hcls : cls = .static → pending' id) (hpending : ∀ i, pending i → pending' i) :
    Sound defined pending' u := by
  refine ⟨hd.unique ht.unique, fun i r hr => ?_, fun d hdef => ?_⟩
  · rcases hd.made i r hr with ⟨s, hs, c, rfl⟩ | ⟨rfl, hfresh, -⟩
    · exact { (ht.sound i s hs).mono (fun _ hd => hd) (hpending i) with }
    refine ⟨hfresh.externIndex_eq, .inl hfresh.flags_eq, fun hstatic => ?_, .inl hfresh.data_eq,
      fun g hg => ?_⟩
    · exact .inr (hcls (hfresh.cls_eq.symm.trans hstatic))
    · simp [hfresh.segment_eq] at hg
  · obtain ⟨i, s, hs, hname, hplaced⟩ := ht.backed d hdef
    obtain ⟨r, hr, c, rfl⟩ := hd.kept i s hs
    exact ⟨i, _, hr, hname, hplaced⟩

theorem Sound.modify (ht : Sound defined pending t) (hs : t.get? id = some s)
    (hname : ∀ s, (f s).name = s.name) (hsound : (f s).Sound defined' (pending' id))
    (hplaced : s.isDefined → (f s).isDefined) (hdefined : defined ⊆ defined')
    (hnew : ∀ d ∈ defined', d ∈ defined ∨ d.name = s.name ∧ (f s).isDefined)
    (hpending : ∀ i, i ≠ id → pending i → pending' i) :
    Sound defined' pending' (t.modify id f) := by
  have hself : (t.modify id f).get? id = some (f s) := by
    rw [get?_modify, if_pos rfl, hs]
    rfl
  refine ⟨ht.unique.modify hname, fun i r hr => ?_, fun d hd => ?_⟩
  · rcases get?_modify_cases hs hr with ⟨rfl, rfl⟩ | ⟨hi, hr⟩
    · exact hsound
    · exact (ht.sound i r hr).mono hdefined (hpending i hi)
  rcases hnew d hd with hd | ⟨hdname, hnow⟩
  · obtain ⟨i, r, hr, hrname, hrplaced⟩ := ht.backed d hd
    by_cases hi : i = id
    · subst hi
      obtain rfl := Option.some.inj (hs.symm.trans hr)
      exact ⟨i, f s, hself, (hname s).trans hrname, hplaced hrplaced⟩
    · exact ⟨i, r, by rw [get?_modify, if_neg hi, hr], hrname, hrplaced⟩
  · exact ⟨id, f s, hself, (hname s).trans hdname.symm, hnow⟩

end ObjectSymbolTable

/-! ## Data and its segment -/

namespace Data

/-- The segment for data: it is zero data if there are no records, or zeros only. -/
def segmentOf : List DataRecord → Segment
  | [] | [.zeros _] => .zeroData
  | _ => .data

variable {rs : List DataRecord}

theorem segmentOf_eq_zeroData :
    segmentOf rs = .zeroData ↔ rs = [] ∨ ∃ size, rs = [.zeros size] := by
  constructor
  · intro hzero
    unfold segmentOf at hzero
    split at hzero
    · exact .inl rfl
    · exact .inr ⟨_, rfl⟩
    · exact nomatch hzero
  · rintro (rfl | ⟨size, rfl⟩) <;> rfl

theorem segmentOf_eq_data (hzero : segmentOf rs ≠ .zeroData) : segmentOf rs = .data := by
  unfold segmentOf at hzero ⊢
  split at hzero
  · exact absurd rfl hzero
  · exact absurd rfl hzero
  · rfl

end Data

namespace Assemble

open ObjectFile

variable {E : Fault → Prop} {a b : Assembly} {id : ObjectSymbolId} {s : ObjectSymbol} {c : Chain}
  {l : Cells DataRecord} {pointerSize : Nat} {globals : List String}
  {pending : ObjectSymbolId → Prop}

/-! ## Single steps -/

theorem symbol_run (hs : a.symbols.get? id = some s) : (symbol id).run a = (.ok s, a) := by
  rw [symbol, run_bind (run_get a)]
  simp only [hs]
  rfl

theorem modifySymbol_run (hs : a.symbols.get? id = some s) (f : ObjectSymbol → ObjectSymbol) :
    (modifySymbol id f).run a = (.ok ⟨⟩, { a with symbols := a.symbols.modify id f }) := by
  rw [modifySymbol, run_bind (symbol_run hs), run_modify]

theorem modifyFile_run (f : ObjectFile → ObjectFile) (a : Assembly) :
    (modifyFile f).run a = (.ok ⟨⟩, { a with file := f a.file }) := rfl

theorem onData_run {x : α} {q : DataPool} (hw : w.run a.data = (.ok x, q)) :
    (onData w).run a = (.ok x, { a with data := q }) :=
  run_onPart hw

theorem onData_gives {Q : α → DataPool → Prop} (hw : w.Gives E a.data Q) :
    (onData w).Gives E a fun x b => ∃ q, Q x q ∧ b = { a with data := q } :=
  Gives.onPart hw

theorem symbol_gives (hid : (∀ e, E e) ∨ id.index < a.symbols.size) :
    (symbol id).Gives E a fun s b => a.symbols.get? id = some s ∧ b = a := by
  cases hs : a.symbols.get? id with
  | some s => exact .of_run (symbol_run hs) ⟨rfl, rfl⟩
  | none =>
    rcases hid with hE | hid
    · refine .fault (t := a) (e := .noObjectSymbol a.symbols.size id.index) ?_ (hE _)
      rw [symbol, run_bind (run_get a)]
      simp only [hs]
      rfl
    · obtain ⟨s, hs'⟩ := lt_size_iff.mp hid
      exact nomatch hs.symm.trans hs'

/-! ## Records -/

/-- The file is all that changes. It grows by data and keeps its definitions. -/
def FileOnly (a b : Assembly) : Prop :=
  ∃ f, b = { a with file := f } ∧ a.file.GrowsData f ∧ f.defined = a.file.defined

theorem modifyFile_gives {f : ObjectFile → ObjectFile} (hf : a.file.GrowsData (f a.file))
    (hdefined : (f a.file).defined = a.file.defined) :
    (modifyFile f).Gives E a fun _ b => FileOnly a b :=
  .of_run (modifyFile_run f a) ⟨_, rfl, hf, hdefined⟩

theorem writeRecord_gives {r : DataRecord} (hg : g ≠ .code)
    (hr : (∀ e, E e) ∨ r.Safe a.symbols.size) (position : UInt64) :
    (writeRecord g position r).Gives E a fun _ b => FileOnly a b := by
  unfold writeRecord
  cases r with
  | zeros | inline | bytes => exact modifyFile_gives (growsData_write hg _ _) rfl
  | constant width offset bs =>
    refine .after (run_get a) (.bind (modifyFile_gives (growsData_write (by decide) _ _) rfl) ?_)
    rintro _ _ ⟨f, rfl, hf, hdefined⟩
    refine .bind (.lift (Q := fun _ b => b = { a with file := f })
      (fun e _ => hr.elim (· e) False.elim) fun _ _ => rfl) ?_
    rintro place _ rfl
    exact .of_run (modifyFile_run _ _) ⟨_, rfl, hf.trans (growsData_refer hg _ _ rfl), hdefined⟩
  | address width target offset =>
    refine (symbol_gives hr).bind ?_
    rintro _ _ ⟨-, rfl⟩
    exact modifyFile_gives (growsData_refer hg _ _ rfl) rfl
  | codeAddress width offset => exact modifyFile_gives (growsData_refer hg _ _ rfl) rfl
  | common size =>
    rcases hr with hE | hr
    · exact .fault (t := a) rfl (hE _)
    · exact hr.elim

theorem writeRecords_gives {rs : List DataRecord} (hg : g ≠ .code)
    (hrs : (∀ e, E e) ∨ ∀ r ∈ rs, r.Safe a.symbols.size) (position : UInt64) :
    (writeRecords g position rs).Gives E a fun _ b => FileOnly a b := by
  induction rs generalizing a position with
  | nil => exact .pure ⟨a.file, rfl, .refl _, rfl⟩
  | cons r rs ih =>
    refine .bind (writeRecord_gives hg (hrs.imp_right (· r mem_cons_self)) position) ?_
    rintro _ _ ⟨f, rfl, hf, hdefined⟩
    refine (ih (a := { a with file := f })
      (hrs.imp_right fun h r hr => h r (mem_cons_of_mem _ hr)) _).imp ?_
    rintro _ _ ⟨f', rfl, hf', hdefined'⟩
    exact ⟨f', rfl, hf.trans hf', hdefined'.trans hdefined⟩

/-! ## Symbols with data -/

def Replaces (t : ObjectSymbolTable) (id : ObjectSymbolId) (s : ObjectSymbol)
    (u : ObjectSymbolTable) : Prop :=
  ∀ i, u.get? i = if i = id then some s else t.get? i

theorem replaces_modify (hs : t.get? id = some s) (f : ObjectSymbol → ObjectSymbol) :
    Replaces t id (f s) (t.modify id f) := fun i => by
  rw [get?_modify, hs]
  rfl

theorem Replaces.self {u : ObjectSymbolTable} (htu : Replaces t id s u) : u.get? id = some s := by
  rw [htu id, if_pos rfl]

theorem isZeroData_spans (hl : Spans a.data c l) :
    (isZeroData c).run a = (.ok (Data.segmentOf (items l) = .zeroData : Bool), a) := by
  cases hl with
  | nil => rfl
  | @cons h r next l hget hrest =>
    rw [isZeroData, if_neg (by simp)]
    refine onData_run (a := a) (q := a.data) ?_
    rw [Data.isZeroRun, run_bind (record_run hget), run_pure]
    cases hrest <;> cases r <;> rfl

def moved (a : Assembly) (id : ObjectSymbolId) (g : Segment) (offset : UInt64) : Assembly :=
  { a with
    symbols := a.symbols.modify id fun sym => { sym with segment := some g, offset := offset } }

theorem get?_moved (hs : a.symbols.get? id = some s) (g : Segment) (offset : UInt64) :
    (moved a id g offset).symbols.get? id =
      some { s with segment := some g, offset := offset } :=
  (replaces_modify hs _).self

theorem placeIn_run {offset : UInt64} {w : Assemble Unit} {f : ObjectFile}
    (hs : a.symbols.get? id = some s)
    (hw : w.run (moved a id g offset) = (.ok ⟨⟩, { moved a id g offset with file := f })) :
    (placeIn id g offset w).run a = (.ok ⟨⟩, { moved a id g offset with
      file := f.define { s with segment := some g, offset := offset } }) := by
  have hmove : (modifySymbol id fun sym =>
      { sym with segment := some g, offset := offset }).run a = (.ok ⟨⟩, moved a id g offset) :=
    modifySymbol_run hs _
  have hmoved : ({ moved a id g offset with file := f } : Assembly).symbols.get? id =
      some { s with segment := some g, offset := offset } := get?_moved hs g offset
  rw [placeIn, run_bind hmove, run_bind hw]
  exact (run_bind (symbol_run hmoved) _).trans (modifyFile_run _ _)

theorem placeSymbol_run (hdata : a.data.WF) (hl : Spans a.data c l) :
    (placeSymbol id c).run a =
      (if Data.segmentOf (items l) = .zeroData then
        placeIn id .zeroData (a.file.segmentSize .zeroData)
          (writeZeros id .zeroData (a.file.segmentSize .zeroData) (items l))
      else placeIn id .data (a.file.segmentSize .data)
        (writeRecords .data (a.file.segmentSize .data) (items l))).run a := by
  rw [placeSymbol, run_bind (onData_run (items_run hdata hl)), run_bind (isZeroData_spans hl),
    run_bind (run_get a)]
  simp only [decide_eq_true_eq]

theorem writeZeros_run (hs : a.symbols.get? id = some s) (g : Segment) (offset : UInt64)
    (rs : List DataRecord) :
    (writeZeros id g offset rs).run a = (.ok ⟨⟩, { a with
      file := a.file.write g offset (replicate (max (Data.sizeOf rs) s.size).toNat 0) }) := by
  rw [writeZeros, run_bind (symbol_run hs)]
  rfl

/-- The symbol is at a new place, and the file goes with it. -/
def PlacedIn (P : Segment → UInt64 → ObjectFile → Prop) (id : ObjectSymbolId) (a b : Assembly) :
    Prop :=
  ∃ g offset f, P g offset f ∧ b = { moved a id g offset with file := f }

/-- The file `f'` is `f` with more data and the definition of a symbol. -/
def Defining (s : ObjectSymbol) (f : ObjectFile) (g : Segment) (offset : UInt64) (f' : ObjectFile) :
    Prop :=
  f.GrowsData f' ∧ f'.defined = f.defined ++ [⟨s.name, g, offset, s.cls != .static⟩]

theorem placeIn_gives {offset : UInt64} {w : Assemble Unit} (hg : g ≠ .code)
    (hs : a.symbols.get? id = some s)
    (hw : w.Gives E (moved a id g offset) fun _ b => FileOnly (moved a id g offset) b) :
    (placeIn id g offset w).Gives E a fun _ b => PlacedIn (Defining s a.file) id a b := by
  refine .after (modifySymbol_run hs _) (.bind hw ?_)
  rintro _ _ ⟨f, rfl, hf, hdefined⟩
  refine .after (symbol_run (get?_moved hs g offset)) (.of_run (modifyFile_run _ _)
    ⟨g, offset, _, ⟨hf.trans ⟨grows_define _ _, fun _ h => h.define (by simpa using hg)⟩, ?_⟩, rfl⟩)
  simp only [define, hdefined]
  rfl

theorem placeSymbol_gives (hdata : a.data.WF) (hs : a.symbols.get? id = some s)
    (hl : Spans a.data c l)
    (hsafe : (∀ e, E e) ∨ ∀ r ∈ items l, r.Safe a.symbols.size) :
    (placeSymbol id c).Gives E a fun _ b => PlacedIn (Defining s a.file) id a b := by
  rw [Gives, placeSymbol_run hdata hl]
  by_cases hzero : Data.segmentOf (items l) = .zeroData
  · rw [if_pos hzero]
    refine placeIn_gives (g := .zeroData) (by decide) hs ?_
    exact .of_run (writeZeros_run (get?_moved hs _ _) _ _ _)
      ⟨_, rfl, growsData_write (by decide) _ _, rfl⟩
  · rw [if_neg hzero]
    refine placeIn_gives (g := .data) (by decide) hs ?_
    refine writeRecords_gives (a := moved _ id .data _) (g := .data) (by decide) ?_ _
    rw [moved, size_modify]
    exact hsafe

def cleared (a : Assembly) (id : ObjectSymbolId) : Assembly :=
  { a with symbols := a.symbols.modify id fun sym => { sym with data := none } }

theorem get?_cleared (hs : a.symbols.get? id = some s) :
    (cleared a id).symbols.get? id = some { s with data := none } :=
  (replaces_modify hs _).self

def written (g : Segment) (offset : UInt64) (s : ObjectSymbol) : ObjectSymbol :=
  { s with segment := some g, offset := offset, data := none, flags := s.flags ||| .written }

theorem writeData_places {P : Segment → UInt64 → ObjectFile → Prop} (hdata : a.data.WF)
    (hs : a.symbols.get? id = some s) (hl : Spans a.data s.data l)
    (hcommon : (commonSize? s.data).run a.data = (.ok none, a.data))
    (hplace : (placeSymbol id s.data).Gives E (cleared a id) fun _ b =>
      PlacedIn P id (cleared a id) b) :
    (writeData id).Gives E a fun _ b => ∃ g offset f q, P g offset f ∧ Released a.data l q ∧
      b = { a with data := q, symbols := a.symbols.modify id (written g offset), file := f } := by
  refine .after (symbol_run hs) (.after (modifySymbol_run hs _) ?_)
  refine .after (onData_run (a := cleared a id) hcommon) (.bind hplace ?_)
  rintro _ _ ⟨g, offset, f, hP, rfl⟩
  refine .after (modifySymbol_run (a := { moved (cleared a id) id g offset with file := f })
    (get?_moved (get?_cleared hs) g offset) _) ?_
  obtain ⟨q, hrelease, hq⟩ := release_run hdata hl
  refine .of_run (onData_run hrelease) ⟨g, offset, f, q, hP, hq, ?_⟩
  simp only [moved, cleared, modify_modify]
  rfl

theorem commonSize_run {p : DataPool} (hl : Spans p c l) :
    ∃ size, (commonSize? c).run p = (.ok size, p) ∧
      ((∀ r ∈ items l, r.Writable a.symbols.size) → size = none) := by
  cases hl with
  | nil => exact ⟨none, rfl, fun _ => rfl⟩
  | @cons h r next l hget hrest =>
    rw [commonSize?, run_bind (record_run hget)]
    cases r with
    | common size => exact ⟨some size, rfl, fun h => (h _ mem_cons_self).elim⟩
    | _ => exact ⟨none, rfl, fun _ => rfl⟩

theorem commonSize_writable (hl : Spans a.data c l)
    (hwritable : ∀ r ∈ items l, r.Writable a.symbols.size) :
    (commonSize? c).run a.data = (.ok none, a.data) := by
  obtain ⟨size, hrun, hnone⟩ := commonSize_run (a := a) hl
  rw [hrun, hnone hwritable]

/-! ## The data phase -/

/-- The names that data may have: those of global variables and those of unnamed data. -/
def DataName (globals : List String) (name : String) : Prop :=
  name ∈ globals ∨ ∃ n : Nat, name = "__dtoff" ++ toString n

/-- The state of an assembly while data is written. -/
structure DataPhase (pointerSize : Nat) (globals : List String) (pending : ObjectSymbolId → Prop)
    (a : Assembly) : Prop where
  codePool : a.code = .empty
  pool : a.data.WF
  fixups : a.fixups = .empty
  file : a.file.DataOnly pointerSize
  named : ∀ d ∈ a.file.defined, DataName globals d.name
  symbols : a.symbols.Sound a.file.defined pending

def nothing : ObjectSymbolId → Prop := fun _ => False

section

variable (ha : DataPhase pointerSize globals pending a) (hs : a.symbols.get? id = some s)
include ha hs

theorem DataPhase.attach (hpending : ∀ i, i ≠ id → ¬ pending i) (c : Chain) :
    DataPhase pointerSize globals (· = id)
      { a with symbols := a.symbols.modify id fun sym => { sym with data := c } } := by
  have hsound := (ha.symbols.sound id s hs).mono (fun _ hd => hd) fun _ => (rfl : id = id)
  refine { ha with symbols := ?_ }
  exact ha.symbols.modify hs (fun _ => rfl) { hsound with data := .inr rfl } (fun h => h)
    (fun _ hd => hd) (fun _ hd => .inl hd) fun i hi hin => (hpending i hi hin).elim

theorem writeData_gives (hname : DataName globals s.name)
    (hl : Spans a.data s.data l) (hsafe : ∀ r ∈ items l, r.Safe a.symbols.size)
    (hpending : ∀ i, i ≠ id → ¬ pending i) :
    (writeData id).Gives E a fun _ b => DataPhase pointerSize globals nothing b ∧
      b.symbols.size = a.symbols.size ∧ Frame a.data l b.data [] := by
  have hplace := placeSymbol_gives (E := E) (a := cleared a id) ha.pool (get?_cleared hs) hl
    (.inr ((size_modify ..).symm ▸ hsafe))
  have hcommon := commonSize_writable hl fun r hr => (hsafe r hr).writable
  refine (writeData_places ha.pool hs hl hcommon hplace).imp ?_
  rintro _ _ ⟨g, offset, f, q, ⟨hf, hdefined⟩, hq, rfl⟩
  have hsound := ha.symbols.sound id s hs
  have hnew : ∀ d ∈ f.defined, d ∈ a.file.defined ∨ d.name = s.name := fun d hd => by
    rw [hdefined] at hd
    refine (mem_append.mp hd).imp_right fun hd => ?_
    rw [mem_singleton.mp hd]
  refine ⟨{ ha with
    pool := hq.wf
    file := hf.dataOnly _ ha.file
    named := fun d hd => ?_
    symbols := ?_ }, size_modify .., hq.frame⟩
  · rcases hnew d hd with hd | hd
    · exact ha.named d hd
    · exact hd ▸ hname
  refine ha.symbols.modify hs (fun _ => rfl) ⟨hsound.externIndex, .inr ?_, fun _ => .inl rfl,
    .inl rfl, fun g' hg' => ?_⟩ (fun _ => rfl) (fun d hd => hdefined ▸ mem_append_left _ hd)
    (fun d hd => (hnew d hd).imp_right fun hd => ⟨hd, rfl⟩) fun i hi hin => hpending i hi hin
  · rcases hsound.flags with h | h <;> simp only [written, h] <;> rfl
  · obtain rfl := Option.some.inj hg'
    exact ⟨_, hdefined ▸ mem_append_right _ mem_cons_self, rfl, rfl, rfl⟩

end

end Assemble

/-! ## Numbered names -/

namespace ObjectSymbolTable

variable {t u : ObjectSymbolTable} {id : ObjectSymbolId} {s : ObjectSymbol} {name base : String}
  {size : UInt64}

/-- A table that is made from another by declaring names and numbered bases. -/
inductive Made (t : ObjectSymbolTable) : ObjectSymbolTable → Prop
  | refl : Made t t
  | declare {u : ObjectSymbolTable} (name : String) (cls : SymbolClass) (size : UInt64) :
    Made t u → Made t (u.declare name cls size).2
  | internal {u : ObjectSymbolTable} (base : String) (size : UInt64) :
    Made t u → Made t (u.internal base size).2

theorem Made.keeps (h : Made t u) (hs : t.get? id = some s) : u.get? id = some s := by
  induction h with
  | refl => exact hs
  | declare name cls size _ ih => exact get?_declare cls size ih
  | internal base size _ ih => exact get?_declare .static size ih

theorem Made.unique (h : Made t u) (ht : t.Unique) : u.Unique := by
  induction h with
  | refl => exact ht
  | declare name cls size _ ih => exact (declare_declares _ _ cls size).unique ih
  | internal base size _ ih => exact (declare_declares _ _ .static size).unique ih

theorem Unique.lookup_iff (ht : t.Unique) :
    t.lookup name = some id ↔ ∃ s, t.get? id = some s ∧ s.name = name := by
  refine ⟨lookup_eq_some, fun ⟨s, hs, hname⟩ => ?_⟩
  cases hlookup : t.lookup name with
  | none => exact absurd hname (lookup_eq_none hlookup hs)
  | some j =>
    obtain ⟨r, hr, hrname⟩ := lookup_eq_some hlookup
    rw [ht j id r s hr hs (hrname.trans hname.symm)]

theorem internal_fresh_iff : t.get? (t.internal base size).1 = none ↔
    ∀ i s, t.get? i = some s → s.name ≠ base ++ toString t.size := by
  show t.get? (t.declare (base ++ toString t.size) .static size).1 = none ↔ _
  rcases declare_cases t (base ++ toString t.size) .static size with
    ⟨id, r, h, hr, hname⟩ | ⟨r, u, h, -, -, -, -, hother⟩ <;> rw [h]
  · exact iff_of_false (by simp [hr]) fun hfree => hfree id r hr hname
  · exact iff_of_true (Array.getElem?_eq_none .refl) hother

end ObjectSymbolTable

/-! ## Unnamed data -/

namespace Assemble

/-- Work that changes no symbol but one. -/
def Spares {α : Type} (id : ObjectSymbolId) (w : Assemble α) : Prop :=
  ∀ a, w.Gives (fun _ => True) a fun _ b => ∀ i, i ≠ id → b.symbols.get? i = a.symbols.get? i

variable {β : Type} {id : ObjectSymbolId} {w : Assemble α} {f : α → Assemble β}

theorem Spares.bind (hw : Spares id w) (hf : ∀ x, Spares id (f x)) : Spares id (w >>= f) :=
  fun a => .bind (hw a) fun x b hb => (hf x b).imp fun _ _ hc i hi => (hc i hi).trans (hb i hi)

theorem onData_symbols (w : DataWork α) (a : Assembly) :
    (onData w).Gives (fun _ => True) a fun _ b => b.symbols = a.symbols := by
  have hw : w.Gives (fun _ => True) a.data fun _ _ => True := by
    unfold Gives
    split <;> trivial
  refine (onData_gives hw).imp ?_
  rintro _ _ ⟨q, -, rfl⟩
  rfl

theorem onData_spares (w : DataWork α) : Spares id (onData w) := fun a =>
  (onData_symbols w a).imp fun _ _ hb _ _ => by rw [hb]

theorem symbol_spares (s : ObjectSymbolId) : Spares id (symbol s) := fun a =>
  (symbol_gives (.inl fun _ => trivial)).imp fun _ _ ⟨_, hb⟩ _ _ => by rw [hb]

theorem modifySymbol_spares (f : ObjectSymbol → ObjectSymbol) : Spares id (modifySymbol id f) :=
  .bind (symbol_spares id) fun _ a => .of_run (run_modify _ a) fun i hi => by
    rw [get?_modify, if_neg hi]

theorem modifyFile_spares (f : ObjectFile → ObjectFile) : Spares id (modifyFile f) := fun a =>
  .of_run (modifyFile_run f a) fun _ _ => rfl

theorem placeSymbol_spares (c : Chain) : Spares id (placeSymbol id c) := by
  have hplace {g : Segment} {offset : UInt64} {write : Assemble Unit} (hwrite : Spares id write) :
      Spares id (placeIn id g offset write) :=
    .bind (modifySymbol_spares _) fun _ => .bind hwrite fun _ => .bind (symbol_spares id) fun _ =>
      modifyFile_spares _
  refine .bind (onData_spares _) fun records => .bind ?_ fun isZero a => .after (run_get a) ?_
  · unfold isZeroData
    split
    · exact fun _ => .pure fun _ _ => rfl
    · exact onData_spares _
  · dsimp only
    split
    · exact hplace (.bind (symbol_spares id) fun _ => modifyFile_spares _) a
    · refine hplace (fun a => (writeRecords_gives (by decide) (.inl fun _ => trivial) _).imp ?_) a
      rintro _ _ ⟨f, rfl, -⟩ i -
      rfl

theorem writeData_spares : Spares id (writeData id) := by
  have hend (c : Chain) : Spares id (do
      modifySymbol id fun sym => { sym with flags := sym.flags ||| .written }
      onData (ChainWork.release c)) :=
    .bind (modifySymbol_spares _) fun _ => onData_spares _
  refine .bind (symbol_spares id) fun s => .bind (modifySymbol_spares _) fun _ =>
    .bind (onData_spares _) fun size => ?_
  cases size with
  | some size => exact .bind (modifyFile_spares _) fun _ => hend _
  | none => exact .bind (placeSymbol_spares _) fun _ => hend _

theorem dataAddress_gives (b : DataBuilder) (c : Chain) (offset : UInt64) (a : Assembly) :
    (dataAddress b c offset).Gives (fun _ => True) a fun r a' => ∃ size,
      r.1 = (a.symbols.internal "__dtoff" size).1 ∧
        ∀ i, i ≠ r.1 → a'.symbols.get? i = (a.symbols.internal "__dtoff" size).2.get? i := by
  refine .bind (onData_symbols _ a) fun size a₁ h₁ => .after (run_modifyGet _ a₁) ?_
  refine .bind (modifySymbol_spares _ _) fun _ a₂ h₂ => .bind (writeData_spares a₂) fun _ a₃ h₃ =>
    .bind (onData_symbols _ a₃) fun _ a₄ h₄ => .pure ⟨size, by rw [h₁], fun i hi => ?_⟩
  rw [h₄, h₃ i hi, h₂ i hi, h₁]

/-- **Numbered names.** Whatever names and numbered bases are declared, a name is looked up to the
symbol that has it, and symbols stay as they are. A numbered base gets a new symbol exactly if its
name is free. So does unnamed data, which changes no other symbol. -/
theorem numbered_names_fresh {t u : ObjectSymbolTable} (ht : Made .empty t) (hu : Made t u) :
    (∀ name id, t.lookup name = some id ↔ ∃ s, t.get? id = some s ∧ s.name = name) ∧
    (∀ id s, t.get? id = some s → u.get? id = some s) ∧
    (∀ base size, t.get? (t.internal base size).1 = none ↔
      ∀ i s, t.get? i = some s → s.name ≠ base ++ toString t.size) ∧
    ∀ (a a' : Assembly) (b b' : DataBuilder) (c : Chain) (offset : UInt64) (id : ObjectSymbolId),
      a.symbols = t → (dataAddress b c offset).run a = (.ok (id, b'), a') →
      (t.get? id = none ↔ ∀ i s, t.get? i = some s → s.name ≠ "__dtoff" ++ toString t.size) ∧
        ∀ i s, i ≠ id → t.get? i = some s → a'.symbols.get? i = some s := by
  refine ⟨fun _ _ => (ht.unique unique_empty).lookup_iff, fun _ _ => hu.keeps,
    fun _ _ => internal_fresh_iff, ?_⟩
  rintro a a' b b' c offset id rfl hrun
  obtain ⟨size, rfl, hothers⟩ := (dataAddress_gives b c offset a).of_ok hrun
  exact ⟨internal_fresh_iff, fun i s hi hs => (hothers i hi).trans (get?_declare .static size hs)⟩

theorem numbered_names_fresh_plain : ∃ s,
    (ObjectSymbolTable.empty.declare "plain" .global 4).2.get? ⟨0⟩ = some s ∧ s.name = "plain" :=
  ((numbered_names_fresh (.declare "plain" .global 4 .refl) .refl).1 "plain" ⟨0⟩).mp
    (by decide +kernel)

/-- A symbol that has the number of symbols in its name is taken for a numbered one. -/
theorem internal_collides :
    (ObjectSymbolTable.empty.declare "__dt1" .global 4).2.get?
      ((ObjectSymbolTable.empty.declare "__dt1" .global 4).2.internal "__dt" 4).1 ≠ none := by
  decide +kernel

end Assemble

end DCompiler
