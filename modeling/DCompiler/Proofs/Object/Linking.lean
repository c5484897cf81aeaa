import DCompiler.Proofs.Object.Fill

/-!
# Linking calls

Code is written behind the data of a program (`CodeAdded`): the segments of the data stay as they
are, each function gets a definition in the code, and each new relocation is for a name that the
file knows.

While code is written, each call field has a fate that follows from the place of its symbol
(`Links`): it waits for a symbol that is not placed, it holds the distance to a symbol in the code,
and it has a relocation for a symbol in the data. Symbols that were just placed, or just called, are
*current*: their fields may still wait.

The steps that write code keep the code phase (`CodePhase`). What it says about calls is said under
a condition `calm`, since it fails for a function that has the name of a symbol with data; that
there are no faults does not depend on it, but on the code being short (`Near`).
-/

namespace DCompiler

open Work Piece List FixupTable Cells ObjectSymbolTable Option

/-- A file defines a name, or leaves it to other files. -/
def ObjectFile.Knows (f : ObjectFile) (name : String) : Prop :=
  name ∈ f.defined.map (·.name) ∨ name ∈ f.commons.map (·.name) ∨ name ∈ f.externals

instance (f : ObjectFile) (name : String) : Decidable (f.Knows name) :=
  inferInstanceAs (Decidable (_ ∨ _ ∨ _))

namespace Piece

def names (ps : List Piece) : List String :=
  ps.filterMap fun
    | .byte _ => none
    | .field name => some name

theorem map_snd_fields (start : Nat) (ps : List Piece) :
    (fields start ps).map Prod.snd = names ps := by
  induction ps generalizing start with
  | nil => rfl
  | cons p ps ih => cases p <;> simp [fields, names, ih]

end Piece

namespace Assemble

variable {a : Assembly} {f0 f : ObjectFile} {names called : List String} {id : ObjectSymbolId}
  {s : ObjectSymbol} {t u : ObjectSymbolTable}

/-! ## What is written -/

/-- The file `f` is the file `f0` and code, in which some names are defined. -/
structure CodeAdded (f0 : ObjectFile) (names : List String) (f : ObjectFile) : Prop where
  data : ∀ g, g ≠ .code → f.segment g = f0.segment g
  defined : ∃ defs, f.defined = f0.defined ++ defs ∧ (∀ d ∈ defs, d.segment = .code) ∧
    defs.map (·.name) = names
  relocations : ∃ rs, f.relocations = f0.relocations ++ rs ∧
    ∀ r ∈ rs, ∃ name, r.target = .symbol name ∧ f.Knows name
  commons : f.commons = f0.commons

theorem CodeAdded.kept (hf : CodeAdded f0 names f) : f0.defined ⊆ f.defined := by
  obtain ⟨defs, hdefined, -⟩ := hf.defined
  rw [hdefined]
  exact subset_append_left _ _

theorem CodeAdded.add (hf : CodeAdded f0 names f) (f' : ObjectFile) (defs : List Definition)
    (rs : List Relocation) (hdata : ∀ g, g ≠ .code → f'.segment g = f.segment g)
    (hdefined : f'.defined = f.defined ++ defs) (hcode : ∀ d ∈ defs, d.segment = .code)
    (hrelocations : f'.relocations = f.relocations ++ rs)
    (htargets : ∀ r ∈ rs, ∃ name, r.target = .symbol name ∧ f'.Knows name)
    (hknows : ∀ name, f.Knows name → f'.Knows name) (hcommons : f'.commons = f.commons) :
    CodeAdded f0 (names ++ defs.map (·.name)) f' := by
  obtain ⟨defs0, hdefined0, hcode0, rfl⟩ := hf.defined
  obtain ⟨rs0, hrelocations0, htargets0⟩ := hf.relocations
  refine ⟨fun g hg => (hdata g hg).trans (hf.data g hg), ⟨defs0 ++ defs, ?_, ?_, map_append⟩,
    ⟨rs0 ++ rs, ?_, ?_⟩, hcommons.trans hf.commons⟩
  · rw [hdefined, hdefined0, append_assoc]
  · exact fun d hd => (mem_append.mp hd).elim (hcode0 d) (hcode d)
  · rw [hrelocations, hrelocations0, append_assoc]
  intro r hr
  rcases mem_append.mp hr with hr | hr
  · exact (htargets0 r hr).imp fun name => And.imp_right (hknows name)
  · exact htargets r hr

theorem CodeAdded.refer (hf : CodeAdded f0 names f) (f' : ObjectFile) (rs : List Relocation)
    (hdata : ∀ g, g ≠ .code → f'.segment g = f.segment g) (hdefined : f'.defined = f.defined)
    (hrelocations : f'.relocations = f.relocations ++ rs)
    (htargets : ∀ r ∈ rs, ∃ name, r.target = .symbol name ∧ f'.Knows name)
    (hknows : ∀ name, f.Knows name → f'.Knows name) (hcommons : f'.commons = f.commons) :
    CodeAdded f0 names f' := by
  have hadd := hf.add f' [] rs hdata (by simp [hdefined])
    nofun hrelocations htargets hknows hcommons
  simpa using hadd

theorem segment_write_code (f : ObjectFile) (offset : UInt64) (bytes : List UInt8) (g : Segment)
    (hg : g ≠ .code) : (f.write .code offset bytes).segment g = f.segment g := by
  rw [ObjectFile.segment_write, if_neg hg]

theorem CodeAdded.write (hf : CodeAdded f0 names f) (offset : UInt64) (bytes : List UInt8) :
    CodeAdded f0 names (f.write .code offset bytes) :=
  hf.refer _ [] (segment_write_code f offset bytes) rfl (append_nil _).symm nofun
    (fun _ h => h) rfl

theorem knows_put (s : ObjectSymbol) (f : ObjectFile) (x : Fixup) (name : String) :
    (x.put s f).Knows name ↔ f.Knows name := by
  unfold Fixup.put
  split <;> exact Iff.rfl

theorem CodeAdded.put (hf : CodeAdded f0 names f) {x : Fixup} (hx : x.segment = .code)
    (hs : f.Knows s.name) : CodeAdded f0 names (x.put s f) := by
  unfold Fixup.put
  rw [hx]
  split
  · exact hf.write _ _
  · refine hf.refer _ _ (segment_write_code f _ _) rfl rfl (fun r hr => ?_) (fun _ h => h) rfl
    exact ⟨s.name, by rw [mem_singleton.mp hr], hs⟩

theorem CodeAdded.fill {t : FixupTable} (hf : CodeAdded f0 names f)
    (ht : ∀ x ∈ t.waiting id, x.segment = .code) (hs : f.Knows s.name) :
    CodeAdded f0 names (filledFile t id s f) ∧
      ∀ name, (filledFile t id s f).Knows name ↔ f.Knows name := by
  unfold filledFile
  have hxs : ∀ x ∈ (t.waiting id).reverse, x.segment = .code := fun x hx => ht x (mem_reverse.mp hx)
  generalize (t.waiting id).reverse = xs at hxs
  induction xs generalizing f with
  | nil => exact ⟨hf, fun _ => Iff.rfl⟩
  | cons x xs ih =>
    have hknows := knows_put s f x
    obtain ⟨hadded, hsame⟩ := ih (hf.put (hxs x mem_cons_self) hs) ((hknows s.name).mpr hs)
      fun y hy => hxs y (mem_cons_of_mem _ hy)
    exact ⟨hadded, fun name => (hsame name).trans (hknows name)⟩

theorem defined_fill (t : FixupTable) (id : ObjectSymbolId) (s : ObjectSymbol) (f : ObjectFile) :
    (filledFile t id s f).defined = f.defined ∧
      (filledFile t id s f).externals = f.externals := by
  unfold filledFile
  induction (t.waiting id).reverse generalizing f with
  | nil => exact ⟨rfl, rfl⟩
  | cons x xs ih =>
    have hput : (Fixup.put s f x).defined = f.defined ∧
        (Fixup.put s f x).externals = f.externals := by
      unfold Fixup.put
      split <;> exact ⟨rfl, rfl⟩
    exact ⟨(ih _).1.trans hput.1, (ih _).2.trans hput.2⟩

/-! ## Steps of an assembly -/

/-- A table that keeps the names of another one. -/
def Extends (t u : ObjectSymbolTable) : Prop :=
  ∀ i s, t.get? i = some s → ∃ r, u.get? i = some r ∧ r.name = s.name

theorem Extends.refl (t : ObjectSymbolTable) : Extends t t := fun _ s hs => ⟨s, hs, rfl⟩

theorem Extends.trans {v : ObjectSymbolTable} (htu : Extends t u) (huv : Extends u v) :
    Extends t v := fun i s hs => by
  obtain ⟨r, hr, hname⟩ := htu i s hs
  obtain ⟨q, hq, hname'⟩ := huv i r hr
  exact ⟨q, hq, hname'.trans hname⟩

theorem extends_of_declares {name : String} {cls : SymbolClass} (hd : t.Declares name cls id u) :
    Extends t u := fun i s hs => by
  obtain ⟨r, hr, c, rfl⟩ := hd.kept i s hs
  exact ⟨_, hr, rfl⟩

def asFunction (start : UInt64) (s : ObjectSymbol) : ObjectSymbol :=
  { s with segment := some .code, offset := start, cls := .global }

def placedFunction (a : Assembly) (id : ObjectSymbolId) (name : String) (start : UInt64) :
    Assembly :=
  { a with
    symbols := a.symbols.modify id (asFunction start)
    file := { a.file with defined := a.file.defined ++ [⟨name, .code, start, true⟩] } }

theorem extends_placedFunction (a : Assembly) (id : ObjectSymbolId) (name : String)
    (start : UInt64) : Extends a.symbols (placedFunction a id name start).symbols :=
  fun _ _ hr => modify_of_name id (f := asFunction start) (fun _ => rfl) hr

/-- The assembly with a field of a call behind the code. -/
def withCall (a : Assembly) (id : ObjectSymbolId) (behind : UInt64) : Assembly :=
  let width := a.file.fieldWidth .selfRelative
  { a with
    fixups := a.fixups.add id ⟨.code, .selfRelative, behind, 0, width⟩
    file := a.file.write .code behind (replicate width 0) }

theorem addFixup_run (a : Assembly) (id : ObjectSymbolId) (behind : UInt64) :
    (addFixup id .code behind 0 .selfRelative).run a =
      (.ok (a.file.fieldWidth .selfRelative), withCall a id behind) := rfl

/-- The state of an assembly while code is written behind the data of a file. The names of the calls
so far are known, or there are fields that wait for them. -/
structure Behind (f0 : ObjectFile) (names called : List String) (a : Assembly) : Prop where
  added : CodeAdded f0 names a.file
  fields : ∀ i, ∀ x ∈ a.fixups.waiting i, x.segment = .code
  calls : ∀ name ∈ called, a.file.Knows name ∨
    ∃ i s, a.symbols.get? i = some s ∧ s.name = name ∧ a.fixups.waiting i ≠ []
  queued : ∀ i, a.fixups.waiting i ≠ [] → ∃ s, a.symbols.get? i = some s ∧ s.name ∈ called
  externals : a.file.externals ⊆ called

namespace Behind

variable (ha : Behind f0 names called a)
include ha

/-- The symbols keep their names, and the file goes on to know what it knew. -/
theorem later {names' : List String} (ht : Extends a.symbols t) (hf : CodeAdded f0 names' f)
    (hknows : ∀ name, a.file.Knows name → f.Knows name)
    (hexternals : f.externals = a.file.externals) :
    Behind f0 names' called { a with symbols := t, file := f } where
  added := hf
  fields := ha.fields
  calls name hname := by
    refine (ha.calls name hname).imp (hknows name) ?_
    rintro ⟨i, s, hs, rfl, hwaiting⟩
    obtain ⟨r, hr, hrname⟩ := ht i s hs
    exact ⟨i, r, hr, hrname, hwaiting⟩
  queued i hi := by
    obtain ⟨s, hs, hname⟩ := ha.queued i hi
    obtain ⟨r, hr, hrname⟩ := ht i s hs
    exact ⟨r, hr, hrname ▸ hname⟩
  externals := hexternals ▸ ha.externals

theorem write (offset : UInt64) (bytes : List UInt8) :
    Behind f0 names called { a with file := a.file.write .code offset bytes } :=
  ha.later (.refl _) (ha.added.write offset bytes) (fun _ h => h) rfl

theorem line (offset : UInt64) (place : SourcePlace) :
    Behind f0 names called { a with file := a.file.addLine .code offset place } :=
  ha.later (.refl _) { ha.added with } (fun _ h => h) rfl

theorem declares {name : String} {cls : SymbolClass} (hd : a.symbols.Declares name cls id t) :
    Behind f0 names called { a with symbols := t } :=
  ha.later (extends_of_declares hd) ha.added (fun _ h => h) rfl

theorem call (hs : a.symbols.get? id = some s) (offset : UInt64) :
    Behind f0 names (called ++ [s.name]) (withCall a id offset) where
  added := ha.added.write _ _
  fields i x hx := by
    rw [withCall, waiting_add] at hx
    split at hx
    · rcases mem_append.mp hx with hx | hx
      · exact ha.fields id x hx
      · rw [mem_singleton.mp hx]
    · exact ha.fields i x hx
  calls name hname := by
    have hwaits : ∀ i, a.fixups.waiting i ≠ [] ∨ i = id →
        (withCall a id offset).fixups.waiting i ≠ [] := by
      intro i hi
      rw [withCall, waiting_add]
      split
      · simp
      · next hne => exact hi.resolve_right hne
    rcases mem_append.mp hname with hname | hname
    · exact (ha.calls name hname).imp_right fun ⟨i, r, hr, hrname, hwaiting⟩ =>
        ⟨i, r, hr, hrname, hwaits i (.inl hwaiting)⟩
    · exact .inr ⟨id, s, hs, (mem_singleton.mp hname).symm, hwaits id (.inr rfl)⟩
  queued i hi := by
    by_cases hid : i = id
    · exact ⟨s, hid ▸ hs, mem_append_right _ mem_cons_self⟩
    rw [withCall, waiting_add, if_neg hid] at hi
    exact (ha.queued i hi).imp fun _ => And.imp_right (mem_append_left _)
  externals := fun _ h => mem_append_left _ (ha.externals h)

theorem filled (hs : a.symbols.get? id = some s) (hknown : a.file.Knows s.name) :
    Behind f0 names called (filled a id s) := by
  obtain ⟨hadded, hsame⟩ := ha.added.fill (ha.fields id) hknown
  refine ⟨hadded, fun i x hx => ?_, fun name hname => ?_, fun i hi => ?_, ?_⟩
  · rw [Assemble.filled, waiting_erase] at hx
    split at hx
    · cases hx
    · exact ha.fields i x hx
  · rcases ha.calls name hname with h | ⟨i, r, hr, rfl, hwaiting⟩
    · exact .inl ((hsame name).mpr h)
    by_cases hi : i = id
    · subst hi
      obtain rfl := Option.some.inj (hs.symm.trans hr)
      exact .inl ((hsame _).mpr hknown)
    · refine .inr ⟨i, r, hr, rfl, ?_⟩
      rwa [Assemble.filled, waiting_erase, if_neg hi]
  · rw [Assemble.filled, waiting_erase] at hi
    split at hi
    · exact absurd rfl hi
    · exact ha.queued i hi
  · rw [Assemble.filled, (defined_fill ..).2]
    exact ha.externals

theorem place (name : String) (start : UInt64) :
    Behind f0 (names ++ [name]) called (placedFunction a id name start) := by
  have hknows (other : String) (h : a.file.Knows other) :
      (placedFunction a id name start).file.Knows other := h.imp_left fun hname => by
    rw [placedFunction, map_append]
    exact mem_append_left _ hname
  exact ha.later (extends_placedFunction a id name start)
    (ha.added.add _ [⟨name, .code, start, true⟩] [] (fun _ _ => rfl) rfl (by simp) (by simp)
      (by simp) hknows rfl) hknows rfl

end Behind

end Assemble

/-! ## Fates of calls -/

/-- What becomes of the fields that refer to a symbol. -/
def ObjectSymbol.fate (s : ObjectSymbol) : Fate := if s.isDefined then .ofSymbol s else .waiting

/-- The offsets of the fields of a name that wait. -/
def waitingFor (ps : List Piece) (fate : Nat → Fate) (name : String) : List Nat :=
  ((fields 0 ps).filter fun x => x.2 = name ∧ fate x.1 = .waiting).map Prod.fst

namespace ObjectFile

variable {ps : List Piece} {fate : Nat → Fate} {f : ObjectFile} {o : Nat} {s : ObjectSymbol}

/-! ## Filling in fields -/

/-- A symbol that is placed in the code is one that can be reached by its distance. -/
def Reachable (s : ObjectSymbol) : Prop :=
  s.segment = some .code → s.cls = .global ∧ s.externIndex = 0

theorem isLocal_ofCall (hs : Reachable s) (o : Nat) :
    (Fixup.ofCall o).isLocal s = decide (s.segment = some .code) := by
  unfold Fixup.isLocal Fixup.ofCall
  by_cases hcode : s.segment = some .code
  · obtain ⟨hcls, hnumber⟩ := hs hcode
    simp only [hcode, hcls, hnumber]
    decide
  · simp [hcode]

theorem word_ofCall (hs : Reachable s) (o : Nat) :
    Text.littleEndian 4 ((Fixup.ofCall o).word s) = (Fate.ofSymbol s).bytes o := by
  rw [Fixup.word, isLocal_ofCall hs, Fate.ofSymbol]
  by_cases hcode : s.segment = some .code
  · simp [hcode, Fixup.way, Fixup.ofCall]
    rfl
  · simp [hcode, Fixup.ofCall, Fate.bytes]
    rfl

theorem relocations_ofCall (hs : Reachable s) (o : Nat) :
    (Fixup.ofCall o).relocations s = (Fate.ofSymbol s).relocations o s.name := by
  rw [Fixup.relocations, isLocal_ofCall hs, Fate.ofSymbol]
  by_cases hcode : s.segment = some .code <;>
    simp [hcode, Fate.relocations, Fixup.relocation, Fixup.ofCall]
  rfl

theorem Shows.put (hf : Shows ps fate f) (hmem : (o, s.name) ∈ fields 0 ps)
    (hwaiting : fate o = .waiting) (hs : Reachable s) :
    Shows ps (fun k => if k = o then .ofSymbol s else fate k)
      (Fixup.put s f (.ofCall o)) := by
  have hrange := field_in_range hmem
  have hfits := hf.fits
  have ho : o < 2 ^ 64 := by omega
  rw [Fixup.put_eq hf.fieldWidth_eq.symm, relocations_ofCall hs]
  refine ⟨hf.fits, hf.fieldWidth_eq, ?_, fun k other hk => ?_, fun r hr hin => ?_⟩
  · show (f.write .code o.toUInt64 (Text.littleEndian 4 _)).segment .code = _
    rw [segment_write, if_pos rfl, hf.code, toNat_offset ho, word_ofCall hs,
      writeAt_image (fun o => (fate o).length_bytes o) hmem (Fate.length_bytes ..)]
    exact image_congr fun k other _ => by grind
  · have hold := hf.relocations k other hk
    rw [relocationsAt] at hold ⊢
    rw [filter_append, hold]
    by_cases hko : k = o
    · subst hko
      rw [if_pos rfl, hwaiting, name_unique hk hmem]
      cases Fate.ofSymbol s <;> simp [Fate.relocations]
    have hkrange := field_in_range hk
    have hne : o.toUInt64 ≠ k.toUInt64 := fun h => hko (by
      rw [← toNat_offset (o := k) (by omega), ← h, toNat_offset ho])
    rw [if_neg hko]
    cases Fate.ofSymbol s <;> simp [Fate.relocations, hne]
  · rcases mem_append.mp hr with hr | hr
    · exact hf.inside r hr hin
    have hoffset : r.offset = o.toUInt64 := by
      revert hr
      cases Fate.ofSymbol s <;> simp +contextual [Fate.relocations]
    rw [hoffset, toNat_offset ho]
    omega

theorem Shows.fill {os : List Nat} (hf : Shows ps fate f) (hs : Reachable s) (hos : os.Nodup)
    (hmem : ∀ o ∈ os, (o, s.name) ∈ fields 0 ps) (hwaiting : ∀ o ∈ os, fate o = .waiting) :
    Shows ps (fun o => if o ∈ os then .ofSymbol s else fate o)
      ((os.map Fixup.ofCall).foldl (Fixup.put s) f) := by
  induction os generalizing fate f with
  | nil => simpa using hf
  | cons o os ih =>
    obtain ⟨ho, hos⟩ := nodup_cons.mp hos
    have hfirst := hf.put (hmem o mem_cons_self) (hwaiting o mem_cons_self) hs
    have hrest := ih hfirst hos (fun k hk => hmem k (mem_cons_of_mem _ hk)) fun k hk => by
      rw [if_neg (ne_of_mem_of_not_mem hk ho)]
      exact hwaiting k (mem_cons_of_mem _ hk)
    have hfates : (fun k => if k ∈ os then Fate.ofSymbol s
        else if k = o then .ofSymbol s else fate k) =
        fun k => if k ∈ o :: os then .ofSymbol s else fate k := by grind
    rwa [hfates] at hrest

end ObjectFile

namespace Assemble

variable {calm : Prop} {ps : List Piece} {fate : Nat → Fate}
  {current current' : ObjectSymbolId → Prop} {f0 : ObjectFile} {defs : List Definition}
  {a : Assembly} {id : ObjectSymbolId} {s : ObjectSymbol} {name : String} {cls : SymbolClass}
  {t : ObjectSymbolTable} {o : Nat} {start : UInt64}

theorem mem_waitingFor :
    o ∈ waitingFor ps fate name ↔ (o, name) ∈ fields 0 ps ∧ fate o = .waiting := by
  simp [waitingFor]

/-- The call fields of a file in the making have fates, and those that wait are in the queues. -/
structure Fields (ps : List Piece) (fate : Nat → Fate) (a : Assembly) : Prop where
  shows : a.file.Shows ps fate
  waiting : ∀ i s, a.symbols.get? i = some s →
    a.fixups.waiting i = (waitingFor ps fate s.name).map .ofCall
  known : ∀ o name, (o, name) ∈ fields 0 ps → ∃ i s, a.symbols.get? i = some s ∧ s.name = name

/-- The fates are those that the places of symbols give. -/
structure Links (ps : List Piece) (fate : Nat → Fate) (current : ObjectSymbolId → Prop)
    (defs : List Definition) (a : Assembly) : Prop extends Fields ps fate a where
  settled : ∀ o i s, (o, s.name) ∈ fields 0 ps → a.symbols.get? i = some s →
    fate o = s.fate ∨ current i ∧ fate o = .waiting
  global : ∀ i s, a.symbols.get? i = some s → s.segment = some .code → s.cls = .global
  functions : ∀ d ∈ defs, d.segment = .code → ∃ i s, a.symbols.get? i = some s ∧
    s.name = d.name ∧ s.segment = some .code ∧ s.offset = d.offset
  defined : a.file.defined = defs
  externals : a.file.externals = []

/-- The code is short, so each distance in it is a signed word. -/
structure Near (ps : List Piece) (a : Assembly) : Prop where
  short : width ps < 2 ^ 63
  fieldWidth_eq : a.file.fieldWidth .selfRelative = 4
  length : (a.file.segment .code).length = width ps
  fields : ∀ i, ∀ x ∈ a.fixups.waiting i, x.Fits a.file ∧ x.addend = 0
  placed : ∀ i s, a.symbols.get? i = some s → s.segment = some .code → s.offset.toNat ≤ width ps

/-- The state of an assembly while code is written. -/
structure CodePhase (calm : Prop) (f0 : ObjectFile) (ps : List Piece)
    (current : ObjectSymbolId → Prop) (defs : List Definition) (a : Assembly) : Prop extends
    Behind f0 (defs.map (·.name)) (names ps) a where
  near : Near ps a
  codePool : a.code.WF
  wellFormed : a.fixups.WF
  static : ∀ i s, a.fixups.waiting i ≠ [] → a.symbols.get? i = some s → s.cls = .static → current i
  symbols : a.symbols.Sound a.file.defined nothing
  links : calm → ∃ fate, Links ps fate current (f0.defined ++ defs) a

def pools (a : Assembly) : CodePool × DataPool := (a.code, a.data)

theorem CodePhase.withPool {q : CodePool} (ha : CodePhase calm f0 ps current defs a)
    (hq : q.WF) : CodePhase calm f0 ps current defs { a with code := q } :=
  { ha with
    codePool := hq
    near := { ha.near with }
    links := fun hcalm => (ha.links hcalm).imp fun _ hlinks => { hlinks with } }

/-! ## Declared names -/

theorem Links.declares (ha : Links ps fate current defs a)
    (hqueued : ∀ i, a.fixups.waiting i ≠ [] → ∃ s, a.symbols.get? i = some s)
    (hd : a.symbols.Declares name cls id t) :
    Links ps fate current defs { a with symbols := t } where
  shows := ha.shows
  waiting i r hr := by
    rcases hd.made i r hr with ⟨s, hs, c, rfl⟩ | ⟨rfl, hfresh, hnew⟩
    · exact ha.waiting i s hs
    -- Nothing waits for a new symbol, and no field has its name.
    have hnone : a.fixups.waiting i = [] := by
      by_contra hne
      obtain ⟨s, hs⟩ := hqueued i hne
      obtain ⟨r', hr', c, rfl⟩ := hd.kept i s hs
      obtain rfl := some.inj (hr.symm.trans hr')
      exact hnew i s hs hfresh.name_eq
    have hfields : waitingFor ps fate r.name = [] :=
      eq_nil_iff_forall_not_mem.mpr fun o ho => by
        obtain ⟨j, s, hs, hname⟩ := ha.known o _ (mem_waitingFor.mp ho).1
        exact hnew j s hs (hname.trans hfresh.name_eq)
    rw [hfields]
    exact hnone
  known o other hmem := by
    obtain ⟨i, s, hs, rfl⟩ := ha.known o other hmem
    obtain ⟨r, hr, c, rfl⟩ := hd.kept i s hs
    exact ⟨i, _, hr, rfl⟩
  settled o i r hmem hr := by
    rcases hd.made i r hr with ⟨s, hs, c, rfl⟩ | ⟨rfl, hfresh, hnew⟩
    · exact ha.settled o i s hmem hs
    · obtain ⟨j, s, hs, hname⟩ := ha.known o _ hmem
      exact absurd (hname.trans hfresh.name_eq) (hnew j s hs)
  global i r hr hcode := by
    rcases hd.made i r hr with ⟨s, hs, c, rfl⟩ | ⟨rfl, hfresh, -⟩
    · exact ha.global i s hs hcode
    · simp [hfresh.segment_eq] at hcode
  functions d hdef hcode := by
    obtain ⟨i, s, hs, hrest⟩ := ha.functions d hdef hcode
    obtain ⟨r, hr, c, rfl⟩ := hd.kept i s hs
    exact ⟨i, _, hr, hrest⟩
  defined := ha.defined
  externals := ha.externals

theorem Near.declares (ha : Near ps a) (hd : a.symbols.Declares name cls id t) :
    Near ps { a with symbols := t } :=
  { ha with
    placed := fun i r hr hcode => by
      rcases hd.made i r hr with ⟨s, hs, c, rfl⟩ | ⟨-, hfresh, -⟩
      · exact ha.placed i s hs hcode
      · simp [hfresh.segment_eq] at hcode }

theorem CodePhase.declares (ha : CodePhase calm f0 ps current defs a)
    (hd : a.symbols.Declares name cls id t) (hcls : cls ≠ .static) :
    CodePhase calm f0 ps current defs { a with symbols := t } :=
  { ha.toBehind.declares hd, ha with
    near := ha.near.declares hd
    static := fun i r hi hr hstatic => by
      rcases hd.made i r hr with ⟨s, hs, c, rfl⟩ | ⟨-, hfresh, -⟩
      · exact ha.static i s hi hs hstatic
      · exact absurd (hfresh.cls_eq.symm.trans hstatic) hcls
    symbols := hd.sound ha.symbols (fun h => (hcls h).elim) fun _ hi => hi
    links := fun hcalm => (ha.links hcalm).imp fun _ hlinks =>
      hlinks.declares (fun i hi => (ha.queued i hi).imp fun _ h => h.1) hd }

/-! ## Placed functions -/

theorem placedFunction_cases {i : ObjectSymbolId} {r : ObjectSymbol}
    (hs : a.symbols.get? id = some s)
    (hr : (placedFunction a id name start).symbols.get? i = some r) :
    i = id ∧ r = asFunction start s ∨ i ≠ id ∧ a.symbols.get? i = some r :=
  get?_modify_cases hs hr

theorem Links.place (ha : Links ps fate nothing defs a) (hs : a.symbols.get? id = some s)
    (hunplaced : s.segment = none) : Links ps fate (· = id) (defs ++ [⟨s.name, .code, start, true⟩])
      (placedFunction a id s.name start) where
  shows := { ha.shows with code := ha.shows.code }
  waiting i r hr := by
    rcases placedFunction_cases hs hr with ⟨rfl, rfl⟩ | ⟨-, hr⟩
    · exact ha.waiting i s hs
    · exact ha.waiting i r hr
  known o name hmem := by
    obtain ⟨i, r, hr, rfl⟩ := ha.known o name hmem
    exact ⟨i, extends_placedFunction a id _ start i r hr⟩
  settled o i r hmem hr := by
    rcases placedFunction_cases hs hr with ⟨rfl, rfl⟩ | ⟨-, hr⟩
    · refine .inr ⟨rfl, ?_⟩
      have hfate : s.fate = .waiting := by
        simp [ObjectSymbol.fate, ObjectSymbol.isDefined, hunplaced]
      exact hfate ▸ (ha.settled o i s hmem hs).resolve_right fun h => h.1
    · exact .inl ((ha.settled o i r hmem hr).resolve_right fun h => h.1)
  global i r hr hcode := by
    rcases placedFunction_cases hs hr with ⟨rfl, rfl⟩ | ⟨-, hr⟩
    · rfl
    · exact ha.global i r hr hcode
  functions d hdef hcode := by
    rcases mem_append.mp hdef with hdef | hdef
    · obtain ⟨i, r, hr, hname, hsegment, hoffset⟩ := ha.functions d hdef hcode
      have hi : i ≠ id := fun hi => by
        rw [hi, hs] at hr
        rw [← some.inj hr, hunplaced] at hsegment
        exact nomatch hsegment
      refine ⟨i, r, ?_, hname, hsegment, hoffset⟩
      rw [placedFunction, get?_modify, if_neg hi, hr]
    · rw [mem_singleton.mp hdef]
      refine ⟨id, asFunction start s, ?_, rfl, rfl, rfl⟩
      rw [placedFunction, get?_modify, if_pos rfl, hs]
      rfl
  defined := by rw [← ha.defined]; rfl
  externals := ha.externals

theorem Near.place (ha : Near ps a) (hs : a.symbols.get? id = some s)
    (hstart : start = (width ps).toUInt64) : Near ps (placedFunction a id name start) :=
  { ha with
    length := ha.length
    fields := fun i x hx => ⟨⟨(ha.fields i x hx).1.inside, (ha.fields i x hx).1.width_eq⟩,
      (ha.fields i x hx).2⟩
    placed := fun i r hr hcode => by
      have hshort := ha.short
      rcases placedFunction_cases hs hr with ⟨rfl, rfl⟩ | ⟨-, hr⟩
      · exact Nat.le_of_eq (by rw [asFunction, hstart, ObjectFile.toNat_offset (by omega)])
      · exact ha.placed i r hr hcode }

theorem CodePhase.place (ha : CodePhase calm f0 ps nothing defs a)
    (hs : a.symbols.get? id = some s) (hunplaced : calm → s.segment = none)
    (hstart : start = (width ps).toUInt64) :
    CodePhase calm f0 ps (· = id) (defs ++ [⟨s.name, .code, (width ps).toUInt64, true⟩])
      (placedFunction a id s.name start) where
  toBehind := by
    rw [map_append]
    exact ha.toBehind.place s.name start
  near := ha.near.place hs hstart
  codePool := ha.codePool
  wellFormed := ha.wellFormed
  static i r hi hr hstatic := by
    rcases placedFunction_cases hs hr with ⟨rfl, -⟩ | ⟨-, hr⟩
    · rfl
    · exact (ha.static i r hi hr hstatic).elim
  symbols := by
    have hsound := ha.symbols.sound id s hs
    refine ha.symbols.modify hs (fun _ => rfl)
      ⟨hsound.externIndex, hsound.flags, fun _ => .inl rfl, hsound.data, fun g hg => ?_⟩
        (fun _ => rfl)
      (fun d hd => mem_append_left _ hd) (fun d hd => ?_) fun _ _ hi => hi
    · obtain rfl := some.inj hg
      exact ⟨_, mem_append_right _ mem_cons_self, rfl, rfl, rfl⟩
    refine (mem_append.mp hd).imp_right fun hd => ?_
    rw [mem_singleton.mp hd]
    exact ⟨rfl, rfl⟩
  links hcalm := by
    rw [hstart, ← append_assoc]
    exact (ha.links hcalm).imp fun _ hlinks => hlinks.place hs (hunplaced hcalm)

/-! ## Bytes without fields -/

theorem Near.write {qs : List Piece} {f : ObjectFile} (ha : Near ps a) (hshort : width qs < 2 ^ 63)
    (hf : a.file.Grows f) (hlength : (f.segment .code).length = width qs) :
    Near qs { a with file := f } where
  short := hshort
  fieldWidth_eq := (fieldWidth_congr hf.pointerSize _).trans ha.fieldWidth_eq
  length := hlength
  fields i x hx := ⟨hf.fits (ha.fields i x hx).1, (ha.fields i x hx).2⟩
  placed i s hs hcode := by
    have hgrows := hf.length .code
    rw [ha.length, hlength] at hgrows
    exact Nat.le_trans (ha.placed i s hs hcode) hgrows

theorem Near.write_behind {qs : List Piece} (ha : Near ps a) (bs : List UInt8)
    (hqs : width qs = width ps + bs.length) (hshort : width qs < 2 ^ 63) :
    Near qs { a with file := a.file.write .code (width ps).toUInt64 bs } := by
  refine ha.write hshort (a.file.grows_write ..) ?_
  rw [ObjectFile.segment_write, if_pos rfl, ObjectFile.toNat_offset (by omega), ← ha.length,
    writeAt_behind, length_append, ha.length, hqs]

theorem CodePhase.write {qs : List Piece} {f : ObjectFile}
    (ha : CodePhase calm f0 ps current defs a)
    (hbehind : Behind f0 (defs.map (·.name)) (names ps) { a with file := f })
    (hfields : fields 0 qs = fields 0 ps) (hdefined : f.defined = a.file.defined)
    (hexternals : f.externals = a.file.externals)
    (hnear : Near qs { a with file := f })
    (hshows : calm → ∀ fate, a.file.Shows ps fate → f.Shows qs fate) :
    CodePhase calm f0 qs current defs { a with file := f } where
  toBehind := by
    rw [← map_snd_fields 0 qs, hfields, map_snd_fields]
    exact hbehind
  near := hnear
  codePool := ha.codePool
  wellFormed := ha.wellFormed
  static := ha.static
  symbols := hdefined ▸ ha.symbols
  links hcalm := by
    obtain ⟨fate, hlinks⟩ := ha.links hcalm
    have hwaiting : ∀ name, waitingFor qs fate name = waitingFor ps fate name := fun name => by
      rw [waitingFor, hfields, waitingFor]
    exact ⟨fate, ⟨hshows hcalm fate hlinks.shows, fun i s hs => hwaiting _ ▸ hlinks.waiting i s hs,
        fun o name hmem => hlinks.known o name (hfields ▸ hmem)⟩,
      fun o i s hmem => hlinks.settled o i s (hfields ▸ hmem), hlinks.global, hlinks.functions,
      hdefined.trans hlinks.defined, hexternals.trans hlinks.externals⟩

/-! ## New fields -/

theorem name_iff {i : ObjectSymbolId} {r : ObjectSymbol} (hunique : a.symbols.Unique)
    (hr : a.symbols.get? i = some r) (hs : a.symbols.get? id = some s) :
    r.name = s.name ↔ i = id := by
  refine ⟨hunique i id r s hr hs, ?_⟩
  rintro rfl
  rw [some.inj (hr.symm.trans hs)]

theorem waitingFor_append (name other : String) :
    waitingFor (ps ++ [.field name]) (fun o => if o = width ps then .waiting else fate o) other =
      waitingFor ps fate other ++ if other = name then [width ps] else [] := by
  have hold : (fields 0 ps).filter (fun x => x.2 = other ∧
      (if x.1 = width ps then Fate.waiting else fate x.1) = .waiting) =
      (fields 0 ps).filter fun x => x.2 = other ∧ fate x.1 = .waiting := by
    refine filter_congr fun x hx => ?_
    have := field_in_range hx
    rw [if_neg (by omega)]
  unfold waitingFor
  rw [fields_append, filter_append, hold, map_append]
  by_cases hname : other = name
  · simp [fields, hname]
  · simp [fields, hname, Ne.symm hname]

theorem Links.call (ha : Links ps fate current defs a) (hunique : a.symbols.Unique)
    (hs : a.symbols.get? id = some s) (hfits : width ps + 4 < 2 ^ 64) :
    Links (ps ++ [.field s.name]) (fun o => if o = width ps then .waiting else fate o)
      (fun i => current i ∨ i = id) defs (withCall a id (width ps).toUInt64) := by
  have hwidth := ha.shows.fieldWidth_eq
  have hmem : ∀ o name, (o, name) ∈ fields 0 (ps ++ [.field s.name]) →
      (o, name) ∈ fields 0 ps ∧ o ≠ width ps ∨ o = width ps ∧ name = s.name := fun o name hin => by
    rw [fields_append, mem_append] at hin
    rcases hin with hin | hin
    · have := field_in_range hin
      exact .inl ⟨hin, by omega⟩
    · exact .inr (by simpa [fields] using hin)
  refine ⟨⟨?_, fun i r hr => ?_, fun o name hin => ?_⟩, fun o i r hin hr => ?_, ha.global,
    ha.functions, ha.defined, ha.externals⟩
  · rw [withCall, hwidth]
    exact ha.shows.write_field s.name hfits
  · show (a.fixups.add id _).waiting i = _
    rw [waiting_add, waitingFor_append, hwidth, map_append, ← ha.waiting i r hr]
    simp only [name_iff hunique hr hs]
    split <;> simp_all [Fixup.ofCall]
  · rcases hmem o name hin with ⟨hin, -⟩ | ⟨-, rfl⟩
    · exact ha.known o name hin
    · exact ⟨id, s, hs, rfl⟩
  · rcases hmem o _ hin with ⟨hin, hne⟩ | ⟨rfl, hname⟩
    · have := ha.settled o i r hin hr
      grind
    · exact .inr ⟨.inr (hunique i id r s hr hs hname), if_pos rfl⟩

theorem Near.call (ha : Near ps a) (hshort : width ps + 4 < 2 ^ 63) (id : ObjectSymbolId)
    (name : String) : Near (ps ++ [.field name]) (withCall a id (width ps).toUInt64) := by
  have hwidth : width (ps ++ [.field name]) = width ps + 4 := width_append ..
  have hwritten := ha.write_behind (replicate 4 0) hwidth (hwidth ▸ hshort)
  rw [withCall, ha.fieldWidth_eq]
  refine { hwritten with fields := fun i x hx => ?_ }
  rw [waiting_add] at hx
  split at hx
  · rcases mem_append.mp hx with hx | hx
    · exact hwritten.fields id x hx
    · rw [mem_singleton.mp hx]
      refine ⟨⟨?_, ha.fieldWidth_eq.symm⟩, rfl⟩
      show (width ps).toUInt64.toNat + 4 ≤ _
      exact Nat.le_of_eq (by rw [hwritten.length, ObjectFile.toNat_offset (by omega), hwidth])
  · exact hwritten.fields i x hx

theorem CodePhase.call {behind : UInt64} (ha : CodePhase calm f0 ps current defs a)
    (hs : a.symbols.get? id = some s) (hbehind : behind = (width ps).toUInt64)
    (hfits : width ps + 4 < 2 ^ 63) :
    CodePhase calm f0 (ps ++ [.field s.name]) (fun i => current i ∨ i = id) defs
      (withCall a id behind) where
  toBehind := by
    rw [names, filterMap_append]
    exact ha.toBehind.call hs behind
  near := hbehind ▸ ha.near.call hfits id s.name
  codePool := ha.codePool
  wellFormed := ha.wellFormed.add _ _
  static i r hi hr hstatic := by
    have := ha.static i r
    grind [withCall, waiting_add]
  symbols := ha.symbols
  links hcalm := by
    obtain ⟨fate, hlinks⟩ := ha.links hcalm
    rw [hbehind]
    exact ⟨_, hlinks.call ha.symbols.unique hs (by omega)⟩

/-! ## Filling in fields -/

/-- The fates after the fields of a symbol are filled in. -/
def fateAfter (ps : List Piece) (fate : Nat → Fate) (s : ObjectSymbol) (o : Nat) : Fate :=
  if o ∈ waitingFor ps fate s.name then .ofSymbol s else fate o

theorem ofSymbol_ne_waiting (s : ObjectSymbol) : Fate.ofSymbol s ≠ .waiting := by
  unfold Fate.ofSymbol
  split <;> exact nofun

theorem fateAfter_other (hmem : (o, name) ∈ fields 0 ps) (hname : name ≠ s.name) :
    fateAfter ps fate s o = fate o :=
  if_neg fun ho => hname (name_unique hmem (mem_waitingFor.mp ho).1)

theorem waitingFor_fateAfter (s : ObjectSymbol) (other : String) :
    waitingFor ps (fateAfter ps fate s) other =
      if other = s.name then [] else waitingFor ps fate other := by
  split
  · refine eq_nil_iff_forall_not_mem.mpr fun o ho => ?_
    have hne := ofSymbol_ne_waiting s
    grind [mem_waitingFor, fateAfter]
  · unfold waitingFor
    congr 1
    refine filter_congr fun x hx => ?_
    have hother (hname : x.2 ≠ s.name) : fateAfter ps fate s x.1 = fate x.1 :=
      fateAfter_other hx hname
    grind

theorem Fields.filled (ha : Fields ps fate a) (hunique : a.symbols.Unique)
    (hs : a.symbols.get? id = some s) (hreach : ObjectFile.Reachable s) :
    Fields ps (fateAfter ps fate s) (filled a id s) where
  shows := by
    have hnodup : (waitingFor ps fate s.name).reverse.Nodup :=
      pairwise_reverse.mpr (((nodup_fields 0 ps).sublist (filter_sublist.map _)).imp Ne.symm)
    have hfill := ha.shows.fill hreach hnodup
      (fun o ho => (mem_waitingFor.mp (mem_reverse.mp ho)).1)
      fun o ho => (mem_waitingFor.mp (mem_reverse.mp ho)).2
    rw [map_reverse, ← ha.waiting id s hs] at hfill
    simp only [mem_reverse] at hfill
    exact hfill
  waiting i r hr := by
    show (a.fixups.erase id).waiting i = _
    rw [waiting_erase, waitingFor_fateAfter, ha.waiting i r hr]
    simp only [name_iff hunique hr hs]
    split <;> rfl
  known := ha.known

theorem Near.filled (ha : Near ps a) (id : ObjectSymbolId) (s : ObjectSymbol) :
    Near ps (filled a id s) := by
  have htouches : Touches s (a.fixups.waiting id).reverse a.file (Assemble.filled a id s).file :=
    touches_foldl (fun x hx => (ha.fields id x (mem_reverse.mp hx)).1) s
  refine ⟨ha.short, (fieldWidth_congr htouches.pointerSize _).trans ha.fieldWidth_eq,
    (htouches.length .code).trans ha.length, fun i x hx => ?_, ha.placed⟩
  rw [Assemble.filled, waiting_erase] at hx
  split at hx
  · cases hx
  · exact ⟨htouches.fits (ha.fields i x hx).1, (ha.fields i x hx).2⟩

theorem Near.not_misses (ha : Near ps a) (hcode : ∀ x ∈ a.fixups.waiting id, x.segment = .code)
    (hs : a.symbols.get? id = some s) : ∀ x ∈ a.fixups.waiting id, ∀ e, ¬ x.Misses s e := by
  intro x hx e hmiss
  have hshort := ha.short
  obtain ⟨hfits, haddend⟩ := ha.fields id x hx
  have hinside := hfits.inside
  rw [hcode x hx, ha.length] at hinside
  have hplaced : s.segment = some .code := by
    have hlocal := hmiss.1
    simp only [Fixup.isLocal, hcode x hx, Bool.and_eq_true, decide_eq_true_eq] at hlocal
    exact hlocal.1.1.1
  have hoffset := ha.placed id s hs hplaced
  exact Fixup.not_misses (by omega) haddend (by omega) hmiss

theorem CodePhase.resolve_run (ha : CodePhase calm f0 ps current defs a)
    (hs : a.symbols.get? id = some s) : (resolve id).run a =
      (.ok ⟨⟩, if a.fixups.waiting id = [] then a else Assemble.filled a id s) :=
  Assemble.resolve_run hs (ha.near.not_misses (ha.fields id) hs)

theorem Links.filled (ha : Links ps fate current defs a) (hunique : a.symbols.Unique)
    (hs : a.symbols.get? id = some s) (hnumber : s.externIndex = 0) (hplaced : s.isDefined) :
    Links ps (fateAfter ps fate s) (fun i => current i ∧ i ≠ id) defs (filled a id s) := by
  have hreach : ObjectFile.Reachable s := fun hcode => ⟨ha.global id s hs hcode, hnumber⟩
  refine ⟨ha.toFields.filled hunique hs hreach, fun o i r hmem hr => ?_, ha.global,
    ha.functions, ?_, ?_⟩
  · have hsettled := ha.settled o i r hmem hr
    by_cases hi : i = id
    · subst hi
      obtain rfl := some.inj (hs.symm.trans hr)
      have hfate : s.fate = .ofSymbol s := if_pos hplaced
      grind [fateAfter, mem_waitingFor]
    · rw [fateAfter_other hmem fun h => hi (hunique i id r s hr hs h)]
      exact hsettled.imp_right fun h => ⟨⟨h.1, hi⟩, h.2⟩
  · rw [← ha.defined]
    exact (defined_fill ..).1
  · rw [← ha.externals]
    exact (defined_fill ..).2

/-! ## Current symbols -/

theorem CodePhase.mono (ha : CodePhase calm f0 ps current defs a)
    (hcurrent : ∀ i, current i → current' i) : CodePhase calm f0 ps current' defs a :=
  { ha with
    static := fun i s hi hs hstatic => hcurrent i (ha.static i s hi hs hstatic)
    links := fun hcalm => (ha.links hcalm).imp fun _ hlinks =>
      { hlinks with settled := fun o i s hmem hs =>
        (hlinks.settled o i s hmem hs).imp_right fun h => ⟨hcurrent i h.1, h.2⟩ } }

/-- A symbol that is not placed needs not be current: its fields do wait. -/
theorem CodePhase.drop_unplaced (ha : CodePhase calm f0 ps (fun i => current i ∨ i = id) defs a)
    (hs : a.symbols.get? id = some s) (hplaced : ¬ s.isDefined) :
    CodePhase calm f0 ps current defs a :=
  { ha with
    static := fun i r hi hr hcls => by
      refine (ha.static i r hi hr hcls).resolve_right ?_
      rintro rfl
      obtain rfl := some.inj (hs.symm.trans hr)
      exact ((ha.symbols.sound i s hs).static hcls).elim hplaced fun h => h
    links := fun hcalm => by
      obtain ⟨fate, hlinks⟩ := ha.links hcalm
      refine ⟨fate, { hlinks with settled := fun o i r hmem hr => ?_ }⟩
      rcases hlinks.settled o i r hmem hr with hfate | ⟨hi | rfl, hwaiting⟩
      · exact .inl hfate
      · exact .inr ⟨hi, hwaiting⟩
      · obtain rfl := some.inj (hs.symm.trans hr)
        exact .inl (hwaiting.trans (if_neg hplaced).symm) }

section

variable (ha : CodePhase calm f0 ps current defs a) (hs : a.symbols.get? id = some s)
  (hplaced : s.isDefined)
include ha hs hplaced

theorem CodePhase.name_defined : s.name ∈ a.file.defined.map (·.name) := by
  obtain ⟨g, hg⟩ := isSome_iff_exists.mp hplaced
  obtain ⟨d, hd, hname, -⟩ := (ha.symbols.sound id s hs).placed g hg
  exact mem_map.mpr ⟨d, hd, hname⟩

theorem CodePhase.resolve :
    CodePhase calm f0 ps (fun i => current i ∧ i ≠ id) defs
      (if a.fixups.waiting id = [] then a else filled a id s) := by
  split
  · next hempty =>
    refine { ha with static := fun i r hi hr hcls => ?_, links := fun hcalm => ?_ }
    · exact ⟨ha.static i r hi hr hcls, fun hid => hi (hid ▸ hempty)⟩
    obtain ⟨fate, hlinks⟩ := ha.links hcalm
    refine ⟨fate, { hlinks with settled := fun o i r hmem hr => ?_ }⟩
    refine (hlinks.settled o i r hmem hr).imp_right fun ⟨hcurrent, hwaiting⟩ =>
      ⟨⟨hcurrent, ?_⟩, hwaiting⟩
    rintro rfl
    have hnone := hlinks.waiting i r hr
    rw [hempty, eq_comm, map_eq_nil_iff] at hnone
    exact not_mem_nil (hnone ▸ mem_waitingFor.mpr ⟨hmem, hwaiting⟩)
  · have hdefined : (Assemble.filled a id s).file.defined = a.file.defined := (defined_fill ..).1
    refine ⟨ha.toBehind.filled hs (.inl (ha.name_defined hs hplaced)), ha.near.filled id s,
      ha.codePool, ha.wellFormed.erase id, fun i r hi hr hcls => ?_, hdefined ▸ ha.symbols,
        fun hcalm => ?_⟩
    · have := ha.static i r
      grind [Assemble.filled, waiting_erase]
    · obtain ⟨fate, hlinks⟩ := ha.links hcalm
      have hsound := ha.symbols.sound id s hs
      exact ⟨_, hlinks.filled ha.symbols.unique hs hsound.externIndex hplaced⟩

end

end Assemble

end DCompiler
