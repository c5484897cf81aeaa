import DCompiler.Proofs.Object.Linking

/-!
# Flushing the references of a file

At the end of the code, each symbol that call fields wait for becomes an external name, once, and
each of its fields gets a relocation. No such symbol is static, so nothing is left undefined.
-/

namespace DCompiler

open Cells Work List ObjectFile FixupTable Piece ObjectSymbolTable

namespace ObjectFile

variable {f : ObjectFile} {name : String}

/-! ## External names -/

theorem mem_external (f : ObjectFile) (name other : String) :
    other ∈ (f.external name).2.externals ↔ other = name ∨ other ∈ f.externals := by
  unfold external
  split
  · next i hfound =>
    obtain ⟨hi, hname, -⟩ := idxOf?_eq_some_iff.mp hfound
    grind
  · simp [or_comm]

theorem nodup_external (hf : f.externals.Nodup) (name : String) :
    (f.external name).2.externals.Nodup := by
  unfold external
  split
  · exact hf
  · next hfound =>
    have hmem : name ∉ f.externals := idxOf?_eq_none_iff.mp hfound
    grind [nodup_append]

theorem external_eq (f : ObjectFile) (name : String) :
    (f.external name).2 = { f with externals := (f.external name).2.externals } := by
  unfold external
  cases f.externals.idxOf? name <;> rfl

end ObjectFile

namespace Assemble

variable {E : Fault → Prop} {calm : Prop} {ps : List Piece} {fate : Nat → Fate} {f0 : ObjectFile}
  {names : List String} {defs : List Definition} {a b : Assembly} {id : ObjectSymbolId}
  {s : ObjectSymbol}

def asExternal (number : Nat) (s : ObjectSymbol) : ObjectSymbol :=
  { s with cls := .external, operandClass := .external, externIndex := number }

/-- A field never holds the distance to an external name. -/
theorem not_misses_external {x : Fixup} {number : Nat} {e : Fault} :
    ¬ x.Misses (asExternal number s) e := fun h => by
  simpa [Fixup.isLocal, asExternal] using h.1

def externalFile (f : ObjectFile) (s : ObjectSymbol) : ObjectFile :=
  if s.flags.contains .weak then (f.external s.name).2.weakExternal s.name
  else (f.external s.name).2

theorem makeExternal_run (hs : a.symbols.get? id = some s) :
    (makeExternal id).run a = (.ok ⟨⟩, { a with
      symbols := a.symbols.modify id (asExternal (a.file.external s.name).1)
      file := externalFile a.file s }) := by
  rw [makeExternal, run_bind (symbol_run hs), run_bind (run_modifyGet _ a)]
  rw [run_bind (modifySymbol_run (a := { a with file := (a.file.external s.name).2 }) hs _)]
  unfold externalFile
  split <;> rfl

/-! ## Closing calls -/

/-- The fate of a field when all references are closed. -/
def closed (fate : Fate) : Fate := if fate = .waiting then .far else fate

theorem externalFile_of_flags (f : ObjectFile) (hflags : s.flags = .none ∨ s.flags = .written) :
    externalFile f s = (f.external s.name).2 := by
  have hweak : s.flags.contains .weak = false := by
    rcases hflags with h | h <;> rw [h] <;> decide
  unfold externalFile
  rw [hweak]
  rfl

theorem Fields.external (ha : Fields ps fate a) (id : ObjectSymbolId) (number : Nat)
    (externals : List String) :
    Fields ps fate { a with
      symbols := a.symbols.modify id (asExternal number)
      file := { a.file with externals := externals } } := by
  refine ⟨{ ha.shows with code := ha.shows.code }, fun i r hr => ?_, fun o name hmem => ?_⟩
  · obtain ⟨q, hq, hname⟩ :=
      name_of_modify (f := asExternal number) (fun _ => rfl) hr
    exact hname ▸ ha.waiting i q hq
  · obtain ⟨i, q, hq, rfl⟩ := ha.known o name hmem
    exact ⟨i, modify_of_name id (f := asExternal number) (fun _ => rfl) hq⟩

def withExternal (a : Assembly) (id : ObjectSymbolId) (s : ObjectSymbol) : Assembly :=
  { a with
    symbols := a.symbols.modify id (asExternal (a.file.external s.name).1)
    file := (a.file.external s.name).2 }

def withClosed (a : Assembly) (id : ObjectSymbolId) (s : ObjectSymbol) : Assembly :=
  filled (withExternal a id s) id (asExternal (a.file.external s.name).1 s)

theorem get?_withExternal (hs : a.symbols.get? id = some s) :
    (withExternal a id s).symbols.get? id = some (asExternal (a.file.external s.name).1 s) := by
  rw [withExternal, get?_modify, if_pos rfl, hs]
  rfl

theorem file_withClosed (a : Assembly) (id : ObjectSymbolId) (s : ObjectSymbol) :
    (withClosed a id s).file.defined = a.file.defined ∧
      (withClosed a id s).file.externals = (a.file.external s.name).2.externals := by
  refine ⟨(defined_fill ..).1.trans ?_, (defined_fill ..).2⟩
  rw [withExternal, external_eq]

theorem waiting_withClosed {i : ObjectSymbolId} (hi : i ≠ id) (s : ObjectSymbol) :
    (withClosed a id s).fixups.waiting i = a.fixups.waiting i := by
  show (a.fixups.erase id).waiting i = _
  rw [waiting_erase, if_neg hi]

theorem Fields.close (ha : Fields ps fate a) (hunique : a.symbols.Unique)
    (hs : a.symbols.get? id = some s) (hunplaced : s.segment = none) :
    Fields ps (fateAfter ps fate s) (withClosed a id s) := by
  have hfields : Fields ps fate (withExternal a id s) := by
    rw [withExternal, external_eq]
    exact ha.external id _ _
  exact hfields.filled (hunique.modify fun _ => rfl) (get?_withExternal hs)
    fun hcode => nomatch hunplaced.symm.trans hcode

/-- A name becomes an external one, and the fields of its symbol get their relocations. -/
theorem CodeAdded.close (ha : CodeAdded f0 names a.file)
    (hfields : ∀ x ∈ a.fixups.waiting id, x.segment = .code) :
    CodeAdded f0 names (withClosed a id s).file := by
  have hknown : (withExternal a id s).file.Knows s.name :=
    .inr (.inr ((mem_external ..).mpr (.inl rfl)))
  have hexternal : CodeAdded f0 names (withExternal a id s).file := by
    rw [withExternal, external_eq]
    exact ha.refer _ [] (fun _ _ => rfl) rfl (append_nil _).symm nofun
      (fun _ h => h.imp_right (.imp_right fun h => (mem_external ..).mpr (.inr h))) rfl
  exact (hexternal.fill (s := asExternal _ s) hfields hknown).1

/-- Symbols that can become external names; if all is calm, they are not placed. -/
def CallsClosable (calm : Prop) (a : Assembly) (ids : List ObjectSymbolId) : Prop :=
  ∀ i ∈ ids, (∃ s, a.symbols.get? i = some s ∧ s.cls ≠ .static ∧
    (s.flags = .none ∨ s.flags = .written) ∧ (calm → s.segment = none)) ∧
    a.fixups.waiting i ≠ [] ∧ ∀ x ∈ a.fixups.waiting i, x.segment = .code

def Names (a : Assembly) (ids : List ObjectSymbolId) (name : String) : Prop :=
  ∃ i ∈ ids, ∃ s, a.symbols.get? i = some s ∧ s.name = name

/-- What closing the references to some symbols does. -/
structure ClosesCalls (calm : Prop) (ps : List Piece) (fate : Nat → Fate)
    (ids : List ObjectSymbolId) (a b : Assembly) : Prop where
  added : ∀ {f0 names}, CodeAdded f0 names a.file → CodeAdded f0 names b.file
  defined : b.file.defined = a.file.defined
  nodup : a.file.externals.Nodup → b.file.externals.Nodup
  externals : ∀ name, name ∈ b.file.externals ↔ name ∈ a.file.externals ∨ Names a ids name
  pools : pools b = pools a
  data : ∀ i r, b.symbols.get? i = some r → ∃ s, a.symbols.get? i = some s ∧ r.data = s.data
  shows : calm → ∃ fate', b.file.Shows ps fate' ∧ ∀ o name, (o, name) ∈ fields 0 ps →
    (fate o ≠ .waiting → fate' o = fate o) ∧
      (fate o = .waiting → Names a ids name → fate' o = .far)

variable {ids : List ObjectSymbolId}

theorem names_cons (hs : a.symbols.get? id = some s) (name : String) :
    Names a (id :: ids) name ↔ name = s.name ∨ Names (withClosed a id s) ids name := by
  constructor
  · rintro ⟨i, hi, r, hr, rfl⟩
    rcases mem_cons.mp hi with rfl | hi
    · exact .inl (by rw [Option.some.inj (hs.symm.trans hr)])
    · exact .inr ⟨i, hi, modify_of_name id (f := asExternal _)
        (fun _ => rfl) hr⟩
  · rintro (rfl | ⟨i, hi, r, hr, rfl⟩)
    · exact ⟨id, mem_cons_self, s, hs, rfl⟩
    · exact ⟨i, mem_cons_of_mem _ hi, name_of_modify (f := asExternal _)
        (fun _ => rfl) hr⟩

theorem ClosesCalls.cons (hs : a.symbols.get? id = some s) (hunplaced : calm → s.segment = none)
    (hfields : ∀ x ∈ a.fixups.waiting id, x.segment = .code)
    (hb : ClosesCalls calm ps (fateAfter ps fate s) ids (withClosed a id s) b) :
    ClosesCalls calm ps fate (id :: ids) a b := by
  obtain ⟨hdefined, hexternals⟩ := file_withClosed a id s
  refine ⟨fun h => hb.added (h.close hfields), hb.defined.trans hdefined, fun h => hb.nodup ?_,
    fun name => ?_, hb.pools, fun i r hr => ?_, fun hcalm => ?_⟩
  · rw [hexternals]
    exact nodup_external h s.name
  · rw [hb.externals, hexternals, mem_external, names_cons hs, or_assoc, or_left_comm]
  · obtain ⟨q, hq, hdata⟩ := hb.data i r hr
    rcases get?_modify_cases hs hq with ⟨rfl, rfl⟩ | ⟨-, hq⟩
    · exact ⟨s, hs, hdata⟩
    · exact ⟨q, hq, hdata⟩
  · obtain ⟨fate', hshows, hfates⟩ := hb.shows hcalm
    have hfar : Fate.ofSymbol s = .far := if_neg (by simp [hunplaced hcalm])
    refine ⟨fate', hshows, fun o name hmem => ⟨fun hne => ?_, fun hwaiting hname => ?_⟩⟩
    · have hsame : fateAfter ps fate s o = fate o := if_neg fun h => hne (mem_waitingFor.mp h).2
      exact hsame ▸ (hfates o name hmem).1 (hsame ▸ hne)
    by_cases heq : name = s.name
    · have hnow : fateAfter ps fate s o = .far :=
        hfar ▸ if_pos (mem_waitingFor.mpr ⟨heq ▸ hmem, hwaiting⟩)
      exact hnow ▸ (hfates o name hmem).1 (hnow ▸ nofun)
    have hsame : fateAfter ps fate s o = fate o := fateAfter_other hmem heq
    exact (hfates o name hmem).2 (hsame.trans hwaiting)
      (((names_cons hs name).mp hname).resolve_left heq)

theorem closeAll_gives (hids : CallsClosable calm a ids) (hnodup : ids.Nodup)
    (hunique : a.symbols.Unique) (ha : calm → Fields ps fate a) :
    (closeAll ids).Gives E a fun result b => result = none ∧ ClosesCalls calm ps fate ids a b := by
  induction ids generalizing a fate with
  | nil =>
    refine .pure ⟨rfl, fun h => h, rfl, fun h => h, fun name => by simp [Names], rfl,
      fun i r hr => ⟨r, hr, rfl⟩, fun hcalm => ?_⟩
    exact ⟨fate, (ha hcalm).shows, fun o name _ => ⟨fun _ => rfl, fun _ ⟨i, hi, _⟩ => nomatch hi⟩⟩
  | cons id ids ih =>
    obtain ⟨⟨s, hs, hstatic, hflags, hunplaced⟩, hwaiting, hfields⟩ := hids id mem_cons_self
    obtain ⟨hid, hnodup⟩ := nodup_cons.mp hnodup
    have hwas : s.flags.contains .wasStatic = false := by
      rcases hflags with h | h <;> rw [h] <;> decide
    have hother : ∀ i ∈ ids, i ≠ id := fun i hi => ne_of_mem_of_not_mem hi hid
    have hrest : CallsClosable calm (withClosed a id s) ids := fun i hi => by
      have hsame : (withClosed a id s).symbols.get? i = a.symbols.get? i :=
        (get?_modify ..).trans (if_neg (hother i hi))
      rw [hsame, waiting_withClosed (hother i hi)]
      exact hids i (mem_cons_of_mem _ hi)
    refine .after (run_get a) ?_
    rw [if_neg (by simpa using hwaiting)]
    refine .after (symbol_run hs) ?_
    rw [if_neg (by simp [hstatic]), hwas]
    have hexternal := makeExternal_run hs
    rw [externalFile_of_flags a.file hflags] at hexternal
    have hresolve : (resolve id).run (withExternal a id s) = (.ok ⟨⟩, withClosed a id s) :=
      (resolve_run (get?_withExternal hs) fun x _ e h => not_misses_external h).trans
        (congrArg _ (if_neg hwaiting))
    refine .after hexternal (.after hresolve ?_)
    refine (ih hrest hnodup (hunique.modify fun _ => rfl) fun hcalm => ?_).imp fun result b hb =>
      ⟨hb.1, hb.2.cons hs hunplaced hfields⟩
    exact (ha hcalm).close hunique hs (hunplaced hcalm)

theorem Links.unplaced (ha : Links ps fate nothing defs a) (hs : a.symbols.get? id = some s)
    (hwaiting : a.fixups.waiting id ≠ []) : s.segment = none := by
  rw [ha.waiting id s hs, ne_eq, map_eq_nil_iff] at hwaiting
  obtain ⟨o, ho⟩ := exists_mem_of_ne_nil _ hwaiting
  obtain ⟨hmem, hfate⟩ := mem_waitingFor.mp ho
  have hsettled := (ha.settled o id s hmem hs).resolve_right fun h => h.1
  have hplaced : ¬ s.isDefined := fun h =>
    ofSymbol_ne_waiting s ((if_pos h).symm.trans (hsettled.symm.trans hfate))
  simpa [ObjectSymbol.isDefined] using hplaced

theorem CodePhase.callsClosable (ha : CodePhase calm f0 ps nothing defs a) :
    CallsClosable calm a a.fixups.order := by
  intro i hi
  have hwaiting := ha.wellFormed.mem_order.mp hi
  obtain ⟨s, hs, -⟩ := ha.queued i hwaiting
  refine ⟨⟨s, hs, ha.static i s hwaiting hs, (ha.symbols.sound i s hs).flags, fun hcalm => ?_⟩,
    hwaiting, ha.fields i⟩
  obtain ⟨fate, hlinks⟩ := ha.links hcalm
  exact hlinks.unplaced hs hwaiting

structure CallsClosed (ps : List Piece) (defs : List Definition) (a b : Assembly) : Prop where
  shows : ∃ fate fate', Links ps fate nothing defs a ∧ b.file.Shows ps fate' ∧
    ∀ o name, (o, name) ∈ fields 0 ps → fate' o = closed (fate o)
  nodup : b.file.externals.Nodup
  externals : ∀ name, name ∈ b.file.externals ↔
    ∃ i s, a.symbols.get? i = some s ∧ s.name = name ∧ a.fixups.waiting i ≠ []

/-- Nothing is left of the work on an object file but the file and the symbols. -/
structure Drained (a : Assembly) : Prop where
  code : a.code.live = 0
  data : a.data.live = 0
  fixups : a.fixups = .empty
  symbols : ∀ i s, a.symbols.get? i = some s → s.data = none

/-- The file in which all references of the code are closed knows the names of all calls. -/
theorem knows_of_closed {ps' : List Piece} (ha : CodePhase calm f0 ps nothing defs a)
    (hb : ClosesCalls calm ps' fate a.fixups.order a b) (name : String) :
    b.file.Knows name ↔ name ∈ b.file.defined.map (·.name) ∨ name ∈ f0.commons.map (·.name) ∨
      name ∈ Piece.names ps := by
  have hcommons : b.file.commons = f0.commons := (hb.added ha.added).commons
  rw [ObjectFile.Knows, hcommons, hb.externals]
  constructor
  · rintro (h | h | h | ⟨i, hi, s, hs, rfl⟩)
    · exact .inl h
    · exact .inr (.inl h)
    · exact .inr (.inr (ha.externals h))
    obtain ⟨r, hr, hname⟩ := ha.queued i (ha.wellFormed.mem_order.mp hi)
    rw [Option.some.inj (hs.symm.trans hr)]
    exact .inr (.inr hname)
  · rintro (h | h | h)
    · exact .inl h
    · exact .inr (.inl h)
    rcases ha.calls name h with (h | h | h) | ⟨i, s, hs, hname, hwaiting⟩
    · exact .inl (hb.defined ▸ h)
    · exact .inr (.inl (ha.added.commons ▸ h))
    · exact .inr (.inr (.inl h))
    · exact .inr (.inr (.inr ⟨i, ha.wellFormed.mem_order.mpr hwaiting, s, hs, hname⟩))

theorem flush_gives (ha : CodePhase calm f0 ps nothing defs a) :
    flush.Gives E a fun result b => result = none ∧
      (CodeAdded f0 (defs.map (·.name)) b.file ∧
        ∀ name, b.file.Knows name ↔ name ∈ b.file.defined.map (·.name) ∨
          name ∈ f0.commons.map (·.name) ∨ name ∈ Piece.names ps) ∧
      b.file.defined = a.file.defined ∧
      (a.code.live = 0 → a.data.live = 0 → Drained b) ∧
        (calm → CallsClosed ps (f0.defined ++ defs) a b) := by
  obtain ⟨fate, hlinks⟩ : ∃ fate, calm → Links ps fate nothing (f0.defined ++ defs) a := by
    by_cases hcalm : calm
    · obtain ⟨fate, h⟩ := ha.links hcalm
      exact ⟨fate, fun _ => h⟩
    · exact ⟨fun _ => .waiting, fun h => absurd h hcalm⟩
  have hfields : calm → Fields ps fate
      { a with fixups := { a.fixups with flushing := true } } := fun hcalm =>
    ⟨(hlinks hcalm).shows, (hlinks hcalm).waiting, (hlinks hcalm).known⟩
  refine .after (run_modify _ a) (.after (run_get _) ?_)
  refine .bind (closeAll_gives ha.callsClosable ha.wellFormed.nodup ha.symbols.unique hfields)
    fun result b ⟨hresult, hb⟩ => ?_
  obtain ⟨hcode, hdata⟩ := Prod.mk.inj hb.pools
  refine .after (run_modify _ b) (.pure ⟨hresult, ⟨hb.added ha.added,
    knows_of_closed ha { hb with }⟩, hb.defined, fun hc hd => ⟨?_, ?_, rfl, ?_⟩, fun hcalm => ?_⟩)
  · exact (congrArg Pool.live hcode).trans hc
  · exact (congrArg Pool.live hdata).trans hd
  · intro i r hr
    obtain ⟨s, hs, hsame⟩ := hb.data i r hr
    exact hsame.trans ((ha.symbols.sound i s hs).data.resolve_right fun h => h)
  have hlinks := hlinks hcalm
  obtain ⟨fate', hshows, hfates⟩ := hb.shows hcalm
  refine ⟨⟨fate, fate', hlinks, hshows, fun o name hmem => ?_⟩, hb.nodup ?_, fun name => ?_⟩
  · by_cases hwaiting : fate o = .waiting
    · obtain ⟨i, s, hs, hname⟩ := hlinks.known o name hmem
      have hqueue : a.fixups.waiting i ≠ [] := by
        rw [hlinks.waiting i s hs, ne_eq, map_eq_nil_iff]
        exact ne_nil_of_mem (mem_waitingFor.mpr ⟨hname ▸ hmem, hwaiting⟩)
      rw [(hfates o name hmem).2 hwaiting ⟨i, ha.wellFormed.mem_order.mpr hqueue, s, hs, hname⟩]
      exact (if_pos hwaiting).symm
    · rw [(hfates o name hmem).1 hwaiting, closed, if_neg hwaiting]
  · rw [hlinks.externals]
    exact nodup_nil
  · rw [hb.externals, hlinks.externals]
    constructor
    · rintro (h | ⟨i, hi, s, hs, hname⟩)
      · exact nomatch h
      · exact ⟨i, s, hs, hname, ha.wellFormed.mem_order.mp hi⟩
    · rintro ⟨i, s, hs, hname, hwaiting⟩
      exact .inr ⟨i, ha.wellFormed.mem_order.mpr hwaiting, s, hs, hname⟩

end Assemble

end DCompiler
