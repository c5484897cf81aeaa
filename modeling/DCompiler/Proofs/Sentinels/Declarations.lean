import DCompiler.Proofs.Sentinels.Statements

/-!
# Declarations, without silent failures

While names are declared, structs, classes and enumerations have no type before all their members
are declared, and variables without a written type have none before their initial values are
analysed. The first are gaps in the tables until their declaration is complete (`closeType`); the
second wait in the list of pending items, and are gaps until their turn comes (`Pending.gaps`).
-/

namespace DCompiler

open Analyse List SymbolTable Pending

variable {h : Analyser} {p : Tables}
variable {s parent : SymbolId} {sc : ScopeId} {item : PendingItem} {G : Gaps}

/-! ## Structs, classes and enumerations -/

/-- One more struct, class or enumeration without a type. -/
def Gaps.openType (G : Gaps) (s : SymbolId) : Gaps where
  vars := G.vars
  types t := G.types t ∨ t = s

theorem Tables.Sound.openedType (hp : p.Sound G) (s : SymbolId) : p.Sound (G.openType s) :=
  hp.weaken (fun _ => id) fun _ => .inl

theorem Tables.Sound.closeType (hp : p.Sound (G.openType s))
    (haggregate : ∀ a, p.symbols.kind s = .aggregate a → a.type.Known p.reach)
    (henum : ∀ e, p.symbols.kind s = .enumeration e → e.type.Known p.reach) : p.Sound G :=
  hp.regap (fun _ _ _ => id) (fun _ a hk h => h.close fun heq => haggregate a (heq ▸ hk))
    fun _ e hk h => h.close fun heq => henum e (heq ▸ hk)

theorem SymbolTable.kind_note {t : SymbolTable} {n : SymbolNote} {k : SymbolKind}
    (hk : t.kind s = k) (hne : ∀ ms, k ≠ .module ms) :
    (t.modifyKind s n.apply).kind s = n.apply k := by
  have hlt : s.index < t.size := by
    refine Nat.lt_of_not_le fun hle => hne [] ?_
    rw [← hk, kind_of_size_le hle]
  rw [kind_modifyKind, if_pos ⟨rfl, hlt⟩, hk]

section

variable {G : Gaps} {type : TypeId}

theorem nextEnumValue_ok {previous : ExprId} {place : Span} (hp : previous.In p.reach) :
    Reports h G p (nextEnumValue previous place) fun q r => r.In q.reach := by
  refine .ask ?_
  split
  · exact addExpr_ok
  refine .bind (copyExpr_ok hp) fun lhs q _ _ hl => ?_
  refine .bind addExpr_ok fun one r hqr _ hone => ?_
  exact addExpr_ok rfl (fits_pair (hqr.inside hl.1) hone rfl rfl)

theorem declareEnumMembers_ok {enumeration : SymbolId} (members : List EnumMemberDecl)
    {previous : Option ExprId} (ht : type.Known p.reach) (hprevious : ∀ e ∈ previous, e.In p.reach)
    (hmembers : ∀ m ∈ members, ∀ e ∈ m.value, e.In p.reach) :
    ReportsOnly h G p (declareEnumMembers enumeration type previous members) := by
  induction members generalizing p previous with
  | nil => exact .pure trivial
  | cons d rest ih =>
    obtain ⟨hd, hrest⟩ := forall_mem_cons.mp hmembers
    unfold declareEnumMembers
    extract_lets next
    have hnext {q : Tables} {value : ExprId} (hpq : p.Onward q) (hvalue : value.In q.reach) :
        ReportsOnly h G q (next value) := by
      refine .bind (addSymbol_ok id fun _ => ⟨hvalue, hpq.known ht⟩) fun s r hqr _ _ => ?_
      refine .bind (ih ((hpq.trans hqr).known ht) ?_ fun m hm e he =>
        (hpq.trans hqr).inside (hrest m hm e he)) fun _ _ _ _ _ => .pure trivial
      rintro _ ⟨⟩
      exact hqr.inside hvalue
    clear_value next
    split
    · exact .given (hnext .refl (hd _ ‹_›))
    · exact .bind addExpr_ok fun _ _ hpq _ hv => hnext hpq hv
    · exact .bind (nextEnumValue_ok (hprevious _ rfl)) fun _ _ hpq _ hv => hnext hpq hv

theorem internEnum_ok {name : String} {base : TypeId} {gap : Prop}
    (hbase : base.KnownOr p.reach gap) :
    Reports h G p (intern (.enumType s name base)) fun q t => t.Known q.reach := by
  refine .imp (intern_ok fun _ hhollow => ⟨?_, nofun, nofun⟩) fun q t _ hq ht => ?_
  · refine forall_mem_singleton.mpr (hbase.resolve_right fun hgap => ?_)
    simp [TypeKind.isHollow, hgap.1] at hhollow
  · exact hq.types.known_of_kind (k := .enumType s name base) (by simp [TypeTable.kind, ht.1]) nofun

theorem declareEnum_ok {d : EnumDecl} (hd : d.Fits p.reach) :
    ReportsOnly h G p (declareEnum d sc parent) := by
  unfold declareEnum
  extract_lets rest
  have hrest {q : Tables} {base : TypeId} (hpq : p.Onward q)
      (hbase : base.KnownOr q.reach G.declaring) :
      ReportsOnly h G q (rest base) := by
    refine .bind (addSymbol_ok (fun hq => hq.openedType ⟨q.symbols.size⟩)
      fun _ => .inr ⟨rfl, .inr rfl⟩) ?_
    rintro _ q1 h1 - ⟨rfl, hq1⟩
    have hkind : q1.symbols.kind ⟨q.symbols.size⟩ = .enumeration ⟨.error, []⟩ := by
      rw [hq1, Tables.kind_withSymbol, if_pos rfl]
    refine .bind (internEnum_ok (hbase.mono h1.reach)) fun type q2 h2 _ htype => ?_
    refine .bind bindName_ok fun _ q3 h3 _ _ => ?_
    have hp3 := hpq.trans (h1.trans (h2.trans h3))
    refine .bind (declareEnumMembers_ok d.members (h3.known htype) nofun fun m hm e he =>
      hp3.inside (hd.members m hm e he)) fun members q4 h4 _ _ => ?_
    have htype := (h3.trans h4).known htype
    obtain ⟨_, hkind⟩ := (h2.trans (h3.trans h4)).enumerations hkind
    refine .bind ((note_ok (n := .enumeration ⟨type, members⟩) fun _ => htype).gaps id ?_)
      fun _ _ _ _ _ => .pure trivial
    rintro q5 - h5 rfl hq5
    have hnoted := kind_note (n := .enumeration ⟨type, members⟩) hkind nofun
    refine hq5.closeType (fun a ha => ?_) fun e he => ?_
    · cases hnoted.symm.trans ha
    · cases hnoted.symm.trans he
      exact h5.known htype
  clear_value rest
  split
  · refine .bind (resolveType_ok (hd.base _ ‹_›)) fun base q hpq _ hbase => ?_
    exact hrest hpq hbase.1
  · exact .given (hrest .refl (.inl TypeId.known_ofScalar))

theorem completeAggregate_ok {members : List SymbolId} {scope : ScopeId} (hs : p.IsAggregate s)
    (ht : type.Known p.reach) :
    ReportsOr (fun _ _ => False) h (G.openType s) G p (completeAggregate s type members scope)
      fun _ _ => True := by
  refine .tables ?_
  refine .imp ((note_ok (n := .aggregate ⟨type, _, members, _, scope⟩)
    fun _ => ⟨ht, fun c hc => ?_⟩).gaps id ?_) fun _ _ _ _ _ => trivial
  · have hconstructor := find?_some hc
    rw [Bool.and_eq_true] at hconstructor
    cases hf : p.symbols.func? c with
    | none =>
      rw [hf] at hconstructor
      cases hconstructor.2
    | some f =>
      rw [Tables.isFunction, hf]
      rfl
  · rintro q - hpq rfl hq
    obtain ⟨a, ha⟩ := Option.isSome_iff_exists.mp hs
    have hkind := aggregate?_eq_some.mp ha
    refine hq.closeType (fun b hb => ?_) fun e he => ?_
    · rw [kind_note hkind (by simp)] at hb
      cases hb
      exact hpq.known ht
    · rw [kind_note hkind (by simp)] at he
      cases he

end

/-! ## Pending declarations -/

/-- What a pending declaration says about the tables. -/
def Analyse.PendingItem.Fits : PendingItem → Tables → Prop
  | .var s type init _, p => p.Eager s ∧ (type.isSome ∨ init.isSome) ∧
    (∀ t ∈ type, t.Known p.reach) ∧ ∀ e ∈ init, e.In p.reach
  | .func _, _ => True

theorem Analyse.PendingItem.Fits.mono {q : Tables} (hi : item.Fits p) (hpq : p.Onward q) :
    item.Fits q := by
  cases item with
  | var s type init sc =>
    obtain ⟨heager, hgiven, ht, hinit⟩ := hi
    exact ⟨heager.mono hpq, hgiven, fun t h => hpq.known (ht t h),
      fun e h => hpq.inside (hinit e h)⟩
  | func s => trivial

namespace Analyse.Pending

def Fits (pend : Pending) (p : Tables) : Prop := ∀ item ∈ pend.items, item.Fits p

/-- Pending variables have no type, unless one is written. -/
def gaps (pend : Pending) (T : SymbolId → Prop) : Gaps where
  vars s := ∃ init sc, PendingItem.var s none init sc ∈ pend.items
  types := T

theorem Fits.mono {q : Tables} {pend : Pending} (hp : pend.Fits p) (hpq : p.Onward q) :
    pend.Fits q :=
  fun item hi => (hp item hi).mono hpq

end Analyse.Pending

/-- A part of the declarations: after it, only pending variables have no type. -/
def Declares {α : Type} (h : Analyser) (T : SymbolId → Prop) (p : Tables) (pend : Pending)
    (x : Declare α) : Prop :=
  ReportsOr (fun _ _ => False) h (pend.gaps T) ⟨fun _ => True, T⟩ p (x.run pend) fun q r =>
    q.Sound (r.2.gaps T) ∧ r.2.Fits q

section

variable {α : Type} {T : SymbolId → Prop} {pend : Pending} {G : Gaps} {r : Reach}

theorem declared_pure {a : α} (hG : p.Sound G → p.Sound (pend.gaps T)) (hpend : pend.Fits p) :
    ReportsOr (fun _ _ => False) h G ⟨fun _ => True, T⟩ p (pure (a, pend)) fun q r =>
      q.Sound (r.2.gaps T) ∧ r.2.Fits q := by
  have hweak : ∀ q : Tables, q.Sound (pend.gaps T) → q.Sound ⟨fun _ => True, T⟩ := fun q hq =>
    hq.weaken (fun _ _ => trivial) fun _ => id
  refine .intro fun hp => .gaps (.pure (G := pend.gaps T) ⟨hG hp, hpend⟩) hG ?_
  exact fun q _ _ _ hq => hweak q hq

theorem declared_of {x : Analyse α} {Q : Tables → α → Prop} (hpend : pend.Fits p)
    (hx : Reports h (pend.gaps T) p x Q) :
    ReportsOr (fun _ _ => False) h (pend.gaps T) ⟨fun _ => True, T⟩ p
      (do return (← x, pend)) fun q r => q.Sound (r.2.gaps T) ∧ r.2.Fits q :=
  .bind hx fun _ _ hpq _ _ => declared_pure id (hpend.mono hpq)

abbrev Analyse.Pending.postponing (pend : Pending) (item : PendingItem) : Pending :=
  { pend with items := pend.items ++ [item] }

theorem Tables.Sound.postponed (hp : p.Sound (pend.gaps T)) (item : PendingItem) :
    p.Sound ((pend.postponing item).gaps T) :=
  hp.weaken (fun _ ⟨init, sc, hmem⟩ => ⟨init, sc, mem_append_left _ hmem⟩) fun _ => id

theorem Analyse.Pending.Fits.postponed (hpend : pend.Fits p) (hi : item.Fits p) :
    (pend.postponing item).Fits p := by
  intro i hmem
  rcases mem_append.mp hmem with hmem | hmem
  · exact hpend i hmem
  · rwa [mem_singleton.mp hmem]

theorem run_lift {β : Type} (x : Analyse α) (f : α → Declare β) :
    ((liftM x : Declare α) >>= f).run pend = x >>= fun a => (f a).run pend := by
  simp

theorem declareGlobal_declares {d : VariableDecl}
    (hd : DeclaredVariable d.type d.init d.storage p.reach) (hpend : pend.Fits p) :
    Declares h T p pend (declareGlobal d sc parent) := by
  unfold Declares
  simp only [declareGlobal, run_lift]
  refine .ask ?_
  have heager : (if (p.symbols.aggregate? parent).isSome && !d.storage.contains .static then
      d.storage ||| .field else d.storage).contains .lazy = false := by
    have hfield : StorageClass.field.contains .lazy = false := by decide
    split
    · rw [StorageClass.contains_lazy_or, hd.eager, hfield]
      rfl
    · exact hd.eager
  revert heager
  intro heager
  -- the new item stands for the gap that the new variable may be
  let item : PendingItem := .var ⟨p.symbols.size⟩ d.type d.init sc
  have hknown : (d.type.getD .error).KnownOr p.reach
      (((pend.postponing item).gaps T).vars ⟨p.symbols.size⟩) := by
    cases ht : d.type with
    | some t => exact .inl (hd.known t ht)
    | none =>
      refine .inr ⟨rfl, d.init, sc, ?_⟩
      simp [item, ht]
  refine .bind (addSymbol_ok (·.postponed item) fun _ => .of_eager hknown rfl heager) ?_
  rintro _ q hpq - ⟨rfl, hq⟩
  have hvar : q.Eager ⟨p.symbols.size⟩ := by
    rw [hq]
    exact ⟨_, Tables.var?_withSymbol, heager⟩
  refine .bind bindName_ok fun _ r hqr _ _ => declared_pure id ?_
  have hpr := hpq.trans hqr
  have hd := hd.mono hpr.reach
  exact (hpend.mono hpr).postponed ⟨hvar.mono hqr, hd.given, hd.known, hd.within⟩

theorem declareAll_each (ds : List Decl)
    (hds : ∀ d ∈ ds, ∀ {q : Tables} {pend : Pending}, r ≤ q.reach → pend.Fits q →
      Declares h T q pend (declare d sc parent)) (hr : r ≤ p.reach) (hpend : pend.Fits p) :
    Declares h T p pend (declareAll ds sc parent) := by
  induction ds generalizing p pend with
  | nil => exact declared_pure id hpend
  | cons d ds ih =>
    obtain ⟨hd, hds⟩ := forall_mem_cons.mp hds
    unfold Declares
    rw [declareAll]
    refine .bind (hd hr hpend) fun first q hpq _ hfirst => ?_
    have hrest := ih hds (Reach.le_trans hr hpq.reach) hfirst.2
    refine .before (first.2.gaps T) (fun _ => hfirst.1) (.bind hrest fun rest u _ _ hu => ?_)
    exact declared_pure (fun _ => hu.1) hu.2

theorem intern_bare_ok {k : TypeKind} (hk : k.components = [] ∧ k.defaults = [])
    (hne : k ≠ .error) (hdelegate : ∀ f, k ≠ .delegate f) :
    Reports h G p (intern k) fun q t => t.Known q.reach := by
  refine .imp (intern_ok fun _ _ => ⟨?_, fun hf => absurd hf (hdelegate _), ?_⟩)
    fun q t _ hq ht => hq.types.known_of_kind (k := k) (by simp [TypeTable.kind, ht.1]) hne
  · rw [hk.1]
    simp
  · rw [hk.2]
    simp

theorem declare_declares {d : Decl} (hd : d.Fits r) (hr : r ≤ p.reach) (hpend : pend.Fits p) :
    Declares h T p pend (declare d sc parent) := by
  induction hd generalizing p pend T sc parent with
  | func hd =>
    have hd := hd.mono hr
    unfold Declares
    rw [declare]
    split
    · exact declared_of hpend (declareTemplate_ok hd)
    rw [run_lift]
    refine .bind (declareFunction_ok hd) fun s q hpq _ _ => ?_
    exact declared_pure (·.postponed (.func s)) ((hpend.mono hpq).postponed trivial)
  | enumeration hd =>
    exact declared_of hpend (declareEnum_ok (hd.mono hr))
  | global hd =>
    exact declareGlobal_declares (hd.mono hr) hpend
  | importModule =>
    unfold Declares
    simp only [declare, run_lift]
    refine .bind (addSymbol_ok id fun _ => trivial) fun s q hpq _ _ => ?_
    exact .bind bindName_ok fun _ u hqu _ _ => declared_pure id (hpend.mono (hpq.trans hqu))
  | @aggregate name place isClass base members _ ih =>
    unfold Declares
    simp only [declare, run_lift, StateT.run_bind (declareAll _ _ _)]
    -- the new struct or class is a gap until its members are declared
    refine .bind (addSymbol_ok (fun hp => hp.openedType ⟨p.symbols.size⟩)
      fun _ => ⟨.inr ⟨rfl, .inr rfl⟩, by simp, by simp⟩) ?_
    rintro _ q1 h1 - ⟨rfl, hq1⟩
    have haggregate : q1.IsAggregate ⟨p.symbols.size⟩ := by
      refine Option.isSome_iff_exists.mpr ⟨{ isClass := isClass, type := .error }, ?_⟩
      rw [aggregate?_eq_some, hq1, Tables.kind_withSymbol, if_pos rfl]
    have htype : Reports h ((pend.gaps T).openType ⟨p.symbols.size⟩) q1
        (intern (if isClass then .classType ⟨p.symbols.size⟩ name
          else .structType ⟨p.symbols.size⟩ name)) fun q t => t.Known q.reach := by
      cases isClass <;> exact intern_bare_ok ⟨rfl, rfl⟩ (by simp) (by simp)
    refine .bind htype fun type q2 h2 _ htype => ?_
    refine .bind bindName_ok fun _ q3 h3 _ _ => ?_
    refine .bind pushScope_ok fun inner q4 h4 _ _ => ?_
    refine .bind noteScope_ok fun _ q5 h5 _ _ => ?_
    have h25 := h3.trans (h4.trans h5)
    have h05 := h1.trans (h2.trans h25)
    refine .bind (declareAll_each (T := ((pend.gaps T).openType ⟨p.symbols.size⟩).types) members
      (fun d hd => ih d hd) (Reach.le_trans hr h05.reach) (hpend.mono h05))
      fun found q6 h6 _ hq6 => ?_
    have haggregate := h6.aggregates (h25.aggregates (h2.aggregates haggregate))
    refine .before ((found.2.gaps T).openType ⟨p.symbols.size⟩) (fun _ => hq6.1) ?_
    exact .bind (completeAggregate_ok haggregate ((h25.trans h6).known htype))
      fun _ q7 h7 _ _ => declared_pure id (hq6.2.mono h7)

end

/-! ## Later passes -/

section

variable {G : Gaps}

theorem resolveBase_ok {b : PendingBase} : ReportsOnly h G p (resolveBase b) := by
  refine .tables ?_
  split
  · rw [← bind_pure (undefinedIdentifier _ _ _)]
    exact undefinedIdentifier_ok
  rename_i base _ _
  dsimp only
  split
  · exact .error_last
  split
  · exact .error_last
  rename_i hclasses _
  have hbase : p.IsAggregate base := by
    rw [Bool.or_eq_true, not_or, Bool.not_eq_true', Bool.not_eq_false, Bool.not_eq_true',
      Bool.not_eq_false] at hclasses
    cases ha : p.symbols.aggregate? base with
    | none =>
      rw [ha] at hclasses
      cases hclasses.2
    | some a =>
      rw [Tables.IsAggregate, ha]
      rfl
  exact .imp (note_ok fun _ => hbase) fun _ _ _ _ _ => trivial

/-- A variable without a written type is left as it is. -/
theorem resolveItem_ok (hG : ¬ G.declaring) (hi : item.Fits p) :
    Reports h G p (resolveItem item) fun q r =>
      r.Fits q ∧ ∀ s init sc, item = .var s none init sc → r = item := by
  have hsame : Reports h G p (pure item) fun q r =>
      r.Fits q ∧ ∀ s init sc, item = .var s none init sc → r = item :=
    .pure ⟨hi, fun _ _ _ _ => rfl⟩
  match item with
  | .func s => exact hsame
  | .var s none init sc => exact hsame
  | .var s (some type) init sc =>
    obtain ⟨heager, -, ht, hinit⟩ := hi
    refine .tables (.bind (resolveType_known hG (ht type rfl)) fun type q hpq _ ht => ?_)
    have hnote : (SymbolNote.var (.type type)).Fits q s := by
      obtain ⟨v, hv, hv'⟩ := heager.mono hpq
      refine ⟨ht.1, fun w hw => ?_⟩
      rw [hv] at hw
      cases hw
      exact hv'
    refine .bind (note_ok fun _ => hnote) fun _ r hqr _ _ => .pure ⟨?_, nofun⟩
    refine ⟨heager.mono (hpq.trans hqr), .inl rfl, ?_,
      fun e he => (hpq.trans hqr).inside (hinit e he)⟩
    rintro _ ⟨⟩
    exact hqr.known ht.1

theorem resolveItems_ok (hG : ¬ G.declaring) (items : List PendingItem)
    (hitems : ∀ i ∈ items, i.Fits p) :
    Reports h G p (items.mapM resolveItem) fun q rs => (∀ i ∈ rs, i.Fits q) ∧
      ∀ s init sc, PendingItem.var s none init sc ∈ items → .var s none init sc ∈ rs := by
  induction items generalizing p with
  | nil => exact .pure ⟨nofun, nofun⟩
  | cons item items ih =>
    obtain ⟨hi, hitems⟩ := forall_mem_cons.mp hitems
    rw [mapM_cons]
    refine .bind (resolveItem_ok hG hi) fun r q hpq _ hr => ?_
    refine .bind (ih fun i hi => (hitems i hi).mono hpq) fun rs u hqu _ hrs => .pure ⟨?_, ?_⟩
    · exact forall_mem_cons.mpr ⟨hr.1.mono hqu, hrs.1⟩
    intro s init sc hmem
    rcases mem_cons.mp hmem with hmem | hmem
    · rw [hr.2 s init sc hmem.symm, ← hmem]
      exact mem_cons_self
    · exact mem_cons_of_mem _ (hrs.2 s init sc hmem)

end

def Gaps.none : Gaps := ⟨fun _ => False, fun _ => False⟩

theorem Gaps.not_declaring_none : ¬ Gaps.none.declaring := fun ⟨_, hs⟩ => hs

section

variable (hh : h.Sound)
include hh

/-- A variable that waited for its initial value has its type afterwards. -/
theorem analyseItem_ok {items : List PendingItem} (hi : item.Fits p) :
    ReportsOr (fun _ _ => False) h (gaps ⟨item :: items, []⟩ Gaps.none.types)
      (gaps ⟨items, []⟩ Gaps.none.types) p (analyseItem item) fun _ _ => True := by
  cases item with
  | func s =>
    have hG : ¬ (gaps ⟨items, []⟩ Gaps.none.types).declaring := Gaps.not_declaring_none
    refine .before (gaps ⟨items, []⟩ Gaps.none.types)
      (fun hp => hp.weaken ?_ fun _ => id) (hh.signature hG)
    rintro t ⟨init, sc, hmem⟩
    exact ⟨init, sc, (mem_cons.mp hmem).resolve_left nofun⟩
  | var s type init sc =>
    obtain ⟨heager, hgiven, ht, hinit⟩ := hi
    have hopen : ¬ ((gaps ⟨items, []⟩ Gaps.none.types).open s).declaring := Gaps.not_declaring_none
    refine .imp (.gaps (initVariable_ok hh hopen heager hgiven ht hinit)
      (fun hp => hp.weaken ?_ fun _ => id) fun _ _ _ hs hsound => hsound.close hs.hasVariable)
      fun _ _ _ _ _ => trivial
    rintro t ⟨init', sc', hmem⟩
    rcases mem_cons.mp hmem with hmem | hmem
    · cases hmem
      exact .inr rfl
    · exact .inl ⟨init', sc', hmem⟩

theorem analyseItems_ok (items : List PendingItem) (hitems : ∀ i ∈ items, i.Fits p) :
    ReportsOr (fun _ _ => False) h (gaps ⟨items, []⟩ Gaps.none.types) .none p
      (items.forM analyseItem) fun _ _ => True := by
  induction items generalizing p with
  | nil =>
    exact .before .none (fun hp => hp.weaken nofun fun _ => id) (.pure trivial)
  | cons item items ih =>
    obtain ⟨hi, hitems⟩ := forall_mem_cons.mp hitems
    exact .bind (analyseItem_ok hh hi) fun _ q hpq _ _ => ih fun i hi => (hitems i hi).mono hpq

theorem analyseItemBody_ok : ReportsOnly h .none p (analyseItemBody item) := by
  cases item with
  | var s type init sc => exact .pure trivial
  | func s => exact hh.body Gaps.not_declaring_none

theorem analyseModule_ok {m : ModuleDecl} (hm : ∀ d ∈ m.decls, d.Fits p.reach) :
    ReportsOnly h .none p (analyseModule m) := by
  refine .bind (addSymbol_ok id fun _ => trivial) fun symbol q1 h1 _ _ => ?_
  refine .bind aside_ok fun _ q2 h2 _ _ => ?_
  refine .bind globalScope_ok fun sc q3 h3 _ _ => ?_
  have hdecls : ∀ d ∈ m.decls, d.Fits q3.reach := fun d hd =>
    (hm d hd).mono (h1.trans (h2.trans h3)).reach
  have hdeclared : Declares h Gaps.none.types q3 {} (declareAll m.decls sc symbol) :=
    declareAll_each _ (fun d hd => declare_declares (hdecls d hd)) (Reach.le_refl _) nofun
  refine .bind (.before (gaps {} Gaps.none.types)
    (fun hp => hp.weaken nofun fun _ => id) hdeclared) fun found q4 h4 _ hfound => ?_
  refine .before (found.2.gaps Gaps.none.types) (fun _ => hfound.1) ?_
  refine .bind (note_ok fun _ => trivial) fun _ q5 h5 _ _ => ?_
  refine .bind (forM_ok _ fun _ _ _ _ => resolveBase_ok) fun _ q6 h6 _ _ => ?_
  have hitems := hfound.2.mono (h5.trans h6)
  have hG : ¬ (found.2.gaps Gaps.none.types).declaring := Gaps.not_declaring_none
  refine .bind (resolveItems_ok hG found.2.items hitems) fun items q7 h7 _ hitems => ?_
  refine .before (gaps ⟨items, []⟩ Gaps.none.types) (fun hp => hp.weaken ?_ fun _ => id) ?_
  · rintro s ⟨init, sc, hmem⟩
    exact ⟨init, sc, hitems.2 s init sc hmem⟩
  refine .bind (analyseItems_ok hh items hitems.1) fun _ q8 h8 _ _ => ?_
  exact .bind (forM_ok _ fun _ _ _ _ => analyseItemBody_ok hh) fun _ _ _ _ _ =>
    .pure trivial

end

end DCompiler
