import DCompiler.Proofs.Sentinels.Calls

/-!
# Statements, without silent failures

A statement refers to expressions that are there, before and after it was analysed. A variable of a
written type has it from the start; one without has none until its initial value was analysed, and
for that time it is a gap (`Gaps.open`, `Tables.Sound.close`).
-/

namespace DCompiler

open Analyse List Option SymbolTable

variable {h : Analyser} {G : Gaps} {p : Tables}
variable {s : SymbolId} {name : String} {init : Option ExprId} {sc : ScopeId} {place : Span}

/-! ## Variables -/

def Gaps.open (G : Gaps) (s : SymbolId) : Gaps where
  vars t := G.vars t ∨ t = s
  types := G.types

theorem Tables.Sound.close (hp : p.Sound (G.open s)) (hs : p.HasVariable s) : p.Sound G := by
  refine hp.regap (fun t v hk h => h.close fun heq => ?_) (fun _ _ _ => id) fun _ _ _ => id
  obtain ⟨w, hw, hknown⟩ := hs
  rw [← heq, var?_eq_some.mpr hk] at hw
  cases hw
  exact hknown

theorem openVariable_ok {span : Span} {v : Variable} {parent : Option SymbolId}
    (ht : v.type.KnownOr p.reach ((G.open ⟨p.symbols.size⟩).vars ⟨p.symbols.size⟩))
    (hinit : v.init = none) (heager : v.storage.contains .lazy = false) :
    ReportsOr (fun _ _ => False) h G (G.open ⟨p.symbols.size⟩) p
      (addSymbol name span (.var v) parent) fun q s => s = ⟨p.symbols.size⟩ ∧ q.Eager s := by
  refine .imp (addSymbol_ok (fun hp => hp.weaken (fun _ => .inl) fun _ => id)
    fun _ => .of_eager ht hinit heager) ?_
  rintro q _ - - ⟨rfl, rfl⟩
  exact ⟨rfl, v, Tables.var?_withSymbol, heager⟩

/-- A variable with its type, and with an initial value if it has to have one. -/
def Tables.Initialised (p : Tables) (s : SymbolId) (given : Bool) : Prop :=
  ∃ v, p.symbols.var? s = some v ∧ v.type.Known p.reach ∧ (given = true → v.init.isSome)

theorem Tables.Initialised.hasVariable {given : Bool} (hs : p.Initialised s given) :
    p.HasVariable s :=
  let ⟨v, hv, hknown, _⟩ := hs
  ⟨v, hv, hknown⟩

theorem storeVariable_ok {type : TypeId} (hs : p.Eager s) (ht : type.Known p.reach)
    (hinit : ∀ e ∈ init, p.Typed e) :
    Reports h G p (storeVariable s type init) fun q _ => q.Initialised s init.isSome := by
  obtain ⟨v, hv, heager⟩ := hs
  refine .imp (note_ok fun _ => ⟨ht, fun e he => (hinit e he).inside, ?_⟩) ?_
  · intro w hw
    rw [hv] at hw
    cases hw
    exact heager
  · rintro q _ hpq - rfl
    have hkind := var?_eq_some.mp hv
    have hlt : s.index < p.symbols.size := by
      refine Nat.lt_of_not_le fun hle => ?_
      rw [kind_of_size_le hle] at hkind
      cases hkind
    refine ⟨{ v with type := type, init := init }, ?_, hpq.known ht, id⟩
    rw [var?_eq_some, kind_modifyKind, if_pos ⟨rfl, hlt⟩, hkind]
    rfl

section

variable (hh : h.Sound) (hG : ¬ G.declaring) {type : Option TypeId} {body : StmtId}
include hh hG

theorem initVariable_ok (hs : p.Eager s) (hgiven : type.isSome ∨ init.isSome)
    (ht : ∀ t ∈ type, t.Known p.reach) (hinit : ∀ e ∈ init, e.In p.reach) :
    Reports h G p (initVariable s type init sc) fun q _ => q.Initialised s init.isSome := by
  refine .tables (.bind (optionMapM_ok (Q := fun q t => t.Known q.reach) type fun t hmem =>
    (resolveType_known hG (ht t hmem)).imp fun _ _ _ _ ht => ht.1)
    fun declared q hpq hq hdeclared => .ask ?_)
  have hknown : declared.any q.types.isError = false := by
    cases declared with
    | none => rfl
    | some t => exact hq.types.isError_eq (hdeclared.1 t rfl)
  rw [hknown]
  refine .bind (optionMapM_ok init fun e he =>
    .bind (value_ok hh hG (hpq.inside (hinit e he))) fun _ _ _ _ hv => .unlessRefused (.pure hv))
    fun value r hqr _ hvalue => ?_
  have hpr := hpq.trans hqr
  extract_lets store
  have hstore {q : Tables} {type : TypeId} {value : Option ExprId} (hpq : p.Onward q)
      (ht : type.Known q.reach) (hvalue : ∀ e ∈ value, q.Typed e)
      (hsome : init.isSome → value.isSome) :
      Reports h G q (store (type, value)) fun q _ => q.Initialised s init.isSome := by
    refine .tables ?_
    split
    · exact .error
    refine .imp (storeVariable_ok (hs.mono hpq) ht hvalue) fun r _ _ _ hr => ?_
    obtain ⟨v, hv, hknown, hi⟩ := hr
    exact ⟨v, hv, hknown, fun hi' => hi (hsome hi')⟩
  cases declared with
  | some t =>
    have ht := hqr.known (hdeclared.1 t rfl)
    cases value with
    | some e =>
      refine .ask (.bind (convert_ok (hvalue.1 e rfl)) fun c u hru _ hc => .given ?_)
      refine hstore (hpr.trans hru) (hru.known ht) ?_ fun _ => rfl
      rintro _ ⟨⟩
      exact hc
    | none =>
      refine .given (hstore hpr ht nofun fun hi => ?_)
      rw [(hvalue.2 rfl).1] at hi
      cases hi
  | none =>
    cases value with
    | some e =>
      refine .intro fun hr => .ask (.given ?_)
      refine hstore hpr (hr.known_typeOf (hvalue.1 e rfl)) ?_ fun _ => rfl
      rintro _ ⟨⟩
      exact hvalue.1 e rfl
    | none =>
      rw [(hdeclared.2 rfl).1, (hvalue.2 rfl).1] at hgiven
      rcases hgiven with hgiven | hgiven <;> cases hgiven

/-- A local variable is a gap only inside its own initial value. -/
theorem localVariable_ok {storage : StorageClass}
    (hd : DeclaredVariable type init storage p.reach) :
    Reports h G p (localVariable name type init storage sc place) fun q s =>
      q.Initialised s init.isSome := by
  unfold localVariable
  extract_lets rest
  have hrest (owner : Option SymbolId) :
      Reports h G p (rest owner) fun q s => q.Initialised s init.isSome := by
    refine .bind enclosing_ok fun parent r hpr _ _ => ?_
    have hd := hd.mono hpr.reach
    have hopen : ¬ (G.open ⟨r.symbols.size⟩).declaring := hG
    have htype : (type.getD .error).KnownOr r.reach
        ((G.open ⟨r.symbols.size⟩).vars ⟨r.symbols.size⟩) := by
      cases type with
      | some t => exact .inl (hd.known t rfl)
      | none => exact .inr ⟨rfl, .inr rfl⟩
    refine .bind (openVariable_ok htype rfl hd.eager) ?_
    rintro s u hru - ⟨rfl, heager⟩
    refine .bind bindName_ok fun _ w huw _ _ => ?_
    have hd := hd.mono (hru.trans huw).reach
    refine .bind ((initVariable_ok hh hopen (heager.mono huw) hd.given hd.known
      hd.within).gaps id fun _ _ _ hs hsound => hsound.close hs.hasVariable)
      fun _ _ _ _ hs => .pure hs
  split
  · exact .given (hrest none)
  · exact .ask (hrest _)

/-! ## Functions and loops -/

omit hh hG in
theorem optionForM_ok {α : Type} {f : α → Analyse PUnit} (a : Option α)
    (hf : ∀ x ∈ a, ReportsOnly h G p (f x)) :
    ReportsOnly h G p (a.forM f) := by
  cases a with
  | none => exact .pure trivial
  | some x => exact hf x rfl

theorem localFunction_ok {d : FunctionDecl} (hd : d.Fits p.reach) :
    ReportsOnly h G p (localFunction d sc) := by
  refine .bind enclosing_ok fun parent q hpq _ _ => ?_
  have hd := hd.mono hpq.reach
  split
  · exact declareTemplate_ok hd
  refine .ask (.bind (declareFunction_ok hd) fun s r _ _ _ => ?_)
  exact .bind (hh.signature hG) fun _ _ _ _ _ => .bind (hh.body hG) fun _ _ _ _ _ =>
    .pure trivial

theorem loopBody_ok : ReportsOnly h G p (loopBody body sc) :=
  .bind pushScope_ok fun _ _ _ _ _ => .bind noteScope_ok fun _ _ _ _ _ =>
    nested_ok (hh.stmt hG)

omit hh hG in
theorem frameConstructed_ok : ReportsOnly h G p frameConstructed :=
  .context fun _ _ => .pure trivial

theorem branches_ok {yes : StmtId} {no : Option StmtId} :
    ReportsOnly h G p (branches yes no sc) := by
  refine .bind frameConstructed_ok fun before q _ _ _ => ?_
  refine .bind pushScope_ok fun inner r _ _ _ => .bind (hh.stmt hG) fun _ u _ _ _ => ?_
  cases no with
  | none => exact .pure trivial
  | some no =>
    refine .bind frameConstructed_ok fun afterYes _ _ _ _ => ?_
    refine .bind aside_ok fun _ _ _ _ _ => ?_
    refine .bind pushScope_ok fun inner _ _ _ _ => .bind (hh.stmt hG) fun _ _ _ _ _ => ?_
    refine .bind frameConstructed_ok fun afterNo _ _ _ _ => ?_
    exact aside_ok

theorem foreachRange_ok {lower upper : ExprId} (hl : lower.In p.reach) (hu : upper.In p.reach) :
    Reports h G p (foreachRange name lower upper body sc place) fun q s => s.Fits q.reach := by
  refine .bind pushScope_ok fun inner q1 h1 _ _ => ?_
  refine .bind (value_ok hh hG (h1.inside hu)) fun upper q2 h2 _ hu => ?_
  refine .bind (value_ok hh hG ((h1.trans h2).inside hl)) fun lower q3 h3 hq3 hl => ?_
  have hu := h3.typed hu
  refine .unlessError hu (.ask (.bind (convert_ok hl) fun lower q4 h4 _ hl => .ask ?_))
  refine .bind enclosing_ok fun parent q5 h5 _ _ => ?_
  have htype := (h4.trans h5).known (hq3.known_typeOf hu)
  have hnone : StorageClass.none.contains .lazy = false := by decide
  refine .bind (addVariable_ok htype rfl hnone) fun s q6 h6 _ _ => ?_
  refine .bind overwrite_ok fun _ q7 h7 _ _ => ?_
  refine .bind (loopBody_ok hh hG) fun _ q8 h8 _ _ => .pure (fits_stmt ?_ nofun nofun)
  have h58 := h5.trans (h6.trans (h7.trans h8))
  exact forall_mem_cons.mpr ⟨(h58.typed hl).inside, forall_mem_singleton.mpr
    ((h4.trans h58).typed hu).inside⟩

/-! ## Returned values -/

omit hh hG in
theorem returnedValue_ok {v : ExprId} {func : SymbolId} {result : TypeId} (hv : p.Typed v) :
    ReportsTyped h G p (returnedValue v func result place) := by
  refine .intro fun hp => .tables ?_
  rw [hp.isError_eq hv]
  split
  · contradiction
  split
  · split
    · exact .pure hv
    · exact .fail
  refine .bind (convert_ok hv) fun c q _ _ hc => .tables ?_
  split
  · exact .fail
  · exact .pure hc

theorem returnStmt_ok {v : Option ExprId} (hv : ∀ e ∈ v, e.In p.reach) :
    Reports h G p (returnStmt v sc place) fun q r => ∀ e ∈ r, e.In q.reach := by
  refine .tables ?_
  split
  · exact .pure nofun
  split
  · exact .pure hv
  cases v with
  | none =>
    refine .bind (noteFunc_ok nofun) fun _ q _ _ _ => ?_
    split
    · exact .error
    · exact .pure nofun
  | some v =>
    refine .bind (value_ok hh hG (hv v rfl)) fun v q _ _ hv => .unlessRefused (.given ?_)
    refine .bind (noteFunc_ok nofun) fun _ r hqr _ _ => ?_
    refine .bind (returnedValue_ok (hqr.typed hv)) fun v u _ _ hv => .pure ?_
    rintro _ ⟨⟩
    exact hv.inside

theorem exprStmt_ok {e : ExprId} (he : e.In p.reach) : ReportsTyped h G p (exprStmt e sc) :=
  .bind (value_ok hh hG he) fun _ _ _ _ hv => .unlessRefused (.pure hv)

/-! ## All statements -/

theorem stmtKind_ok {s : Stmt} (hs : s.Fits p.reach) :
    Reports h G p (stmtKind s sc place) fun q r => r.Fits q.reach := by
  have hsame {x : Analyse Unit} (hx : ReportsOnly h G p x) :
      Reports h G p (do
        x
        return s) fun q r => r.Fits q.reach :=
    .bind hx fun _ _ hpq _ _ => .pure (hs.mono hpq.reach)
  cases s with
  | expr e =>
    refine .bind (exprStmt_ok hh hG (hs.exprs e mem_cons_self)) fun v q _ _ hv => .pure ?_
    exact fits_stmt (forall_mem_singleton.mpr hv.inside) nofun nofun
  | varDecl name type init storage symbol =>
    have hd := hs.declared rfl
    refine .bind (localVariable_ok hh hG hd) fun s q hpq hq hvar => .ask (.pure ?_)
    obtain ⟨v, hv, -, hinit⟩ := hvar
    rw [hv]
    have hwithin : ∀ e ∈ v.init, e.In q.reach := (hq.var hv).init
    refine ⟨fun e he => hwithin e (mem_toList.mp he), ?_, nofun⟩
    rintro _ _ _ _ _ ⟨⟩
    have hd := hd.mono hpq.reach
    exact ⟨hd.given.imp_right hinit, hd.eager, hd.known, hwithin⟩
  | funcDecl d symbol =>
    have hd := hs.function rfl
    refine .bind (localFunction_ok hh hG hd) fun s q hpq _ _ => .pure ⟨nofun, nofun, ?_⟩
    rintro _ _ ⟨⟩
    exact hd.mono hpq.reach
  | block stmts => exact hsame (forM_ok _ fun _ _ _ _ => hh.stmt hG)
  | scope body =>
    exact .bind pushScope_ok fun _ _ hpq _ _ => .bind (hh.stmt hG)
      fun _ _ hqr _ _ => .pure (hs.mono (hpq.trans hqr).reach)
  | ifElse test yes no =>
    refine .bind (condition_ok hh hG (hs.exprs test mem_cons_self)) fun test q _ _ ht => ?_
    refine .bind (branches_ok hh hG) fun _ r hqr _ _ => .pure (fits_stmt ?_ nofun nofun)
    exact forall_mem_singleton.mpr (hqr.typed ht).inside
  | whileLoop test body =>
    refine .bind (condition_ok hh hG (hs.exprs test mem_cons_self)) fun test q _ _ ht => ?_
    refine .bind (loopBody_ok hh hG) fun _ r hqr _ _ => .pure (fits_stmt ?_ nofun nofun)
    exact forall_mem_singleton.mpr (hqr.typed ht).inside
  | forLoop init test incr body =>
    have htest : ∀ e ∈ test, e.In p.reach := fun e he =>
      hs.exprs e (mem_append_left _ (mem_toList.mpr he))
    have hincr : ∀ e ∈ incr, e.In p.reach := fun e he =>
      hs.exprs e (mem_append_right _ (mem_toList.mpr he))
    refine .bind pushScope_ok fun inner q1 h1 _ _ => ?_
    refine .bind (optionForM_ok init fun _ _ => hh.stmt hG) fun _ q2 h2 _ _ => ?_
    refine .bind (optionMapM_ok test fun e he =>
      condition_ok hh hG ((h1.trans h2).inside (htest e he))) fun test q3 h3 _ htest => ?_
    refine .bind (optionMapM_ok incr fun e he => exprStmt_ok hh hG
      ((h1.trans (h2.trans h3)).inside (hincr e he))) fun incr q4 h4 _ hincr => ?_
    refine .bind (loopBody_ok hh hG) fun _ q5 h5 _ _ => .pure (fits_stmt ?_ nofun nofun)
    intro e he
    rcases mem_append.mp he with he | he
    · exact ((h4.trans h5).typed (htest.1 e (mem_toList.mp he))).inside
    · exact (h5.typed (hincr.1 e (mem_toList.mp he))).inside
  | foreachRange name lower upper body symbol =>
    exact foreachRange_ok hh hG (hs.exprs lower mem_cons_self)
      (hs.exprs upper (mem_cons_of_mem _ mem_cons_self))
  | ret v =>
    refine .bind (returnStmt_ok hh hG fun e he => hs.exprs e (mem_toList.mpr he))
      fun r q _ _ hr => .pure (fits_stmt (fun e he => hr e (mem_toList.mp he)) nofun nofun)
  | breakLoop => exact hsame (.context fun _ _ => check_ok)
  | continueLoop => exact hsame (.context fun _ _ => check_ok)
  | label name body =>
    exact .bind noteScope_ok fun _ _ hpq _ _ => .bind (hh.stmt hG)
      fun _ _ hqr _ _ => .pure (hs.mono (hpq.trans hqr).reach)

theorem statement_ok {s : StmtId} : ReportsOnly h G p (statement s sc) := by
  refine .intro fun hp => .ask (.bind (stmtKind_ok hh hG (hp.stmts s)) fun k q _ _ hk => ?_)
  exact setStmt_ok hk

end

end DCompiler
