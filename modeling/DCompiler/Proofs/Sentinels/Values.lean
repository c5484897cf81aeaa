import DCompiler.Proofs.Sentinels.Types

/-!
# Conversions and values, without silent failures

The rules that turn expressions into others: conversions, values, conditions, literals, casts and
attempts. They rest on what an analyser answers (`Analyser.Sound`).
-/

namespace DCompiler

open Analyse List TypeId

variable {k : Expr} {e operand : ExprId} {target t : TypeId} {β : Type} {args : List ExprId}
  {sc : ScopeId}

/-- An analyser whose answers report. -/
structure Analyser.Sound (h : Analyser) : Prop where
  expr : ∀ {G : Gaps} {p : Tables} {e : ExprId} {sc : ScopeId}, ¬ G.declaring → e.In p.reach →
    ReportsTyped h G p (analyseExpr e sc)
  stmt : ∀ {G : Gaps} {p : Tables} {s : StmtId} {sc : ScopeId}, ¬ G.declaring →
    ReportsOnly h G p (analyseStmt s sc)
  signature : ∀ {G : Gaps} {p : Tables} {s : SymbolId}, ¬ G.declaring →
    ReportsOnly h G p (analyseSignature s)
  body : ∀ {G : Gaps} {p : Tables} {s : SymbolId}, ¬ G.declaring → ReportsOnly h G p (analyseBody s)
  arrayOp : ∀ {G : Gaps} {p : Tables} {e : ExprId}, ¬ G.declaring → p.Typed e →
    Reports h G p (arrayOpEntry e) fun q entry =>
      ∀ f, entry.callee = some f → q.isFunction f = true

variable {h : Analyser} {G : Gaps} {p : Tables} {α : Type} {first : ExprId} {elem : TypeId}

/-! ## Conversions -/

theorem castTo_ok (he : p.Typed e) (ht : target.Known p.reach) :
    ReportsTyped h G p (castTo e target) := by
  refine .tables ?_
  dsimp only
  split
  · exact .pure he
  refine typed_ok ?_
  have hcast : p.Accepts (.cast e target) target :=
    ⟨by simpa [Expr.children] using he, by simpa [Expr.types] using ht, ht, trivial⟩
  split
  · rename_i s t _ _
    cases hfolded : foldedCast (p.exprs.kind e) s t with
    | none => exact hcast
    | some k =>
      rcases foldedCast_literal hfolded with ⟨_, rfl⟩ | ⟨_, rfl⟩ <;>
        exact ⟨forall_mem_nil _, forall_mem_nil _, ht, trivial⟩
  · exact hcast

theorem mapM_ok {f : α → Analyse β} {Q : Tables → β → Prop}
    (hQ : ∀ {q r b}, q.Onward r → Q q b → Q r b) (as : List α)
    (hf : ∀ a ∈ as, ∀ q, p.Onward q → Reports h G q (f a) Q) :
    Reports h G p (as.mapM f) fun q bs => ∀ b ∈ bs, Q q b := by
  induction as generalizing p with
  | nil => exact .pure nofun
  | cons a as ih =>
    rw [mapM_cons]
    refine .bind (hf a mem_cons_self p .refl) fun b q hpq _ hb => ?_
    refine .bind (ih fun c hc r hqr => hf c (mem_cons_of_mem a hc) r (hpq.trans hqr))
      fun bs r hqr _ hbs => .pure ?_
    rintro c (_ | ⟨_, hc⟩)
    · exact hQ hqr hb
    · exact hbs c hc

theorem forM_ok {f : α → Analyse PUnit} (as : List α)
    (hf : ∀ a ∈ as, ∀ q, p.Onward q → ReportsOnly h G q (f a)) :
    ReportsOnly h G p (as.forM f) := by
  induction as generalizing p with
  | nil => exact .pure trivial
  | cons a as ih =>
    exact .bind (hf a mem_cons_self p .refl) fun _ q hpq _ _ =>
      ih fun c hc r hqr => hf c (mem_cons_of_mem a hc) r (hpq.trans hqr)

theorem convert_ok (he : p.Typed e) : ReportsTyped h G p (convert e target) := by
  induction hn : target.index using Nat.strongRecOn generalizing p e target with
  | ind n ih =>
    subst hn
    refine .intro fun hp => ?_
    rw [convert]
    refine .tables ?_
    dsimp only
    split
    · exact .pure he
    rename_i hcond
    have ht : target.Known p.reach := by
      refine hp.types.known_iff.mpr fun hk => ?_
      simp [TypeTable.isError, hk] at hcond
    split
    · exact .fail
    have harray {elems : List ExprId} {elem : TypeId} (hk : p.exprs.kind e = .array elems) :
        ReportsTyped h G p (do
          let elems ← elems.mapM fun x =>
            if elem.index < target.index then convert x elem else pure x
          settle e (.array elems) target) := by
      refine .bind (mapM_ok (Q := fun q r => q.Typed r) (fun hqr => hqr.typed) elems
        fun x hx q hpq => ?_) fun elems' q hpq _ helems => ?_
      · have hxq := hpq.typed (hp.typed_children he hk x hx)
        split
        · exact ih _ ‹_› hxq rfl
        · exact .pure hxq
      · exact settle_ok (hpq.inside he.inside) ⟨helems, forall_mem_nil _, hpq.known ht, trivial⟩
    have haddress {s : SymbolId} : ReportsTyped h G p
        (if p.isFunction s = true then do
          noteFunc s .addressTaken
          typed (.unary .addressOf e) (p.exprs.span e) target
        else castTo e target) := by
      split
      · refine .bind (note_ok fun _ => trivial) fun _ q hpq _ _ => ?_
        exact typed_ok ⟨by simpa [Expr.children] using hpq.typed he, forall_mem_nil _, hpq.known ht,
          trivial⟩
      · exact castTo_ok he ht
    split
    · exact harray ‹_›
    · exact harray ‹_›
    · exact haddress
    · exact haddress
    · exact castTo_ok he ht

/-! ## Values -/

theorem checkValue_ok (he : p.Typed e) : ReportsTyped h G p (checkValue e) := by
  refine .ask ?_
  split
  · exact .ask (.ask .fail)
  · exact .ask (.ask .fail)
  · exact .ask (.ask .fail)
  · exact .pure he

theorem known_lazyType (hp : p.Sound G) (he : p.types.IsDelegate (p.typeOf e)) :
    (lazyType p e).Known p.reach := by
  obtain ⟨f, hf⟩ := he
  have hkind : p.types.kind (p.typeOf e) = .delegate f := by simp [TypeTable.kind, hf]
  have hbase : p.types.base (p.typeOf e) = p.typeOf e := by
    unfold TypeTable.base
    rw [hkind]
  have hnext : p.types.next? (p.typeOf e) = some f := by
    rw [TypeTable.next?, TypeTable.baseKind, hbase, hkind]
  obtain ⟨sig, hsig⟩ := (hp.types.delegates hf).signature
  have hlazy : lazyType p e = sig.result := by simp [lazyType, hnext, hsig]
  rw [hlazy]
  have hfunc : p.types.kind f = .function sig := by
    simp [TypeTable.kind, TypeTable.kinds_of_signature hsig]
  exact hp.types.known_component hfunc (by simp [TypeKind.components])

theorem typed_single (he : p.Typed e) (hk : k.children = [e]) : ∀ c ∈ k.children, p.Typed c := by
  rw [hk]
  exact forall_mem_singleton.mpr he

theorem fits_single (he : e.In p.reach) (hk : k.children = [e]) (htypes : k.types = []) :
    k.Fits p.reach := by
  refine ⟨?_, ?_⟩
  · rw [hk]
    exact forall_mem_singleton.mpr he
  · rw [htypes]
    nofun

theorem fits_call {callee : ExprId} (hc : callee.In p.reach) (hargs : ∀ a ∈ args, a.In p.reach) :
    (Expr.call callee args).Fits p.reach :=
  ⟨forall_mem_cons.mpr ⟨hc, hargs⟩, nofun⟩

section

variable (hh : h.Sound) (hG : ¬ G.declaring)
include hh hG

theorem madeCall_ok {callee : ExprId} {span : Span} (hc : callee.In p.reach)
    (hargs : ∀ a ∈ args, a.In p.reach) :
    Reports h G p (do analyseExpr (← addExpr (.call callee args) span) sc) fun q r =>
      q.Typed r :=
  .bind (addExpr_ok rfl (fits_call hc hargs)) fun _ _ _ _ hr => hh.expr hG hr

theorem toValue_ok (he : p.Typed e) : ReportsTyped h G p (toValue e sc) := by
  refine .intro fun hp => .tables ?_
  rw [hp.isError_eq he]
  have hcall : ReportsTyped h G p (do analyseExpr (← addExpr (.call e []) (p.exprs.span e)) sc) :=
    madeCall_ok hh hG he.inside nofun
  split
  · contradiction
  split
  · rename_i s hk
    split
    · exact hcall
    split
    · rename_i hfunction hlazy
      refine typed_ok ⟨typed_single he rfl, nofun, known_lazyType hp ?_, trivial⟩
      rcases hp.backs he hk with ⟨v, hv, hdelegate⟩ | ⟨hs, -⟩
      · exact hdelegate (by simpa [hv] using hlazy)
      · exact absurd hs hfunction
    · exact checkValue_ok he
  · split
    · exact hcall
    · exact checkValue_ok he
  · exact checkValue_ok he

theorem value_ok (he : e.In p.reach) : ReportsTyped h G p (value e sc) :=
  .bind (hh.expr hG he) fun _ _ _ _ hr => toValue_ok hh hG hr

theorem values_ok (es : List ExprId) (hes : ∀ e ∈ es, e.In p.reach) :
    Reports h G p (values sc es) fun q r =>
      ∃ vs, r = .ok vs ∧ (∀ v ∈ vs, q.Typed v) ∧ vs.length = es.length := by
  induction es generalizing p with
  | nil => exact .pure ⟨[], rfl, nofun, rfl⟩
  | cons e es ih =>
    refine .bind (value_ok hh hG (hes e mem_cons_self)) fun v q hpq _ hv => ?_
    refine .unlessError hv ?_
    refine .bind (ih fun c hc => hpq.inside (hes c (mem_cons_of_mem e hc)))
      fun r u hqu _ hr => .pure ?_
    obtain ⟨vs, rfl, hvs, hlength⟩ := hr
    exact ⟨v :: vs, rfl, forall_mem_cons.mpr ⟨hqu.typed hv, hvs⟩, by simp [hlength]⟩

theorem condition_ok (he : e.In p.reach) : ReportsTyped h G p (condition e sc) := by
  refine .bind (value_ok hh hG he) fun v q _ _ hv => .unlessError hv (.tables ?_)
  split
  · exact .fail
  dsimp only
  split
  · exact .pure hv
  · exact .fail

theorem operatorCall_ok {base : ExprId} {name : String} (hbase : base.In p.reach)
    (hargs : ∀ a ∈ args, a.In p.reach) :
    Reports h G p (operatorCall e base name args sc) fun q r => ∀ c ∈ r, q.Typed c := by
  refine .tables ?_
  split
  · exact .pure nofun
  refine .bind (addExpr_ok rfl (fits_single hbase rfl rfl)) fun callee q hpq _ hc => ?_
  refine .bind (addExpr_ok rfl (fits_call hc fun a ha => hpq.inside (hargs a ha)))
    fun call r hqr _ hr => ?_
  refine .bind (hh.expr hG hr) fun c u _ _ hc => .pure ?_
  rintro _ ⟨⟩
  exact hc

end

theorem modifiable_ok (he : p.Typed e) : Reports h G p (modifiable e) fun q r => q = p ∧ r = e := by
  refine .intro fun hp => .tables ?_
  rw [hp.isError_eq he]
  split
  · contradiction
  split
  · exact .fail
  split
  · split
    · exact .fail
    · exact .pure ⟨rfl, rfl⟩
  · exact .pure ⟨rfl, rfl⟩

theorem refuseArrayOperation_ok :
    Reports h G p (refuseArrayOperation e) fun q r => q = p ∧ r = false := by
  refine .tables ?_
  split
  · exact .error
  · exact .pure ⟨rfl, rfl⟩

theorem ReportsOr.unlessRefused {E R : Tables → β → Prop} {G2 : Gaps} {y rest : Analyse β}
    (hrest : ReportsOr E h G G2 p rest R) :
    ReportsOr E h G G2 p (refuseArrayOperation e >>= fun b => if b = true then y else rest) R := by
  refine .bind refuseArrayOperation_ok ?_
  rintro b q - - ⟨rfl, rfl⟩
  exact hrest

/-! ## Literals -/

theorem integer_ok {value : UInt64} {type : TypeId} {span : Span}
    (ht : type.Known p.reach) : ReportsTyped h G p (integer value type span) :=
  .ask (typed_ok ⟨nofun, nofun, ht, trivial⟩)

theorem convertAll_ok (es : List ExprId) (hes : ∀ e ∈ es, p.Typed e) :
    Reports h G p (convertAll target es) fun q r =>
      ∃ vs, r = .ok vs ∧ ∀ v ∈ vs, q.Typed v := by
  induction es generalizing p with
  | nil => exact .pure ⟨[], rfl, nofun⟩
  | cons e es ih =>
    refine .bind (convert_ok (hes e mem_cons_self)) fun v q hpq _ hv => ?_
    refine .unlessError hv ?_
    refine .bind (ih fun c hc => hpq.typed (hes c (mem_cons_of_mem e hc)))
      fun r u hqu _ hr => .pure ?_
    obtain ⟨vs, rfl, hvs⟩ := hr
    exact ⟨v :: vs, rfl, forall_mem_cons.mpr ⟨hqu.typed hv, hvs⟩⟩

theorem known_joinElement (hp : p.Sound G) {next : ExprId} (helem : elem.Known p.reach)
    (hnext : p.Typed next) (ht : joinElement p first elem next = some t) : t.Known p.reach := by
  have htype := hp.known_typeOf hnext
  unfold joinElement at ht
  dsimp only at ht
  split at ht
  · cases ht
    exact helem
  split at ht
  · cases ht
    exact known_ofScalar
  split at ht
  · cases ht
    exact helem
  split at ht
  · cases ht
    exact htype
  · cases ht

theorem known_elementType (hp : p.Sound G) (rest : List ExprId) (helem : elem.Known p.reach)
    (hrest : ∀ e ∈ rest, p.Typed e) (ht : elementType p first elem rest = .ok t) :
    t.Known p.reach := by
  induction rest generalizing elem with
  | nil =>
    cases ht
    exact helem
  | cons next rest ih =>
    unfold elementType at ht
    split at ht
    · rename_i hjoin
      exact ih (known_joinElement hp helem (hrest next mem_cons_self) hjoin)
        (fun e he => hrest e (mem_cons_of_mem next he)) ht
    · cases ht

section

variable (hh : h.Sound) (hG : ¬ G.declaring) {elems : List ExprId} {arg : ExprId}
include hh hG

theorem arrayLiteral_ok (he : e.In p.reach) (hk : p.exprs.kind e = .array elems) :
    ReportsTyped h G p (arrayLiteral e elems sc) := by
  refine .intro fun hp => ?_
  have helems : ∀ c ∈ elems, c.In p.reach := by
    have hfits := hp.fits he
    rw [hk] at hfits
    exact hfits.children
  cases elems with
  | nil =>
    refine .bind (.pure (R := fun q r => q = p ∧ r = .ok []) ⟨rfl, rfl⟩) ?_
    rintro _ _ - - ⟨rfl, rfl⟩
    refine .bind (intern_single_ok known_ofScalar (.inr (.inl rfl))) fun t q hpq _ ht => ?_
    have hkind : q.exprs.kind e = .array [] := by rw [ht.2.2, hk]
    refine .imp (setType_ok (hpq.inside he) ?_) fun _ _ _ _ hr => hr.1 ▸ hr.2.1
    rw [hkind]
    exact ⟨nofun, nofun, ht.1, trivial⟩
  | cons elem elems =>
    refine .bind (values_ok hh hG (elem :: elems) helems) fun r q hpq hq hr => ?_
    obtain ⟨vs, rfl, hvs, hlength⟩ := hr
    cases vs with
    | nil => cases hlength
    | cons first rest =>
      refine .tables ?_
      split
      · exact .fail
      rename_i t ht
      have hknown := known_elementType hq rest (hq.known_typeOf (hvs first mem_cons_self))
        (fun c hc => hvs c (mem_cons_of_mem first hc)) ht
      refine .bind (convertAll_ok (first :: rest) hvs) fun r u hqu _ hr => ?_
      obtain ⟨ws, rfl, hws⟩ := hr
      refine .bind (intern_single_ok (hqu.known hknown) (.inr (.inl rfl)))
        fun type w huw _ htype => ?_
      exact settle_ok ((hpq.trans (hqu.trans huw)).inside he)
        ⟨fun c hc => huw.typed (hws c hc), nofun, htype.1, trivial⟩

theorem fieldValues_ok (fields : List (ExprId × SymbolId))
    (hfields : ∀ f ∈ fields, f.1.In p.reach) :
    Reports h G p (fieldValues sc fields) fun q r => ∃ vs, r = .ok vs ∧ ∀ v ∈ vs, q.Typed v := by
  induction fields generalizing p with
  | nil => exact .pure ⟨[], rfl, nofun⟩
  | cons f fields ih =>
    refine .bind (value_ok hh hG (hfields _ mem_cons_self)) fun v q hpq _ hv => ?_
    refine .ask (.bind (convert_ok hv) fun w r hqr _ hw => .unlessError hw ?_)
    refine .bind (ih fun c hc => (hpq.trans hqr).inside (hfields c (mem_cons_of_mem _ hc)))
      fun r u hru _ hr => .pure ?_
    obtain ⟨vs, rfl, hvs⟩ := hr
    exact ⟨w :: vs, rfl, forall_mem_cons.mpr ⟨hru.typed hw, hvs⟩⟩

theorem structValue_ok {s : SymbolId} (he : e.In p.reach) (helems : ∀ c ∈ elems, c.In p.reach) :
    ReportsTyped h G p (structValue e s elems sc) := by
  refine .intro fun hp => .ask (.ask ?_)
  split
  · exact .fail
  rename_i a ha
  have hknown := hp.known_aggregate hG ha
  split
  · exact .fail
  refine .bind (fieldValues_ok hh hG _ fun f hf => helems f.1 (of_mem_zip hf).1)
    fun r q hpq _ hr => ?_
  obtain ⟨vs, rfl, hvs⟩ := hr
  exact settle_ok (hpq.inside he) ⟨hvs, nofun, hpq.known hknown, trivial⟩

/-! ## Casts -/

theorem castByCall_ok (ho : p.Typed operand) (ht : target.Known p.reach) :
    Reports h G p (castByCall e operand target sc) fun q r =>
      q.Typed operand ∧ target.Known q.reach ∧ ∀ c ∈ r, q.Typed c := by
  refine .tables ?_
  dsimp only
  split
  · exact .pure ⟨ho, ht, nofun⟩
  refine .bind (typed_ok ⟨nofun, by simpa [Expr.types] using ht, ht, trivial⟩)
    fun callee q hpq _ hc => ?_
  refine .bind (addExpr_ok rfl (fits_call hc.inside ?_)) fun call r hqr _ hcall => ?_
  · exact forall_mem_singleton.mpr (hpq.inside ho.inside)
  refine .bind (gagged_ok (hh.expr hG hcall)) ?_
  rintro ⟨result, failed⟩ u hru - ⟨hresult, hfailed⟩
  subst hfailed
  have hpu := hpq.trans (hqr.trans hru)
  refine .intro fun hu => .ask (.pure ⟨hpu.typed ho, hpu.known ht, ?_⟩)
  rw [hu.isError_eq hresult]
  rintro _ ⟨⟩
  exact hresult

omit hh hG in
theorem sizeOf_ok {E R : Tables → β → Prop} {G2 : Gaps} {f : UInt64 → Analyse β}
    (hf : ∀ n, ReportsOr E h G G2 p (f n) R) : ReportsOr E h G G2 p (Analyse.sizeOf t >>= f) R := by
  unfold Analyse.sizeOf
  rw [bind_assoc]
  refine .tables ?_
  split
  · exact hf _
  · intro _ _ _ _ _ _ hrun
    cases hrun

omit hh hG in
theorem castValue_ok (he : e.In p.reach) (ho : p.Typed operand) (ht : target.Known p.reach) :
    ReportsTyped h G p (castValue e operand target) := by
  refine .tables (sizeOf_ok fun _ => sizeOf_ok fun _ => ?_)
  split
  · refine .bind (castTo_ok ho ht) fun result q hpq _ hr => ?_
    split
    · exact settle_ok (hpq.inside he) ⟨typed_single (hpq.typed ho) rfl,
        by simpa [Expr.types] using hpq.known ht, hpq.known ht, trivial⟩
    · exact .pure hr
  · exact .fail

theorem castExpr_ok (he : e.In p.reach) (ho : operand.In p.reach) (ht : target.Known p.reach) :
    ReportsTyped h G p (castExpr e operand target sc) := by
  refine .ask (.bind (value_ok hh hG ho) fun v q hpq _ hv => .unlessError hv ?_)
  refine .bind (resolveType_known hG (hpq.known ht)) fun t r hqr hr ht => ?_
  have hv := hqr.typed hv
  have he := (hpq.trans hqr).inside he
  refine .ask ?_
  rw [hr.types.isError_eq ht.1]
  refine .ask ?_
  split
  · exact settle_ok he ⟨typed_single hv rfl, by simpa [Expr.types] using ht.1, ht.1, trivial⟩
  refine .bind (castByCall_ok hh hG hv ht.1) fun call u hru _ hcall => ?_
  cases call with
  | some call => exact .pure (hcall.2.2 call rfl)
  | none => exact castValue_ok (hru.inside he) hcall.1 hcall.2.1

/-! ## Attempts -/

omit hh hG in
theorem prepareTrial_ok (ha : arg.In p.reach) :
    Reports h G p (prepareTrial sc arg) fun q r => r.1.In q.reach := by
  refine .bind pushScope_ok fun inner q hpq _ _ => ?_
  refine .bind noteScope_ok fun _ r hqr _ _ => ?_
  exact .bind (copyExpr_ok ((hpq.trans hqr).inside ha)) fun c u _ _ hc => .pure hc.1

theorem attempt_ok (ha : arg.In p.reach) : ReportsOnly h G p (attempt sc arg) := by
  refine .bind (prepareTrial_ok ha) fun trial q _ _ hc => ?_
  refine .bind (gagged_ok (Q := fun _ _ => True) ?_) fun r u _ _ _ => .ask (.pure trivial)
  refine .bind (hh.expr hG hc) fun result r _ _ hresult => .ask ?_
  split
  · exact .pure trivial
  · exact (toValue_ok hh hG hresult).imp fun _ _ _ _ _ => trivial

theorem attemptAll_ok (args : List ExprId) (hargs : ∀ a ∈ args, a.In p.reach) :
    ReportsOnly h G p (attemptAll sc args) := by
  induction args generalizing p with
  | nil => exact .pure trivial
  | cons a args ih =>
    refine .bind (attempt_ok hh hG (hargs a mem_cons_self)) fun works q hpq _ _ => ?_
    split
    · exact ih fun c hc => hpq.inside (hargs c (mem_cons_of_mem a hc))
    · exact .pure trivial

theorem compiles_ok (hargs : ∀ a ∈ args, a.In p.reach) :
    ReportsTyped h G p (compiles e args sc) := by
  refine .ask ?_
  split
  · exact .bind (.pure (R := fun _ _ => True) trivial) fun _ _ _ _ _ =>
      integer_ok known_ofScalar
  · exact .bind (attemptAll_ok hh hG args hargs) fun _ _ _ _ _ =>
      integer_ok known_ofScalar

end

end DCompiler
