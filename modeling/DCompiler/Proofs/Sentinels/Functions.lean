import DCompiler.Proofs.ArrayOp.Cache
import DCompiler.Proofs.Sentinels.Names

/-!
# Functions, without silent failures

A function has a function type from its declaration on: looking up the names in its type and
analysing its default arguments give function types again. The variables of a body have known types.
-/

namespace DCompiler

open Analyse List Option

variable {h : Analyser} {G : Gaps} {p : Tables}
variable {sc : ScopeId} {place : Span} {type : TypeId} {name : String} {f : Function}
  {sig : Signature} {s : SymbolId} {result : TypeId}

/-! ## Declarations -/

theorem declareFunction_ok {d : FunctionDecl} {parent outer : Option SymbolId}
    (hd : d.Fits p.reach) :
    Reports h G p (declareFunction d sc parent outer) fun q s => q.isFunction s = true := by
  refine .bind (intern_function_ok hd.result (forall_mem_map.mpr fun b hb =>
    ⟨(hd.params b hb).type, (hd.params b hb).default⟩)) fun type q _ _ htype => ?_
  refine .bind (addFunction_ok htype rfl) fun s r _ _ hs => .tables ?_
  split
  · exact .bind overwrite_ok fun _ _ hru _ _ => .pure (hru.functions hs)
  split
  · exact .bind (noteFunc_ok nofun) fun _ _ hru _ _ => .pure (hru.functions hs)
  · exact .error

theorem declScope_ok : ReportsOnly h G p (declScope s) := by
  refine .ask ?_
  split
  · exact .pure trivial
  · exact globalScope_ok

/-! ## Types and default arguments -/

theorem check_ok {c : Prop} [Decidable c] {problem : Problem} :
    ReportsOnly h G p (if c then error place problem else pure ()) := by
  split
  · exact .error_last
  · exact .pure trivial

theorem checkMain_ok : ReportsOnly h G p (checkMain type name place) := by
  refine .ask ?_
  split
  · exact .pure trivial
  refine .ask ?_
  dsimp only
  split
  · exact .error
  refine .bind stringType_ok fun text q _ _ htext => ?_
  exact .bind (intern_single_ok htext.1 (.inr (.inl rfl))) fun _ _ _ _ _ => check_ok

theorem checkDeclaration_ok : ReportsOnly h G p (checkDeclaration s f type) := by
  refine .tables ?_
  extract_lets _ _ _ _ _ _ rest
  have hrest {q : Tables} : ReportsOnly h G q (rest ()) := by
    unfold rest
    split
    · exact .error
    exact .bind (noteFunc_ok nofun) fun _ _ _ _ _ => check_ok
  split
  · exact .bind checkMain_ok fun _ _ _ _ _ => hrest
  · exact hrest

section

variable (hh : h.Sound) (hG : ¬ G.declaring) {s : SymbolId}
include hh hG

omit hh in
theorem declaredType_ok (hf : f.Sound p) :
    Reports h G p (declaredType s f) fun q t => q.types.IsFunction t := by
  refine .intro fun hp => .tables (.bind declScope_ok fun sc q hpq _ _ => ?_)
  refine .imp (resolveType_known hG (hpq.known (hf.type.known hp.types))) fun r t _ _ ht => ?_
  exact ht.2 (hf.type.grows hpq.types)

theorem defaultArgument_ok {param : Param} (ht : param.type.Known p.reach)
    (hdefault : ∀ d ∈ param.default, d.In p.reach) :
    Reports h G p (defaultArgument sc param) fun q r =>
      r.1.type.Known q.reach ∧ ∀ d ∈ r.1.default, d.In q.reach := by
  unfold defaultArgument
  split
  · exact .pure ⟨ht, hdefault⟩
  rename_i default hd
  refine .ask ?_
  split
  · exact .pure ⟨ht, hdefault⟩
  refine .bind (value_ok hh hG (hdefault default hd)) fun v q hpq _ hv => ?_
  refine .bind (convert_ok hv) fun v r hqr _ hv =>
    .pure ⟨(hpq.trans hqr).known ht, ?_⟩
  rintro _ ⟨⟩
  exact hv.inside

theorem defaultArguments_ok (hresult : sig.result.Known p.reach)
    (hparams : ∀ a ∈ sig.params, a.type.Known p.reach ∧ ∀ d ∈ a.default, d.In p.reach) :
    Reports h G p (defaultArguments s sig) fun q r => ∀ t ∈ r, q.types.IsFunction t := by
  refine .bind declScope_ok fun sc q hpq _ _ => ?_
  refine .bind (mapM_ok (Q := fun q r => r.1.type.Known q.reach ∧
    ∀ d ∈ r.1.default, d.In q.reach) (fun hqr hb => ⟨hqr.known hb.1, fun d hd =>
      hqr.inside (hb.2 d hd)⟩) sig.params fun a ha r hqr => ?_) fun params r hqr _ hr => ?_
  · obtain ⟨ht, hd⟩ := hparams a ha
    exact defaultArgument_ok hh hG ((hpq.trans hqr).known ht)
      fun d hd' => (hpq.trans hqr).inside (hd d hd')
  split
  · refine .bind (intern_function_ok ((hpq.trans hqr).known hresult) fun a ha => ?_)
      fun t u _ _ ht => .pure ?_
    · obtain ⟨b, hb, rfl⟩ := mem_map.mp ha
      exact hr b hb
    · rintro _ ⟨⟩
      exact ht
  · exact .pure nofun

end

/-! ## Variables of a body -/

theorem declareThis_ok {storage : StorageClass} (hG : ¬ G.declaring) :
    ReportsOnly h G p (declareThis s storage sc place) := by
  refine .intro fun hp => .tables ?_
  split
  · exact .pure trivial
  rename_i a ha
  obtain ⟨parent, -, ha⟩ := bind_eq_some_iff.mp ha
  split
  · exact .pure trivial
  refine .bind (declareTemp_ok (hp.known_aggregate hG ha) ?_) fun this q _ _ hthis => ?_
  · cases a.isClass <;> decide
  refine noteFunc_ok ?_
  rintro _ ⟨⟩
  exact hthis.1

theorem declareParameter_ok {param : Param} (ht : param.type.Known p.reach) :
    ReportsOnly h G p (declareParameter s sc place name param) := by
  unfold declareParameter
  extract_lets rest
  have hrest {q : Tables} {type : TypeId} (ht : type.Known q.reach)
      (hlazy : param.storage.contains .lazy = true → q.types.IsDelegate type) :
      ReportsOnly h G q (rest type) := by
    refine .bind (addSymbol_ok id fun _ => ⟨.inl ht, nofun, fun hl => hlazy ?_⟩)
      fun var r _ _ _ => .bind bindName_ok fun _ _ _ _ _ => .pure trivial
    have hparameter : StorageClass.parameter.contains .lazy = false := by decide
    have hor : (param.storage ||| .parameter).contains .lazy = true := hl
    rwa [StorageClass.contains_lazy_or, hparameter, Bool.or_false] at hor
  split
  · refine .bind (intern_function_ok ht nofun) fun f q _ _ hf => ?_
    refine .bind (intern_delegate_ok hf) fun t r _ hr ht => ?_
    exact hrest (ht.known hr.types) fun _ => ht
  · rename_i hl
    exact hrest ht fun hlazy => absurd hlazy hl

theorem declareParameters_ok {params : List Param} (hparams : ∀ a ∈ params, a.type.Known p.reach) :
    ReportsOnly h G p (declareParameters s params sc place) := by
  refine .imp (mapM_ok (Q := fun _ _ => True) (fun _ _ => trivial) _ fun a ha q hpq => ?_)
    fun _ _ _ _ _ => trivial
  obtain ⟨b, hb, hname⟩ := mem_filterMap.mp ha
  obtain ⟨name, -, rfl⟩ := map_eq_some_iff.mp hname
  exact declareParameter_ok (hpq.known (hparams b hb))

/-! ## Contracts -/

theorem mergeRequires_ok {requires : List StmtId} :
    ReportsOnly h G p (mergeRequires requires place) := by
  unfold mergeRequires
  split
  · exact .pure trivial
  refine .bind (mapM_ok (Q := fun _ _ => True) (fun _ _ => trivial) _ fun _ _ _ _ =>
    addStmt_ok (fits_stmt nofun nofun nofun)) fun blocks q _ _ _ => ?_
  exact .bind (addStmt_ok (fits_stmt nofun nofun nofun)) fun _ _ _ _ _ => .pure trivial

theorem ensureBlock_ok {d : EnsureDecl} (ht : result.Known p.reach) :
    ReportsOnly h G p (ensureBlock result place d) := by
  refine .ask ?_
  refine .bind (mapM_ok (Q := fun _ _ => True) (fun _ _ => trivial) _ fun name _ q hpq => ?_)
    fun declaration q _ _ _ => ?_
  · refine .bind addExpr_ok fun v r hqr _ hv => addStmt_ok ⟨?_, ?_, ?_⟩
    · exact forall_mem_singleton.mpr hv
    · rintro _ _ _ _ _ ⟨⟩
      refine ⟨.inl rfl, by decide, ?_, ?_⟩
      · rintro _ ⟨⟩
        exact (hpq.trans hqr).known ht
      · rintro _ ⟨⟩
        exact hv
    · nofun
  · refine .bind (addStmt_ok (fits_stmt nofun nofun nofun)) fun _ _ _ _ _ => ?_
    exact addStmt_ok (fits_stmt nofun nofun nofun)

theorem mergeEnsures_ok {ensures : List EnsureDecl} (ht : result.Known p.reach) :
    ReportsOnly h G p (mergeEnsures ensures result place) := by
  unfold mergeEnsures
  split
  · exact .pure trivial
  refine .bind (mapM_ok (Q := fun _ _ => True) (fun _ _ => trivial) _ fun _ _ _ hpq =>
    ensureBlock_ok (hpq.known ht)) fun blocks q _ _ _ => ?_
  exact .bind (addStmt_ok (fits_stmt nofun nofun nofun)) fun _ _ _ _ _ => .pure trivial

theorem optionMapM_ok {α β : Type} {f : α → Analyse β} {Q : Tables → β → Prop} (a : Option α)
    (hf : ∀ x ∈ a, Reports h G p (f x) Q) :
    Reports h G p (a.mapM f) fun q r => (∀ y ∈ r, Q q y) ∧ (r = none → a = none ∧ q = p) := by
  cases a with
  | none => exact .pure ⟨nofun, fun _ => ⟨rfl, rfl⟩⟩
  | some x =>
    refine .bind (hf x rfl) fun y q _ _ hy => .pure ⟨?_, nofun⟩
    rintro _ ⟨⟩
    exact hy

section

variable (hh : h.Sound) (hG : ¬ G.declaring) {result : Option TypeId} {s : SymbolId}
include hh hG

theorem contractFunction_ok {outer : SymbolId} {conditions : StmtId}
    (ht : ∀ t ∈ result, t.Known p.reach) :
    ReportsOnly h G p (contractFunction outer name result sc place conditions) := by
  refine .bind (intern_function_ok TypeId.known_ofScalar fun a ha => ?_) fun type q _ _ htype => ?_
  · obtain ⟨t, ht', rfl⟩ := mem_map.mp ha
    exact ⟨ht t (mem_toList.mp ht'), nofun⟩
  refine .bind (addStmt_ok (fits_stmt nofun nofun nofun)) fun body r hqr _ _ => ?_
  refine .bind (addFunction_ok (htype.grows hqr.types) rfl) fun s u _ _ _ => ?_
  exact .bind (hh.signature hG) fun _ _ _ _ _ => .bind (hh.body hG) fun _ _ _ _ _ => .pure trivial

theorem contracts_ok {isVirtual : Bool} {requires ensures : Option StmtId}
    (ht : ∀ t ∈ result, t.Known p.reach) :
    ReportsOnly h G p (contracts s isVirtual requires ensures result sc place) := by
  unfold contracts
  split
  · refine .bind (optionMapM_ok requires fun _ _ => contractFunction_ok hh hG nofun)
      fun requireFunc q hpq _ _ => ?_
    refine .bind (optionMapM_ok ensures fun _ _ =>
      contractFunction_ok hh hG fun t h => hpq.known (ht t h)) fun ensureFunc r _ _ _ => ?_
    exact noteFunc_ok nofun
  · exact forM_ok _ fun _ _ _ _ => .bind pushScope_ok fun _ _ _ _ _ => hh.stmt hG

/-! ## Bodies -/

omit hh in
theorem openBody_ok {returnsValue : Bool} (hresult : sig.result.Known p.reach)
    (hparams : ∀ a ∈ sig.params, a.type.Known p.reach) :
    ReportsOnly h G p (openBody s f sig returnsValue sc place) := by
  have hnone : StorageClass.none.contains .lazy = false := by decide
  refine .bind (declareThis_ok hG) fun _ q hpq _ _ => ?_
  refine .bind (declareParameters_ok fun a ha => hpq.known (hparams a ha))
    fun params r hqr _ _ => ?_
  extract_lets rest
  have hrest {u : Tables} (hpu : p.Onward u) (tail : Option SymbolId × Option SymbolId) :
      ReportsOnly h G u (rest tail) := by
    unfold rest
    dsimp -zeta only
    extract_lets last
    have hlast {w : Tables} (hpw : p.Onward w) (result : Option SymbolId) :
        ReportsOnly h G w (last result) := by
      refine .bind mergeRequires_ok fun requires r hwr _ _ => ?_
      refine .bind (mergeEnsures_ok ((hpw.trans hwr).known hresult)) fun _ _ _ _ _ => ?_
      exact .bind (noteFunc_ok nofun) fun _ _ _ _ _ => .pure trivial
    clear_value last
    split
    · refine .bind (declareTemp_ok (hpu.known hresult) hnone) fun _ w huw _ _ => ?_
      exact .given (hlast (hpu.trans huw) _)
    · exact .given (hlast hpu _)
  clear_value rest
  have hpr := hpq.trans hqr
  split
  · refine .bind (intern_single_ok (known_typeInfo _) (.inr (.inl rfl)))
      fun infos q1 h1 _ hinfos => ?_
    refine .bind (intern_single_ok TypeId.known_ofScalar (.inl rfl))
      fun address q2 h2 _ haddress => ?_
    refine .bind (declareTemp_ok (h2.known hinfos.1) hnone) fun arguments q3 h3 _ _ => ?_
    refine .bind (declareTemp_ok (h3.known haddress.1) hnone) fun argptr q4 h4 _ _ => ?_
    exact .given (hrest (hpr.trans (h1.trans (h2.trans (h3.trans h4)))) _)
  · exact .given (hrest hpr _)

theorem bodyStep_ok {body : StmtId} (hresult : sig.result.Known p.reach)
    (hparams : ∀ a ∈ sig.params, a.type.Known p.reach) :
    ReportsOnly h G p (bodyStep s f sig body) := by
  refine .tables (.bind declScope_ok fun sc0 q0 h0 _ _ => ?_)
  refine .bind pushScope_ok fun sc q1 h1 _ _ => ?_
  refine .bind noteScope_ok fun _ q2 h2 _ _ => .ask ?_
  have hpq := h0.trans (h1.trans h2)
  dsimp only
  refine .bind (openBody_ok hG (hpq.known hresult) fun a ha => hpq.known (hparams a ha))
    fun parts q3 h3 _ _ => ?_
  have hbody : ReportsOnly h G q3 (nested (.body s) do
      contracts s f.isVirtual parts.1 parts.2
        (if !q2.types.isVoid sig.result && !q2.types.isError sig.result then some sig.result
          else none) sc (p.symbols.symbol s).span
      analyseStmt body sc) := by
    refine nested_ok (.bind (contracts_ok hh hG fun t ht => ?_) fun _ _ _ _ _ => hh.stmt hG)
    split at ht <;> cases ht
    exact (hpq.trans h3).known hresult
  refine .bind hbody fun _ q4 _ _ _ => .tables ?_
  split
  · exact .error
  · exact .ask (noteFunc_ok nofun)

end

/-! ## Passes -/

structure Analysis.LeadsTo (s t : Analysis) (G : Gaps) : Prop where
  onward : s.toTables.Onward t.toTables
  sound : t.toTables.Sound G

namespace Analysis.LeadsTo

variable {s t u : Analysis} {symbol : SymbolId}

theorem trans (hst : s.LeadsTo t G) (htu : t.LeadsTo u G) : s.LeadsTo u G :=
  ⟨hst.onward.trans htu.onward, htu.sound⟩

theorem refl (hs : s.toTables.Sound G) : s.LeadsTo s G := ⟨.refl, hs⟩

theorem of_run {α : Type} {x : Analyse α} {Q : Tables → α → Prop} {a : α}
    (hx : Reports h G s.toTables x Q) (hkeeps : h.Keeps Later) (hs : s.toTables.Sound G)
    (hrun : x.run h s = some (a, t)) (ht : t.Clean) : s.LeadsTo t G ∧ Q t.toTables a := by
  obtain ⟨honward, hsound, ha⟩ := (hx hkeeps hs s t a rfl hrun ht).resolve_right id
  exact ⟨⟨honward, hsound⟩, ha⟩

section

variable (hs : s.toTables.Sound G)
include hs

theorem modifyFunc {change : Function → Function}
    (hchange : ∀ f, s.symbols.func? symbol = some f → (change f).Sound s.toTables) :
    s.LeadsTo { s with symbols := s.symbols.modifyFunc symbol change } G := by
  have hkind (j : SymbolId) : (s.symbols.modifyFunc symbol change).kind j = s.symbols.kind j ∨
        ∃ f, s.symbols.kind j = .func f ∧
          (s.symbols.modifyFunc symbol change).kind j = .func (change f) ∧ j = symbol := by
    rw [SymbolTable.modifyFunc, SymbolTable.kind_modifyKind]
    split
    · rename_i hj
      cases hk : s.symbols.kind j with
      | func f => exact .inr ⟨f, rfl, rfl, hj.1⟩
      | _ => exact .inl rfl
    · exact .inl rfl
  have hbecomes (j : SymbolId) : (s.symbols.kind j).Becomes
      ((s.symbols.modifyFunc symbol change).kind j) s.toTables.reach := by
    rcases hkind j with hsame | ⟨f, hf, hchanged, -⟩
    · rw [hsame]
      exact .refl
    · rw [hf, hchanged]
      exact ⟨by simp, fun _ => ⟨_, rfl⟩, by simp, by simp, by simp⟩
  refine ⟨.withSymbols hbecomes, hs.withSymbols hbecomes fun j => ?_⟩
  rcases hkind j with hsame | ⟨f, hf, hchanged, rfl⟩
  · exact .inl hsame
  · rw [hchanged]
    exact .inr (hchange f (SymbolTable.func?_eq_some.mpr hf))

theorem setProgress {progress : Progress} : s.LeadsTo (s.setProgress symbol progress) G :=
  .modifyFunc hs fun _ hf => ⟨(hs.func hf).type, (hs.func hf).this⟩

theorem setFunctionType (htype : s.types.IsFunction type) :
    s.LeadsTo (s.setFunctionType symbol type) G :=
  .modifyFunc hs fun _ hf => ⟨htype, (hs.func hf).this⟩

theorem recordArrayOp {entry : ArrayOpEntry}
    (hentry : ∀ f, entry.callee = some f → s.toTables.isFunction f = true) :
    s.LeadsTo (s.recordArrayOp name entry) G := by
  have honward : s.toTables.Onward (s.recordArrayOp name entry).toTables := .of_same rfl rfl rfl
  refine ⟨honward, hs.types, fun e he => (hs.nodes e he).mono honward hs.size_le,
    fun j => (hs.symbols j).mono honward, hs.stmts, ?_⟩
  intro name' entry' f hget hf
  rw [Analysis.recordArrayOp, ArrayOpCache.get?_insert] at hget
  split at hget
  · cases hget
    exact hentry f hf
  · exact hs.arrayOps hget hf

end

end Analysis.LeadsTo

theorem Tables.Sound.known_signature (hp : p.Sound G) {t : TypeId}
    (hsig : p.types.signature? t = some sig) : sig.result.Known p.reach ∧
      ∀ a ∈ sig.params, a.type.Known p.reach ∧ ∀ d ∈ a.default, d.In p.reach := by
  have hkinds := TypeTable.kinds_of_signature hsig
  have hkind : p.types.kind t = .function sig := by simp [TypeTable.kind, hkinds]
  refine ⟨hp.types.known_component hkind mem_cons_self, fun a ha => ⟨?_, fun d hd => ?_⟩⟩
  · exact hp.types.known_component hkind (mem_cons_of_mem _ (mem_map_of_mem ha))
  · exact hp.types.defaults hkinds d (mem_filterMap.mpr ⟨a, ha, hd⟩)

namespace Pass

variable (hh : h.Sound) (hkeeps : h.Keeps Later) (hG : ¬ G.declaring)
include hh hkeeps hG

/-- If a pass reports no error, it leads from sound tables to sound tables. -/
theorem parts_lead : Parts h fun s t => Later s t ∧
    (s.toTables.Sound G → t.Clean → s.LeadsTo t G) where
  refl _ := ⟨.of_same rfl rfl, fun hs _ => .refl hs⟩
  trans hst htu := by
    refine ⟨hst.1.trans htu.1, fun hs hu => ?_⟩
    have ht := hst.2 hs (htu.1.clean hu)
    exact ht.trans (htu.2 ht.sound hu)
  progress _ _ _ _ := ⟨.of_same rfl rfl, fun hs _ => .setProgress hs⟩
  declared {s u symbol f type} hf _ hrun := by
    have hlater : Later s u := .trans (t := s.setProgress symbol .declared) (.of_same rfl rfl)
      (run_stable stable_later hkeeps _ hrun)
    refine ⟨hlater.trans (.of_same rfl rfl), fun hs ht => ?_⟩
    have hstart : s.LeadsTo (s.setProgress symbol .declared) G := .setProgress hs
    have hsound : f.Sound (s.setProgress symbol .declared).toTables :=
      ⟨(hs.func hf).type, fun v hv => ((hs.func hf).this v hv).mono hstart.onward⟩
    obtain ⟨hlooked, hfunction⟩ := Analysis.LeadsTo.of_run (declaredType_ok hG hsound) hkeeps
      hstart.sound hrun ⟨ht.errors, ht.gagged, ht.types⟩
    exact (hstart.trans hlooked).trans (.setFunctionType hlooked.sound hfunction)
  checked hrun := ⟨run_stable stable_later hkeeps _ hrun, fun hs ht =>
    (Analysis.LeadsTo.of_run checkDeclaration_ok hkeeps hs hrun ht).1⟩
  defaulted {s u symbol sig type} _ hsig hrun := by
    have hlater : Later s u := .trans (t := s.setProgress symbol .defaults) (.of_same rfl rfl)
      (run_stable stable_later hkeeps _ hrun)
    have hset : Later u (type.elim u (u.setFunctionType symbol)) := by
      cases type <;> exact .of_same rfl rfl
    refine ⟨hlater.trans hset, fun hs ht => ?_⟩
    have hstart : s.LeadsTo (s.setProgress symbol .defaults) G := .setProgress hs
    obtain ⟨hresult, hparams⟩ := hstart.sound.known_signature hsig
    obtain ⟨hargs, hfunction⟩ := Analysis.LeadsTo.of_run
      (defaultArguments_ok hh hG hresult hparams) hkeeps hstart.sound hrun (hset.clean ht)
    cases type with
    | none => exact hstart.trans hargs
    | some type =>
      exact (hstart.trans hargs).trans (.setFunctionType hargs.sound (hfunction type rfl))
  stepped hsig hrun := by
    refine ⟨run_stable stable_later hkeeps _ hrun, fun hs ht => ?_⟩
    obtain ⟨hresult, hparams⟩ := hs.known_signature hsig
    exact (Analysis.LeadsTo.of_run (bodyStep_ok hh hG hresult fun a ha => (hparams a ha).1)
      hkeeps hs hrun ht).1

theorem arrayOp_leads {s t : Analysis} {e : ExprId} {entry : ArrayOpEntry}
    (hs : s.toTables.Sound G) (he : s.toTables.Typed e) (hrun : arrayOp h e s = some (entry, t))
    (ht : t.Clean) :
    s.LeadsTo t G ∧ ∀ f, entry.callee = some f → t.toTables.isFunction f = true := by
  rw [arrayOp_run] at hrun
  split at hrun
  · cases hrun
    exact ⟨.refl hs, fun f hf => hs.arrayOps ‹_› hf⟩
  rw [bind_eq_some_iff] at hrun
  obtain ⟨⟨_, u⟩, hmake, hset⟩ := hrun
  cases hset
  have hu : u.Clean := ⟨ht.errors, ht.gagged, ht.types⟩
  have hparams : ∀ a ∈ (partsOf s.toTables e).operands.map (·.param),
      a.type.Known s.toTables.reach ∧ a.default = none := by
    intro a ha
    obtain ⟨o, ho, rfl⟩ := mem_map.mp ha
    have hoperand := operands_partsOf hs he o ho
    exact ⟨hoperand.known, hoperand.plain⟩
  obtain ⟨hmade, hcallee⟩ := Analysis.LeadsTo.of_run (buildArrayOp_ok hh hG he hparams)
    hkeeps hs hmake hu
  exact ⟨hmade.trans (.recordArrayOp hmade.sound hcallee), hcallee⟩

end Pass

end DCompiler
