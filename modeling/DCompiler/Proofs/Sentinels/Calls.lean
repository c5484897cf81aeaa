import DCompiler.Proofs.Analysis.Overloads
import DCompiler.Proofs.Sentinels.Functions

/-!
# Calls, without silent failures

Arguments are fitted to parameters, or there is a report. The elements of packed arguments have the
element type of the parameter; when that type has no elements, the array of the arguments is of a
hollow type. Overload resolution chooses a function, or reports. What is called has a function type,
so a call has the type of its result.
-/

namespace DCompiler

open Analyse List Option

variable {h : Analyser} {G : Gaps} {p : Tables}
variable {sc : ScopeId} {arg e : ExprId} {args : List ExprId} {s : SymbolId} {sig : Signature}

/-- A result that is there and has a type. -/
def Tables.Gives (p : Tables) (r : Option ExprId) : Prop := ∃ v, r = some v ∧ p.Typed v

theorem Tables.Gives.mono {q : Tables} {r : Option ExprId} (hr : p.Gives r) (hpq : p.Onward q) :
    q.Gives r := by
  obtain ⟨v, rfl, hv⟩ := hr
  exact ⟨v, rfl, hpq.typed hv⟩

theorem gives_ok {x : Analyse ExprId} (hx : ReportsTyped h G p x) :
    Reports h G p (do return some (← x)) fun q r => q.Gives r :=
  .bind hx fun v _ _ _ hv => .pure ⟨v, rfl, hv⟩

theorem mapM_gives {rs : List (Option ExprId)} (hrs : ∀ r ∈ rs, p.Gives r) :
    ∃ vs, rs.mapM id = some vs ∧ ∀ v ∈ vs, p.Typed v := by
  induction rs with
  | nil => exact ⟨[], rfl, nofun⟩
  | cons r rs ih =>
    obtain ⟨⟨v, rfl, hv⟩, htail⟩ := forall_mem_cons.mp hrs
    obtain ⟨vs, hvs, htyped⟩ := ih htail
    refine ⟨v :: vs, ?_, forall_mem_cons.mpr ⟨hv, htyped⟩⟩
    rw [mapM_cons, hvs]
    rfl

section

variable (hh : h.Sound) (hG : ¬ G.declaring)
include hh hG

theorem argument_ok (ha : arg.In p.reach) :
    Reports h G p (argument sc arg) fun q r => q.Gives r := by
  refine .bind (hh.expr hG ha) fun a q _ _ ha => .ask ?_
  split
  · exact .ask (.ask .error)
  · exact .ask (.ask .error)
  refine .bind (toValue_ok hh hG ha) fun v r _ hr hv => .ask (.pure ?_)
  rw [hr.isError_eq hv]
  exact ⟨v, rfl, hv⟩

theorem arguments_ok (hargs : ∀ a ∈ args, a.In p.reach) :
    Reports h G p (arguments args sc) fun q r => ∃ vs, r = some vs ∧ ∀ v ∈ vs, q.Typed v := by
  refine .bind (mapM_ok (Q := fun q r => q.Gives r) (fun hqr hr => hr.mono hqr) args
    fun a ha q hpq => argument_ok hh hG (hpq.inside (hargs a ha))) fun rs q _ hq hrs => ?_
  obtain ⟨vs, hvs, htyped⟩ := mapM_gives hrs
  refine .asked ⟨expandTuples q vs, ?_, typed_expandTuplesWithin hq _ htyped⟩
  rw [hvs]
  rfl

end

/-! ## One argument -/

theorem lazyArgument_ok {result : TypeId} (ha : p.Typed arg) (ht : result.Known p.reach) :
    ReportsTyped h G p (lazyArgument arg result sc) := by
  refine .ask (.bind (intern_function_ok ht nofun) fun type q1 h1 _ htype => ?_)
  have hret : ∀ e ∈ (Stmt.ret (some arg)).exprs, e.In q1.reach :=
    forall_mem_singleton.mpr (h1.typed ha).inside
  refine .bind (addStmt_ok (fits_stmt hret nofun nofun)) fun body q2 h2 _ _ => ?_
  refine .ask (.ask (.bind enclosing_ok fun parent q3 h3 _ _ => ?_))
  refine .bind (addFunction_ok (htype.grows (h2.trans h3).types) rfl) fun s q4 h4 _ _ => ?_
  refine .bind (intern_delegate_ok (htype.grows (h2.trans (h3.trans h4)).types))
    fun t q5 _ hq5 ht => ?_
  exact typed_ok ⟨nofun, nofun, ht.known hq5.types, trivial⟩

theorem Tables.Sound.isFunction_of_signature (hp : p.Sound G)
    (hsig : p.types.signature? (p.functionType s) = some sig) : p.isFunction s = true := by
  cases hf : p.symbols.func? s with
  | none =>
    rw [Tables.functionType, hf] at hsig
    simp [TypeTable.signature?, hp.types.kind_error] at hsig
  | some f =>
    rw [Tables.isFunction, hf]
    rfl

theorem functionName_ok {place : Span} (hs : p.isFunction s = true) :
    ReportsTyped h G p (typed (.symbolRef s) place (p.functionType s)) := by
  refine .intro fun hp => ?_
  have hfunction := hp.isFunction_functionType hs
  exact typed_ok ⟨nofun, nofun, hfunction.known hp.types, .inr ⟨hs, hfunction⟩⟩

section

variable (hh : h.Sound) (hG : ¬ G.declaring)
include hh hG

theorem copyConstruct_ok (ha : p.Typed arg) : ReportsTyped h G p (copyConstruct arg) := by
  refine .intro fun hp => .tables ?_
  dsimp only
  split
  · exact .pure ha
  split
  · exact .pure ha
  refine .bind (forM_ok _ fun _ _ _ _ => hh.signature hG) fun _ q hpq hq _ => .ask ?_
  split
  · exact .pure (hpq.typed ha)
  rename_i chosen hchosen
  have hcopy := find?_some hchosen
  have hfunction : q.isFunction chosen = true := by
    unfold isCopyConstructor at hcopy
    split at hcopy
    · exact hq.isFunction_of_signature ‹_›
    · cases hcopy
  refine .ask (.ask (.bind (functionName_ok hfunction) fun callee r hqr _ hc => ?_))
  have hpr := hpq.trans hqr
  exact typed_ok ⟨typed_pair hc (hpr.typed ha) rfl, nofun, hpr.known (hp.known_typeOf ha), trivial⟩

theorem adaptArgument_ok {param : Param} (ha : p.Typed arg) (ht : param.type.Known p.reach) :
    Reports h G p (adaptArgument arg param sc) fun q r => q.Gives r := by
  refine .unlessRefused ?_
  split
  · refine .bind (convert_ok ha) fun v q hpq _ hv => .unlessError hv ?_
    exact gives_ok (lazyArgument_ok hv (hpq.known ht))
  split
  · refine .bind (modifiable_ok ha) ?_
    rintro v q - - ⟨rfl, hv⟩
    rw [hv]
    refine .unlessError ha (.tables ?_)
    split
    · exact .pure ⟨arg, rfl, ha⟩
    · exact .error
  · refine .bind (convert_ok ha) fun v q hpq _ hv => .unlessError hv ?_
    exact gives_ok (copyConstruct_ok hh hG hv)

end

/-! ## Further arguments -/

theorem packedElements_ok {elem : TypeId} (hargs : ∀ a ∈ args, p.Typed a) :
    Reports h G p (packedElements elem args) fun q r =>
      ∃ vs, r = some vs ∧ ∀ v ∈ vs, q.Typed v := by
  refine .imp (mapUntilNone_ok (P := fun q v => q.Typed v) (D := False)
    (fun hqr hv => hqr.typed hv) args fun a ha q hpq => ?_) fun q r _ _ hr => ?_
  · refine .unlessRefused (.bind (convert_ok (hpq.typed (hargs a ha))) fun v r _ hr hv => ?_)
    refine .ask (.pure ?_)
    rw [hr.isError_eq hv]
    refine ⟨nofun, ?_⟩
    rintro _ ⟨⟩
    exact hv
  · cases r with
    | none => exact (hr.1 rfl).elim
    | some vs => exact ⟨vs, rfl, hr.2 vs rfl⟩

theorem packArguments_ok {type : TypeId} (ht : type.Known p.reach) (hargs : ∀ a ∈ args, p.Typed a) :
    Reports h G p (packArguments e type args sc) fun q r => q.Gives r := by
  refine .intro fun hp => .ask ?_
  split
  · refine .bind (typed_ok ⟨nofun, nofun, known_null _, trivial⟩) fun null q hpq _ hn => ?_
    exact gives_ok (castTo_ok hn (hpq.known ht))
  refine .ask (.bind (packedElements_ok hargs) fun r q0 h0 _ hr => ?_)
  obtain ⟨elems, rfl, helems⟩ := hr
  cases hnext : p.types.next? type with
  | none => exact .hollow rfl
  | some elem =>
    have helem : elem.Known p.reach := hp.types.known_next hnext
    refine .bind (intern_single_ok (h0.known helem) (.inr (.inr ⟨_, rfl⟩)))
      fun array q1 h1 _ harray => ?_
    refine .bind (typed_ok ⟨fun c hc => h1.typed (helems c hc), nofun, harray.1, trivial⟩)
      fun literal q2 h2 _ hliteral => .ask ?_
    refine .bind (declareTemp_ok (h2.known harray.1) (by decide)) fun temp q3 h3 _ htemp => ?_
    refine .bind (noteInit_ok (h3.typed hliteral).inside) fun _ q4 h4 _ _ => ?_
    have h24 := h2.trans (h3.trans h4)
    refine .bind (typed_ok ⟨nofun, nofun, h24.known harray.1, trivial⟩)
      fun declaration q5 h5 _ hdeclaration => ?_
    refine .bind (typed_ok ⟨nofun, nofun, (h24.trans h5).known harray.1,
      (htemp.2.mono (h4.trans h5)).names array⟩) fun var q6 h6 _ hvar => ?_
    have hp6 := h0.trans (h1.trans (h24.trans (h5.trans h6)))
    have hslice : (q6.types.next? type).isSome := by
      rw [hp6.types.next?_eq (ht.lt hp.size_le), hnext]
      rfl
    refine .bind (typed_ok ⟨typed_single hvar rfl, nofun, hp6.known ht, hslice⟩)
      fun slice q7 h7 _ hslice => ?_
    exact gives_ok (typed_ok ⟨typed_pair ((h6.trans h7).typed hdeclaration) hslice rfl, nofun,
        (hp6.trans h7).known ht, trivial⟩)

theorem promotedType_ok {base : TypeKind}
    (hbase : ∀ elem n, base = .staticArray elem n → elem.Known p.reach) :
    Reports h G p (promotedType base) fun q r => ∀ t ∈ r, t.Known q.reach := by
  unfold promotedType
  split
  · refine .pure ?_
    rintro _ ⟨⟩
    exact TypeId.known_ofScalar
  · refine .pure ?_
    rintro _ ⟨⟩
    exact TypeId.known_ofScalar
  · refine .pure ?_
    split
    · rintro _ ⟨⟩
      exact TypeId.known_ofScalar
    · nofun
  · refine .bind (intern_single_ok (hbase _ _ rfl) (.inl rfl)) fun t q _ _ ht => .pure ?_
    rintro _ ⟨⟩
    exact ht.1
  · exact .pure nofun

theorem furtherArgument_ok {variadic : Variadic} (ha : p.Typed arg) :
    ReportsTyped h G p (furtherArgument variadic arg) := by
  refine .intro fun hp => .ask ?_
  have hbase : ∀ elem n, p.baseKindOf arg = .staticArray elem n → elem.Known p.reach :=
    fun elem n hk => hp.types.known_component hk mem_cons_self
  split
  · refine .bind (promotedType_ok hbase) fun t q hpq _ ht => ?_
    cases t with
    | some t => exact castTo_ok (hpq.typed ha) (ht t rfl)
    | none => exact .pure (hpq.typed ha)
  · split <;> rename_i hk
    · refine .bind (intern_single_ok (hbase _ _ hk) (.inr (.inl rfl))) fun t q hpq _ ht => ?_
      exact castTo_ok (hpq.typed ha) ht.1
    · exact .pure ha

/-- A further argument, with the descriptor of its type. -/
def Tables.GivesPair (p : Tables) (r : Option (ExprId × ExprId)) : Prop :=
  ∃ v, r = some v ∧ p.Typed v.1 ∧ p.Typed v.2

theorem furtherArguments_ok {place : Span} (hargs : ∀ a ∈ args, p.Typed a) :
    Reports h G p (furtherArguments sig args place) fun q rs => ∀ r ∈ rs, q.GivesPair r := by
  refine mapM_ok (Q := fun q r => q.GivesPair r) (fun hqr hr => ?_) args fun a ha q hpq => ?_
  · obtain ⟨v, rfl, hv⟩ := hr
    exact ⟨v, rfl, hqr.typed hv.1, hqr.typed hv.2⟩
  refine .unlessRefused (.bind (furtherArgument_ok (hpq.typed (hargs a ha)))
    fun v r _ hr hv => .ask ?_)
  have htype := hr.known_typeOf hv
  refine .bind (typed_ok ⟨nofun, forall_mem_singleton.mpr htype, known_typeInfo _,
    trivial⟩) fun info u hru _ hinfo => .pure ?_
  exact ⟨(v, info), rfl, hru.typed hv, hinfo⟩

/-! ## All arguments -/

section

variable (hh : h.Sound) (hG : ¬ G.declaring)
include hh hG

theorem argumentFor_ok {i : Nat} {param : Param} (hargs : ∀ a ∈ args, p.Typed a)
    (ht : param.type.Known p.reach) (hdefault : ∀ d ∈ param.default, d.In p.reach)
    (hgiven : args[i]? = none → param.default = none → Tables.takesRest sig i = true) :
    Reports h G p (argumentFor e sig args sc i param) fun q r => q.Gives r := by
  refine .tables ?_
  dsimp only
  split
  · exact packArguments_ok ht fun a ha => hargs a (mem_of_mem_drop ha)
  rename_i hdirect
  split
  · exact adaptArgument_ok hh hG (hargs _ (mem_of_getElem? ‹_›)) ht
  · refine .bind (copyExpr_ok (hdefault _ ‹_›)) fun copied q hpq _ hcopied => ?_
    refine .bind (value_ok hh hG hcopied.1) fun v r hqr _ hv => ?_
    exact adaptArgument_ok hh hG hv ((hpq.trans hqr).known ht)
  · rename_i hnone hdefault
    simp [hnone, hgiven hnone hdefault] at hdirect

theorem passArguments_ok (hargs : ∀ a ∈ args, p.Typed a)
    (hparams : ∀ a ∈ sig.params, a.type.Known p.reach ∧ ∀ d ∈ a.default, d.In p.reach) :
    Reports h G p (passArguments e sig args sc) fun q r =>
      ∃ vs, r = some vs ∧ ∀ v ∈ vs, q.Typed v := by
  refine .ask ?_
  dsimp only
  split
  · exact .error
  rename_i hcount
  have hgiven {param : Param} {i : Nat} (hmem : (param, i) ∈ sig.params.zipIdx)
      (hnone : args[i]? = none) (hdefault : param.default = none) :
      Tables.takesRest sig i = true := by
    have hlength : args.length ≤ i := getElem?_eq_none_iff.mp hnone
    have hplace : (sig.params.zipIdx.drop args.length)[i - args.length]? = some (param, i) := by
      rw [getElem?_drop, Nat.add_sub_cancel' hlength]
      have hparam := mem_zipIdx_iff_getElem?.mp hmem
      simp only [getElem?_zipIdx, hparam]
      simp
    have hfew := hcount
    simp only [Bool.or_eq_true, not_or, Bool.not_eq_true, List.any_eq_false] at hfew
    simpa [hdefault] using hfew.2 _ (mem_of_getElem? hplace)
  refine .bind (mapM_ok (Q := fun q r => q.Gives r) (fun hqr hr => hr.mono hqr)
    sig.params.zipIdx fun a ha q hpq => ?_) fun fitted q hpq _ hfitted => ?_
  · obtain ⟨param, i⟩ := a
    obtain ⟨ht, hd⟩ := hparams param (mem_of_getElem? (mem_zipIdx_iff_getElem?.mp ha))
    exact argumentFor_ok hh hG (fun a ha => hpq.typed (hargs a ha)) (hpq.known ht)
      (fun d hd' => hpq.inside (hd d hd')) (hgiven ha)
  · split
    · refine .bind (furtherArguments_ok fun a ha =>
        hpq.typed (hargs a (mem_of_mem_drop ha))) fun further r hqr _ hfurther => ?_
      have hall : ∀ x ∈ fitted ++ further.map (·.map (·.1)), r.Gives x := by
        intro x hx
        rcases mem_append.mp hx with hx | hx
        · exact (hfitted x hx).mono hqr
        obtain ⟨y, hy, rfl⟩ := mem_map.mp hx
        obtain ⟨v, rfl, hv, -⟩ := hfurther y hy
        exact ⟨v.1, rfl, hv⟩
      have hinfos : ∀ x ∈ further.filterMap (·.map (·.2)), r.Typed x := by
        intro x hx
        obtain ⟨y, hy, hx⟩ := mem_filterMap.mp hx
        obtain ⟨v, rfl, -, hv⟩ := hfurther y hy
        cases hx
        exact hv
      split
      · refine .bind (intern_single_ok (known_typeInfo _) (.inr (.inl rfl)))
          fun array u hru _ harray => ?_
        refine .bind (typed_ok ⟨fun c hc => hru.typed (hinfos c hc), nofun, harray.1, trivial⟩)
          fun infos w huw _ hinfos => .pure (mapM_gives ?_)
        exact forall_mem_cons.mpr ⟨⟨infos, rfl, hinfos⟩, fun x hx =>
          (hall x hx).mono (hru.trans huw)⟩
      · exact .pure (mapM_gives hall)
    · exact .pure (mapM_gives hfitted)

/-! ## Overloads -/

omit hh hG in
theorem isFunction_of_bestMatch (hp : p.Sound G) {candidates : List SymbolId}
    (hs : s ∈ p.bestMatches candidates args) : p.isFunction s = true := by
  obtain ⟨-, hmatch, -⟩ := mem_bestMatches.mp hs
  unfold Tables.functionMatch at hmatch
  split at hmatch
  · exact hp.isFunction_of_signature ‹_›
  · exact absurd rfl hmatch

theorem resolveOverload_ok {first : SymbolId} (hs : p.isFunction first = true) :
    Reports h G p (resolveOverload e first args) fun q r =>
      ∃ s, r = some s ∧ q.isFunction s = true := by
  refine .ask (.bind (forM_ok _ fun _ _ _ _ => hh.signature hG) fun _ q hpq hq _ => ?_)
  split
  · exact .pure ⟨first, rfl, hpq.functions hs⟩
  refine .tables ?_
  split
  · exact .error
  · rename_i chosen hchosen
    have hmem : chosen ∈ q.bestMatches (p.symbols.overloads first) args := by
      rw [hchosen]
      exact mem_cons_self
    exact .pure ⟨chosen, rfl, isFunction_of_bestMatch hq hmem⟩
  · exact .reported rfl

end

variable {t : FunctionTemplate} {argument : TypeId} {template : SymbolId} {place : Span}
  {callee : ExprId}

/-! ## Templates -/

theorem declareTemplate_ok {d : FunctionDecl} {parent : Option SymbolId} (hd : d.Fits p.reach) :
    ReportsOnly h G p (declareTemplate d sc parent) := by
  refine .bind (addSymbol_ok id fun _ => ⟨hd, nofun⟩) fun s q _ _ _ => ?_
  exact .bind bindName_ok fun _ _ _ _ _ => .pure trivial

theorem known_deducedFrom (hp : p.Sound G) {typeParam : String} {param t : TypeId} {arg : ExprId}
    (ha : p.Typed arg) (ht : p.deducedFrom typeParam param arg = some t) : t.Known p.reach := by
  unfold Tables.deducedFrom at ht
  dsimp only at ht
  split at ht
  · cases ht
    exact hp.known_typeOf ha
  split at ht
  · split at ht
    · exact hp.types.known_element ht
    · cases ht
  · cases ht

theorem known_typeArgument (hp : p.Sound G) (hargs : ∀ a ∈ args, p.Typed a)
    (ht : p.deduceTypeArgument t args = some argument) : argument.Known p.reach := by
  obtain ⟨⟨param, arg⟩, hmem, hfound⟩ := exists_of_findSome?_eq_some ht
  exact known_deducedFrom hp (hargs arg (of_mem_zip hmem).2) hfound

section

variable (hh : h.Sound) (hG : ¬ G.declaring) {type : Option TypeId}
include hh hG

theorem makeInstance_ok (ht : t.pattern.Fits p.reach) (ha : argument.Known p.reach) :
    Reports h G p (makeInstance template t argument place) fun q s => q.isFunction s = true := by
  refine .bind (copyFunction_ok ht) fun copied q1 h1 _ hcopied => .ask ?_
  refine .bind pushScope_ok fun sc q2 h2 _ _ => ?_
  refine .bind (addSymbol_ok id fun _ => (h1.trans h2).known ha) fun parameter q3 h3 _ _ => ?_
  refine .bind overwrite_ok fun _ q4 h4 _ _ => .tables ?_
  have hcopied := hcopied.mono (h2.trans (h3.trans h4)).reach
  refine .bind (declareFunction_ok ⟨hcopied.result, hcopied.params⟩) fun made q5 _ _ hmade => ?_
  refine .bind (noteFunc_ok nofun) fun _ q6 h6 _ _ => ?_
  refine .bind (note_ok fun _ => h6.functions hmade) fun _ q7 h7 _ _ => ?_
  refine .bind (hh.signature hG) fun _ q8 h8 _ _ => .bind (hh.body hG) fun _ q9 h9 _ _ => .pure ?_
  exact (h6.trans (h7.trans (h8.trans h9))).functions hmade

theorem instantiate_ok (ht : t.Sound p) (ha : argument.Known p.reach) :
    Reports h G p (instantiate template t argument place) fun q r =>
      ∃ s, r = some s ∧ q.isFunction s = true := by
  unfold instantiate
  split
  · rename_i found hfound
    exact .pure ⟨found.function, rfl, ht.instances found (mem_of_find?_eq_some hfound)⟩
  refine .bind (makeInstance_ok hh hG ht.pattern ha) fun made q _ hq hmade => .tables ?_
  have hfunction := hq.isFunction_functionType hmade
  rw [hq.types.isError_eq (m := 0) (hfunction.known hq.types)]
  exact .pure ⟨made, rfl, hmade⟩

/-! ## Functions -/

theorem finishCall_ok {funcType : TypeId} (he : e.In p.reach) (hc : p.Typed callee)
    (hf : p.types.IsFunction funcType) (hargs : ∀ a ∈ args, p.Typed a)
    (ht : ∀ t ∈ type, t.Known p.reach) :
    ReportsTyped h G p (finishCall e callee funcType args sc type) := by
  refine .intro fun hp => .ask ?_
  obtain ⟨sig, hsig⟩ := hf.signature
  obtain ⟨hresult, hparams⟩ := hp.known_signature hsig
  rw [hsig]
  refine .bind (passArguments_ok hh hG hargs hparams) fun r q hpq _ hr => ?_
  obtain ⟨vs, rfl, hvs⟩ := hr
  refine settle_ok (hpq.inside he)
    ⟨forall_mem_cons.mpr ⟨hpq.typed hc, hvs⟩, nofun, hpq.known ?_, trivial⟩
  cases type with
  | none => exact hresult
  | some t => exact ht t rfl

theorem namedCall_ok {s : SymbolId} (he : e.In p.reach) (hs : p.isFunction s = true)
    (hargs : ∀ a ∈ args, p.Typed a) (ht : ∀ t ∈ type, t.Known p.reach) : ReportsTyped h G p (do
      let funcType ← ask (·.functionType s)
      let callee ← typed (.symbolRef s) place funcType
      finishCall e callee funcType args sc type) := by
  refine .intro fun hp => .ask (.bind (functionName_ok hs) fun callee q hpq _ hc => ?_)
  exact finishCall_ok hh hG (hpq.inside he) hc
    ((hp.isFunction_functionType hs).grows hpq.types) (fun a ha => hpq.typed (hargs a ha))
    fun t h => hpq.known (ht t h)

theorem functionCall_ok {first : SymbolId} (he : e.In p.reach) (hc : p.Typed callee)
    (hs : p.isFunction first = true) (hargs : ∀ a ∈ args, p.Typed a) :
    ReportsTyped h G p (functionCall e callee first args sc) := by
  refine .bind (resolveOverload_ok hh hG hs) fun r q hpq hq hr => ?_
  obtain ⟨chosen, rfl, hchosen⟩ := hr
  have hfunction := hq.isFunction_functionType hchosen
  have hc := hpq.typed hc
  have hnames : q.Names chosen (q.functionType chosen) := .inr ⟨hchosen, hfunction⟩
  have hfinish {reference : Expr} (hchildren : ∀ c ∈ reference.children, q.Typed c)
      (htypes : reference.types = []) (hbacks : q.Backs reference (q.functionType chosen)) :
      ReportsTyped h G q (do
        finishCall e (← settle callee reference (q.functionType chosen)) (q.functionType chosen)
          args sc none) := by
    refine .bind (settle_ok hc.inside ⟨hchildren, ?_, hfunction.known hq.types, hbacks⟩)
      fun callee r hqr _ hc => ?_
    · rw [htypes]
      nofun
    · exact finishCall_ok hh hG ((hpq.trans hqr).inside he) hc (hfunction.grows hqr.types)
        (fun a ha => (hpq.trans hqr).typed (hargs a ha)) nofun
  refine .ask (.ask ?_)
  split
  · rename_i base _ hk
    have hbase : ∀ c ∈ Expr.children (.member base _), q.Typed c := hq.typed_children hc hk
    exact hfinish hbase rfl hnames
  · exact hfinish nofun rfl hnames

theorem templateCall_ok (he : e.In p.reach) (ht : ∃ t, p.symbols.kind template = .template t)
    (hargs : ∀ a ∈ args, p.Typed a) :
    ReportsTyped h G p (templateCall e template args sc) := by
  refine .intro fun hp => .tables ?_
  obtain ⟨t, ht⟩ := ht
  have htemplate := hp.symbols template
  rw [ht] at htemplate
  rw [ht]
  dsimp only
  split
  · exact .fail
  rename_i argument hargument
  refine .bind (instantiate_ok hh hG htemplate (known_typeArgument hp hargs hargument))
    fun r q hpq _ hr => ?_
  obtain ⟨made, rfl, hmade⟩ := hr
  exact namedCall_ok hh hG (hpq.inside he) hmade (fun a ha => hpq.typed (hargs a ha)) (by simp)

omit hh hG in
theorem notCallable_ok : ReportsTyped h G p (notCallable e callee) :=
  .ask (.ask (.ask (.ask .fail)))

/-! ## Types and values -/

section

variable (he : e.In p.reach)
include he

theorem typeCall_ok {type : TypeId} (hc : p.Typed callee)
    (ht : type.Known p.reach) (hargs : ∀ a ∈ args, p.Typed a) :
    ReportsTyped h G p (typeCall e callee type args sc) := by
  refine .intro fun hp => .tables ?_
  have hinside : ∀ a ∈ args, a.In p.reach := fun a ha => (hargs a ha).inside
  dsimp only
  split
  · exact notCallable_ok
  rename_i s a hcalled
  split
  · exact .fail
  split
  · refine .bind (addExpr_ok rfl (fits_single hc.inside rfl rfl)) fun target q hpq _ htarget => ?_
    exact madeCall_ok hh hG htarget fun a ha => hpq.inside (hinside a ha)
  split
  · refine .bind (addExpr_ok rfl ⟨hinside, nofun⟩) fun made q _ _ hmade => hh.expr hG hmade
  rename_i constructor hconstructor
  obtain ⟨_, -, hcalled⟩ := bind_eq_some_iff.mp hcalled
  obtain ⟨_, ha, hcalled⟩ := bind_eq_some_iff.mp hcalled
  cases hcalled
  have hs := (hp.aggregate ha).constructor constructor hconstructor
  refine .bind (resolveOverload_ok hh hG hs) fun r q hpq _ hr => ?_
  obtain ⟨chosen, rfl, hchosen⟩ := hr
  refine namedCall_ok hh hG (hpq.inside he) hchosen (fun a ha => hpq.typed (hargs a ha)) ?_
  rintro _ ⟨⟩
  exact hpq.known ht

theorem valueCall_ok (hc : p.Typed callee) (hargs : ∀ a ∈ args, p.Typed a) :
    ReportsTyped h G p (valueCall e callee args sc) := by
  refine .bind (checkValue_ok hc) fun c q hpq hq hc => .unlessError hc (.tables ?_)
  have hargs : ∀ a ∈ args, q.Typed a := fun a ha => hpq.typed (hargs a ha)
  dsimp only
  split
  · rename_i funcType hfuncType
    refine finishCall_ok hh hG (hpq.inside he) hc ?_ hargs (by simp)
    split at hfuncType <;> rename_i hk
    · cases hfuncType
      exact hq.types.delegates (TypeTable.kinds_of_kind hk (by simp))
    · split at hfuncType
      · rename_i hsig
        cases hfuncType
        obtain ⟨sig, hsig⟩ := isSome_iff_exists.mp hsig
        exact ⟨sig, TypeTable.kinds_of_signature hsig⟩
      · cases hfuncType
    · cases hfuncType
  · refine .bind (operatorCall_ok hh hG hc.inside fun a ha => (hargs a ha).inside)
      fun call r _ _ hcall => ?_
    cases call with
    | some call => exact .pure (hcall call rfl)
    | none => exact notCallable_ok

/-! ## Constructors that call constructors -/

theorem delegateConstruction_ok {func constructor : SymbolId}
    (hc : callee.In p.reach) (hargs : ∀ a ∈ args, a.In p.reach)
    (hs : p.isFunction constructor = true) :
    Reports h G p (delegateConstruction e callee args func constructor sc) fun q r =>
      q.Typed r := by
  refine .ask (.bind (hh.expr hG hc) fun base q1 h1 _ hbase => .unlessError hbase ?_)
  refine .bind (arguments_ok hh hG fun a ha => h1.inside (hargs a ha)) fun r q2 h2 _ hr => ?_
  obtain ⟨vs, rfl, hvs⟩ := hr
  refine .bind (resolveOverload_ok hh hG ((h1.trans h2).functions hs)) fun r q3 h3 hq3 hr => ?_
  obtain ⟨chosen, rfl, hchosen⟩ := hr
  dsimp only
  split
  · exact .fail
  have hfunction := hq3.isFunction_functionType hchosen
  refine .ask (.bind (typed_ok ⟨typed_single ((h2.trans h3).typed hbase) rfl, nofun,
    hfunction.known hq3.types, .inr ⟨hchosen, hfunction⟩⟩) fun target q4 h4 _ htarget => ?_)
  exact finishCall_ok hh hG ((h1.trans (h2.trans (h3.trans h4))).inside he) htarget
    (hfunction.grows h4.types) (fun v hv => (h3.trans h4).typed (hvs v hv)) nofun

theorem constructorCall_ok {isSuper : Bool} (hc : callee.In p.reach)
    (hargs : ∀ a ∈ args, a.In p.reach) :
    ReportsTyped h G p (constructorCall e callee args isSuper sc) := by
  refine .intro fun hp => .tables ?_
  dsimp only
  split
  · exact .fail
  split
  · exact .fail
  rename_i constructor hconstructor
  obtain ⟨a, ha, hconstructor⟩ := bind_eq_some_iff.mp hconstructor
  obtain ⟨s, -, ha⟩ := bind_eq_some_iff.mp ha
  have hs := (hp.aggregate ha).constructor constructor hconstructor
  split
  · exact .fail
  refine .context fun c _ => .bind aside_ok fun _ q hpq _ _ => ?_
  split
  · exact .fail
  · exact delegateConstruction_ok hh hG (hpq.inside he) (hpq.inside hc)
      (fun a ha => hpq.inside (hargs a ha)) (hpq.functions hs)

/-! ## All calls -/

theorem plainCall_ok (hc : callee.In p.reach) (hargs : ∀ a ∈ args, a.In p.reach) :
    ReportsTyped h G p (plainCall e callee args sc) := by
  refine .bind (hh.expr hG hc) fun c q1 h1 _ hc => .unlessError hc ?_
  refine .bind (arguments_ok hh hG fun a ha => h1.inside (hargs a ha)) fun r q h2 hq hr => ?_
  obtain ⟨vs, rfl, hvs⟩ := hr
  have he := (h1.trans h2).inside he
  have hc := h2.typed hc
  refine .tables ?_
  split <;> rename_i hk
  · exact templateCall_ok hh hG he (hq.backs hc hk) hvs
  · have hfits := hq.fits hc.inside
    rw [hk] at hfits
    exact typeCall_ok hh hG he hc (hfits.types _ mem_cons_self) hvs
  · split
    · exact functionCall_ok hh hG he hc ‹_› hvs
    · exact valueCall_ok hh hG he hc hvs
  · split
    · exact functionCall_ok hh hG he hc ‹_› hvs
    · exact valueCall_ok hh hG he hc hvs
  · exact valueCall_ok hh hG he hc hvs

theorem boundedCall_ok (hc : callee.In p.reach) (hargs : ∀ a ∈ args, a.In p.reach) :
    ReportsTyped h G p (boundedCall e callee args sc) := by
  refine .intro fun hp => .tables ?_
  split
  · rename_i first last _ hk
    have hfits := hp.fits hc
    rw [hk] at hfits
    have hlast := hfits.children last (mem_cons_of_mem _ mem_cons_self)
    refine .bind (addExpr_ok rfl (fits_call hlast hargs)) fun call q hpq _ hcall => ?_
    refine .bind (addExpr_ok rfl
      (fits_pair (hpq.inside (hfits.children first mem_cons_self)) hcall rfl rfl))
      fun comma r _ _ hcomma => hh.expr hG hcomma
  · exact constructorCall_ok hh hG he hc hargs
  · exact constructorCall_ok hh hG he hc hargs
  · exact plainCall_ok hh hG he hc hargs

theorem call_ok (hc : callee.In p.reach) (hargs : ∀ a ∈ args, a.In p.reach) :
    ReportsTyped h G p (call e callee args sc) := by
  refine nested_ok (.context fun c _ => ?_)
  split
  · exact .ask (.ask .fail)
  · exact boundedCall_ok hh hG he hc hargs

end

end

end DCompiler
