import DCompiler.Proofs.Sentinels.Operators

/-!
# Assignments, without silent failures but one

An assignment gives an expression with a type, or a report. The only way out is a compound
assignment of values of basic types that do not combine, one of which is then `void`
(`assign_ok`).

Assignments to slices become calls. The operands of such a call are parts of the assignment, so they
have types.
-/

namespace DCompiler

open Analyse List ExprTable

variable {h : Analyser} {G : Gaps} {p : Tables}
variable {e lhs rhs : ExprId} {parts : ArrayOpParts} {place span : Span} {name : String}
  {sc : ScopeId} {op : AssignOp} {f : Function} {parent : Option SymbolId}

/-! ## Operands of array operations -/

/-- An operand with a type, and a parameter for it. -/
structure Tables.Operand (p : Tables) (o : ArrayOperand) : Prop where
  typed : p.Typed o.expr
  known : o.param.type.Known p.reach
  plain : o.param.default = none

/-- The parts that an array operation is taken into. -/
def ArrayOpNodeParts : ArrayOpNode → List ExprId
  | .cast o | .unary _ o => [o]
  | .assign _ lhs rhs | .binary _ lhs rhs => [lhs, rhs]
  | .slice | .plain => []

theorem typed_arrayOpNode (hp : p.Sound G) (he : p.Typed e) :
    ∀ c ∈ ArrayOpNodeParts (arrayOpNode p e), p.Typed c := by
  unfold arrayOpNode
  split
  · nofun
  · nofun
  · exact hp.typed_children he ‹_›
  split
  · nofun
  split
  · exact hp.typed_children he ‹_›
  · split
    · exact hp.typed_children he ‹_›
    · nofun
  · exact hp.typed_children he ‹_›
  · exact hp.typed_children he ‹_›
  · nofun

theorem operands_operand {word letter : String} {storage : StorageClass} (hp : p.Sound G)
    (he : p.Typed e) (hparts : ∀ o ∈ parts.operands, p.Operand o) :
    ∀ o ∈ (parts.operand word letter e (p.typeOf e) storage).operands, p.Operand o :=
  forall_mem_cons.mpr ⟨⟨he, hp.known_typeOf he, rfl⟩, hparts⟩

theorem operands_writable (hparts : ∀ o ∈ parts.operands, p.Operand o) :
    ∀ o ∈ parts.writable.operands, p.Operand o := by
  unfold ArrayOpParts.writable
  split
  · exact hparts
  rename_i o rest hoperands
  rw [hoperands] at hparts
  obtain ⟨ho, hrest⟩ := forall_mem_cons.mp hparts
  exact forall_mem_cons.mpr ⟨⟨ho.typed, ho.known, ho.plain⟩, hrest⟩

theorem operands_arrayOpParts (hp : p.Sound G) (depth : Nat) (he : p.Typed e)
    (hparts : ∀ o ∈ parts.operands, p.Operand o) :
    ∀ o ∈ (arrayOpParts p depth e parts).operands, p.Operand o := by
  induction depth generalizing e parts with
  | zero => exact hparts
  | succ depth ih =>
    have htyped := typed_arrayOpNode hp he
    unfold arrayOpParts
    split <;> rename_i hnode <;> rw [hnode] at htyped
    · exact ih (htyped _ mem_cons_self) hparts
    · exact operands_operand hp he hparts
    · have hrhs := ih (htyped _ (mem_cons_of_mem _ mem_cons_self)) hparts
      exact operands_writable (ih (htyped _ mem_cons_self) hrhs)
    · have hlhs := ih (htyped _ mem_cons_self) hparts
      exact ih (htyped _ (mem_cons_of_mem _ mem_cons_self)) hlhs
    · exact ih (htyped _ mem_cons_self) hparts
    · exact operands_operand hp he hparts

theorem operands_partsOf (hp : p.Sound G) (he : p.Typed e) :
    ∀ o ∈ (partsOf p e).operands, p.Operand o :=
  operands_arrayOpParts hp _ he nofun

/-! ## The function of an array operation -/

theorem elementCast_ok {v target source : ExprId} (hv : v.In p.reach) :
    Reports h G p (elementCast v target source place) fun q r => r.In q.reach := by
  refine .intro fun hp => .tables ?_
  dsimp only
  split
  · exact .pure hv
  rename_i elem helem
  split
  · exact .pure hv
  refine addExpr_ok rfl ⟨?_, ?_⟩
  · exact forall_mem_singleton.mpr hv
  · exact forall_mem_singleton.mpr (hp.types.known_next helem)

theorem elementExpr_ok (depth : Nat) {count : Nat} (he : p.Typed e) :
    Reports h G p (elementExpr place depth e count) fun q r => r.1.In q.reach := by
  induction depth generalizing p e count with
  | zero => exact .pure he.inside
  | succ depth ih =>
    refine .intro fun hp => .ask ?_
    have htyped := typed_arrayOpNode hp he
    dsimp only
    split <;> rename_i hnode <;> rw [hnode] at htyped
    · exact ih (htyped _ mem_cons_self)
    · refine .bind addExpr_ok fun array q hpq _ harray => ?_
      refine .bind addExpr_ok fun index r hqr _ hindex => ?_
      exact .bind (addExpr_ok rfl (fits_pair (hqr.inside harray) hindex rfl rfl))
        fun _ _ _ _ h => .pure h
    · rename_i op lhs rhs
      refine .bind (ih (htyped _ (mem_cons_of_mem _ mem_cons_self))) fun v q hpq _ hv => ?_
      refine .bind (ih (hpq.typed (htyped _ mem_cons_self))) fun target r hqr _ htarget => ?_
      have hlast {v' : ExprId} {q' : Tables} (hrq : r.Onward q') (hv' : v'.In q'.reach) :
          Reports h G q' (do
            let e ← addExpr (.assign op target.1 v' false) place
            return (e, target.2)) fun q r => r.1.In q.reach :=
        .bind (addExpr_ok rfl (fits_pair (hrq.inside htarget) hv' rfl rfl)) fun _ _ _ _ h => .pure h
      split
      · exact .bind (elementCast_ok (hqr.inside hv)) fun w u hru _ hw => hlast hru hw
      · exact hlast .refl (hqr.inside hv)
    · refine .bind (ih (htyped _ mem_cons_self)) fun lhs q hpq _ hl => ?_
      refine .bind (ih (hpq.typed (htyped _ (mem_cons_of_mem _ mem_cons_self))))
        fun rhs r hqr _ hr => ?_
      exact .bind (addExpr_ok rfl (fits_pair (hqr.inside hl) hr rfl rfl)) fun _ _ _ _ h => .pure h
    · refine .bind (ih (htyped _ mem_cons_self)) fun o q _ _ ho => ?_
      exact .bind (addExpr_ok rfl (fits_single ho rfl rfl)) fun _ _ _ _ h => .pure h
    · exact .bind addExpr_ok fun _ _ _ _ h => .pure h

theorem fits_stmt {s : Stmt} {r : Reach} (hexprs : ∀ e ∈ s.exprs, e.In r)
    (hvar : ∀ name type init storage symbol, s ≠ .varDecl name type init storage symbol)
    (hfunc : ∀ d symbol, s ≠ .funcDecl d symbol) : s.Fits r :=
  ⟨hexprs, fun heq => absurd heq (hvar _ _ _ _ _), fun heq => absurd heq (hfunc _ _)⟩

theorem arrayOpBody_ok {first : String} {element : ExprId} (he : element.In p.reach) :
    ReportsOnly h G p (arrayOpBody first element place) := by
  refine .bind addExpr_ok fun zero q1 h₁ _ hzero => ?_
  refine .bind addExpr_ok fun array q2 h₂ _ harray => ?_
  refine .bind (addExpr_ok rfl (fits_single harray rfl rfl)) fun length q3 h3 _ hlength => ?_
  have hstep := (h₁.trans (h₂.trans h3)).inside he
  refine .bind (addStmt_ok (fits_stmt (forall_mem_singleton.mpr hstep) nofun nofun))
    fun step q4 h4 _ _ => ?_
  have hbounds : ∀ e ∈ [zero, length], e.In q4.reach :=
    forall_mem_cons.mpr ⟨(h₂.trans (h3.trans h4)).inside hzero,
      forall_mem_singleton.mpr (h4.inside hlength)⟩
  refine .bind (addStmt_ok (fits_stmt hbounds nofun nofun)) fun loop q5 _ _ _ => ?_
  refine .bind addExpr_ok fun result q6 _ _ hresult => ?_
  refine .bind (addStmt_ok (fits_stmt (forall_mem_singleton.mpr hresult) nofun nofun))
    fun ret q7 _ _ _ => ?_
  refine .bind (addStmt_ok (fits_stmt nofun nofun nofun)) fun block q8 _ _ _ => ?_
  exact addStmt_ok (fits_stmt nofun nofun nofun)

theorem isFunction_withSymbol :
    (p.withSymbol name span (.func f) parent).isFunction ⟨p.symbols.size⟩ = true := by
  have hkind : (p.withSymbol name span (.func f) parent).symbols.kind ⟨p.symbols.size⟩ =
      .func f := by
    rw [Tables.kind_withSymbol, if_pos rfl]
  rw [Tables.isFunction, SymbolTable.func?_eq_some.mpr hkind]
  rfl

theorem addFunction_ok (hf : p.types.IsFunction f.type) (hthis : f.thisVar = none) :
    Reports h G p (addSymbol name span (.func f) parent) fun q s => q.isFunction s = true := by
  refine .imp (addSymbol_ok id fun _ => ⟨hf, by simp [hthis]⟩) ?_
  rintro _ _ - - ⟨rfl, rfl⟩
  exact isFunction_withSymbol

theorem addToModule_ok {s : SymbolId} : ReportsOnly h G p (addToModule s) := by
  refine .context fun c _ => ?_
  split
  · exact .pure trivial
  · refine .imp (note_ok fun _ => ?_) fun _ _ _ _ _ => trivial
    trivial

section

variable (hh : h.Sound) (hG : ¬ G.declaring) {params : List Param}
include hh hG

theorem makeArrayOp_ok {result : TypeId} {element : ExprId} (hresult : result.Known p.reach)
    (hparams : ∀ a ∈ params, a.type.Known p.reach ∧ a.default = none) (he : element.In p.reach) :
    Reports h G p (makeArrayOp name result params element place) fun q entry =>
      ∀ f, entry.callee = some f → q.isFunction f = true := by
  refine .bind (intern_function_ok hresult fun a ha => ⟨(hparams a ha).1, ?_⟩)
    fun type q1 h₁ _ htype => ?_
  · rw [(hparams a ha).2]
    nofun
  refine .bind (arrayOpBody_ok (h₁.inside he)) fun body q2 h₂ _ _ => ?_
  refine .bind globalScope_ok fun scope q3 h3 _ _ => ?_
  refine .context fun c _ => ?_
  have htype := htype.grows (h₂.trans h3).types
  refine .bind (addFunction_ok htype rfl) fun made q4 h4 _ hmade => ?_
  refine .bind addToModule_ok fun _ q5 h5 _ _ => ?_
  have hanalyse : ReportsOnly h G q5 (do
      analyseSignature made
      analyseBody made) :=
    .bind (hh.signature hG) fun _ _ _ _ _ => hh.body hG
  refine .bind (gagged_ok hanalyse) ?_
  rintro ⟨_, failed⟩ q6 h6 - ⟨-, hfailed⟩
  dsimp only at hfailed ⊢
  subst hfailed
  have hmade6 := (h5.trans h6).functions hmade
  split
  · refine .context fun c _ => ?_
    refine .bind (addFunction_ok (htype.grows (h4.trans (h5.trans h6)).types) rfl)
      fun stub q7 h7 _ hstub => .pure ?_
    rintro f ⟨⟩
    exact hstub
  · refine .pure ?_
    rintro f ⟨⟩
    exact hmade6

theorem buildArrayOp_ok (he : p.Typed e)
    (hparams : ∀ a ∈ params, a.type.Known p.reach ∧ a.default = none) :
    Reports h G p (buildArrayOp name e params) fun q entry =>
      ∀ f, entry.callee = some f → q.isFunction f = true := by
  refine .intro fun hp => .tables ?_
  refine .bind (elementExpr_ok _ he) fun element q hpq _ helement => ?_
  exact makeArrayOp_ok hh hG (hpq.known (hp.known_typeOf he))
    (fun a ha => ⟨hpq.known (hparams a ha).1, (hparams a ha).2⟩) helement

theorem arrayOp_ok (he : p.Typed e) (hnext : (p.types.next? (p.typeOf e)).isSome) :
    ReportsTyped h G p (arrayOp e) := by
  refine .intro fun hp => .tables ?_
  split
  · rename_i hnone
    rw [elementOf?, Option.map_eq_none_iff] at hnone
    rw [hnone] at hnext
    cases hnext
  split
  · exact .fail
  refine .bind (hh.arrayOp hG he) fun entry q hpq hq hentry => ?_
  split
  · exact .ask (.ask .fail)
  rename_i func hfunc
  have hs := hentry func hfunc
  have hfunction := hq.isFunction_functionType hs
  refine .ask (.bind (typed_ok ⟨forall_mem_nil _, forall_mem_nil _,
    hfunction.known hq.types, .inr ⟨hs, hfunction⟩⟩) fun callee r hqr _ hc => ?_)
  refine typed_ok ⟨forall_mem_cons.mpr ⟨hc, fun c hc => ?_⟩, forall_mem_nil _,
    (hpq.trans hqr).known (hp.known_typeOf he), trivial⟩
  obtain ⟨o, ho, rfl⟩ := mem_map.mp hc
  exact (hpq.trans hqr).typed (operands_partsOf hp he o ho).typed

/-! ## Calls in the place of assignments -/

theorem partAssign_ok {base : ExprId} {extra : List ExprId} {withBase : ExprId → Expr}
    (hb : base.In p.reach) (hr : rhs.In p.reach) (hextra : ∀ c ∈ extra, c.In p.reach)
    (hpending : ∀ b, (withBase b).isPending = true)
    (hfits : ∀ b (q : Tables), p.Onward q → b.In q.reach → (withBase b).Fits q.reach) :
    Reports h G p (do
      if (p.exprs.type? lhs).isSome then return none
      let base ← analyseExpr base sc
      if (← ask (·.exprs.type? lhs)).isNone then setKind lhs (withBase base)
      if ← isError base then return none
      operatorCall e base name (rhs :: extra) sc) fun q r => ∀ c ∈ r, q.Typed c := by
  split
  · exact .pure nofun
  refine .bind (hh.expr hG hb) fun b q hpq _ hb => .ask ?_
  have hcall {r : Tables} (hqr : q.Onward r) :
      Reports h G r (operatorCall e b name (rhs :: extra) sc) fun q r => ∀ c ∈ r, q.Typed c :=
    operatorCall_ok hh hG (hqr.inside hb.inside) (forall_mem_cons.mpr
      ⟨(hpq.trans hqr).inside hr, fun c hc => (hpq.trans hqr).inside (hextra c hc)⟩)
  split
  · rename_i hnone
    refine .bind (setKind_ok (hpending b) (hfits b q hpq hb.inside) fun htyped => ?_)
      fun _ r hqr _ _ => .unlessError (hqr.typed hb) (hcall hqr)
    rw [Tables.Typed, Option.isNone_iff_eq_none.mp hnone] at htyped
    cases htyped
  · exact .unlessError hb (hcall .refl)

theorem indexedAssign_ok (hl : lhs.In p.reach) (hr : rhs.In p.reach) :
    Reports h G p (indexedAssign e lhs rhs sc) fun q r => ∀ c ∈ r, q.Typed c := by
  refine .intro fun hp => .tables ?_
  have hfits := hp.fits hl
  dsimp only
  split <;> rename_i hk
  · rename_i base place var
    rw [hk] at hfits
    have hbase := hfits.children base mem_cons_self
    have hplace := hfits.children place (mem_cons_of_mem _ mem_cons_self)
    exact partAssign_ok hh hG hbase hr (forall_mem_singleton.mpr hplace)
      (fun _ => rfl) fun b q hpq hb => fits_pair hb (hpq.inside hplace) rfl rfl
  · rename_i base lower upper var
    rw [hk] at hfits
    have hbase := hfits.children base mem_cons_self
    have hbounds : ∀ c ∈ lower.toList ++ upper.toList, c.In p.reach := fun c hc =>
      hfits.children c (mem_cons_of_mem base hc)
    exact partAssign_ok hh hG hbase hr hbounds (fun _ => rfl) fun b q hpq hb =>
      ⟨forall_mem_cons.mpr ⟨hb, fun c hc => hpq.inside (hbounds c hc)⟩, nofun⟩
  · exact .pure nofun

theorem propertyAssign_ok (hl : lhs.In p.reach) (hr : rhs.In p.reach) :
    Reports h G p (propertyAssign e lhs rhs sc) fun q r => ∀ c ∈ r, q.Typed c := by
  have hcall : Reports h G p
      (do return some (← analyseExpr (← addExpr (.call lhs [rhs]) (p.exprs.span e)) sc))
      fun q r => ∀ c ∈ r, q.Typed c := by
    refine .bind (addExpr_ok rfl (fits_call hl (forall_mem_singleton.mpr hr)))
      fun call q _ _ hcall => some_ok (hh.expr hG hcall)
  refine .tables ?_
  split
  · split
    · exact hcall
    · exact .pure nofun
  · split
    · exact hcall
    · exact .pure nofun
  · exact .pure nofun

theorem compoundMember_ok (he : e.In p.reach) (hl : lhs.In p.reach) (hr : rhs.In p.reach) :
    Reports h G p (compoundMember e op lhs rhs sc) fun q r =>
      (∀ c ∈ r, q.Typed c) ∧ (r = none → q.exprs.kind e = p.exprs.kind e) := by
  cases op with
  | plain => exact .pure ⟨by simp, fun _ => rfl⟩
  | compound bin =>
    refine .ask ?_
    split
    · have hstring : (Expr.string bin.symbol).Fits p.reach :=
        ⟨nofun, nofun⟩
      refine .ask (.bind (addNode_ok fun _ => Tables.pending_node rfl hstring _) ?_)
      rintro _ q hpq - ⟨rfl, hq⟩
      have hkind : q.exprs.kind e = p.exprs.kind e := by
        have hne : e.index ≠ p.exprs.size := Nat.ne_of_lt he
        rw [hq, ExprTable.kind, ExprTable.kind, node_addNode, if_neg hne]
      have hspelling : (⟨p.exprs.size⟩ : ExprId).In q.reach := by
        show p.exprs.size < q.exprs.size
        rw [hq, size_addNode]
        exact Nat.lt_succ_self _
      have hargs : ∀ c ∈ [⟨p.exprs.size⟩, rhs], c.In q.reach :=
        forall_mem_cons.mpr ⟨hspelling, forall_mem_singleton.mpr (hpq.inside hr)⟩
      refine .tables ?_
      split
      · exact .pure ⟨by simp, fun _ => hkind⟩
      refine .bind (addExpr_ok rfl (fits_single (hpq.inside hl) rfl rfl))
        fun callee r hqr _ hc => ?_
      refine .bind (addExpr_ok rfl (fits_call hc fun c hc => hqr.inside (hargs c hc)))
        fun call u _ _ hcall => ?_
      refine .bind (hh.expr hG hcall) fun result w _ _ hresult => .pure ⟨?_, by simp⟩
      rintro _ ⟨⟩
      exact hresult
    · exact .pure ⟨by simp, fun _ => rfl⟩

/-! ## Tuples and slices -/

theorem assignParts_ok (parts : List (ExprId × ExprId))
    (hparts : ∀ a ∈ parts, a.1.In p.reach ∧ a.2.In p.reach) :
    Reports h G p (assignParts op place sc parts) fun q r =>
      ∃ vs, r = .ok vs ∧ ∀ v ∈ vs, q.Typed v := by
  induction parts generalizing p with
  | nil => exact .pure ⟨[], rfl, nofun⟩
  | cons a parts ih =>
    obtain ⟨hl, hr⟩ := hparts _ mem_cons_self
    refine .bind (addExpr_ok rfl (fits_pair hl hr rfl rfl)) fun part q hpq _ hpart => ?_
    refine .bind (hh.expr hG hpart) fun v r hqr _ hv => .unlessError hv ?_
    refine .bind (ih fun b hb => ?_) fun result u hru _ hresult => .pure ?_
    · obtain ⟨h1, h2⟩ := hparts b (mem_cons_of_mem _ hb)
      exact ⟨(hpq.trans hqr).inside h1, (hpq.trans hqr).inside h2⟩
    · obtain ⟨vs, rfl, hvs⟩ := hresult
      exact ⟨v :: vs, rfl, forall_mem_cons.mpr ⟨hru.typed hv, hvs⟩⟩

theorem tupleAssign_ok {targets sources : List ExprId} (he : e.In p.reach)
    (htargets : ∀ c ∈ targets, p.Typed c) (hsources : ∀ c ∈ sources, p.Typed c) :
    ReportsTyped h G p (tupleAssign e op targets sources sc) := by
  refine .ask ?_
  split
  · exact .fail
  refine .bind (assignParts_ok hh hG _ fun a ha => ?_) fun r q hpq hq hr => ?_
  · obtain ⟨h1, h2⟩ := of_mem_zip ha
    exact ⟨(htargets _ h1).inside, (hsources _ h2).inside⟩
  obtain ⟨vs, rfl, hvs⟩ := hr
  refine .tables (.bind (intern_tuple_ok fun t ht => ?_) fun t u hqu _ ht => ?_)
  · obtain ⟨v, hv, rfl⟩ := mem_map.mp ht
    exact hq.known_typeOf (hvs v hv)
  · exact settle_ok ((hpq.trans hqu).inside he)
      ⟨fun c hc => hqu.typed (hvs c hc), nofun, ht, trivial⟩

theorem sliceAssign_ok (he : p.Ready e) (hl : p.Typed lhs) (hr : p.Typed rhs)
    (hslice : (p.types.next? (p.typeOf lhs)).isSome) :
    ReportsTyped h G p (sliceAssign e op lhs rhs) := by
  refine .intro fun hp => .tables ?_
  have htype := hp.known_typeOf hl
  extract_lets type store
  have hstore (target : TypeId) (fill : Bool) : ReportsTyped h G p (store target fill) := by
    refine .bind (convert_ok hr) fun r q hpq _ hr => .unlessError hr ?_
    exact settle_ok (hpq.inside he.inside)
      ⟨typed_pair (hpq.typed hl) hr rfl, nofun, hpq.known htype, trivial⟩
  have harrayOp : ReportsTyped h G p (do arrayOp (← setType e type)) := by
    refine .bind (setType_ok he.inside (he.accepts hp htype)) ?_
    rintro e' q - - ⟨he', hr, hq⟩
    rw [he']
    refine arrayOp_ok hh hG hr ?_
    have htypeOf : q.typeOf e = p.typeOf lhs := by
      rw [hq, Tables.typeOf, type?, (p.exprs.replaces_setType e _).self he.inside]
      rfl
    rw [htypeOf, hq]
    exact hslice
  split
  · split
    · exact harrayOp
    · exact .fail
  split
  · exact harrayOp
  split
  · exact hstore _ _
  · exact hstore _ _

end

/-! ## Single places -/

theorem isVoid_of_combine {t : TypeTable} {a b : TypeId} {s1 s2 : Scalar}
    (ha : t.scalar? a = some s1) (hb : t.scalar? b = some s2) (h : s1.combine s2 = none) :
    (t.isVoid a || t.isVoid b) = true := by
  have hvoid : s1 = .void ∨ s2 = .void := by
    unfold Scalar.combine at h
    split at h
    · assumption
    · split at h <;> cases h
  rw [TypeTable.isVoid, TypeTable.isVoid, ha, hb]
  rcases hvoid with rfl | rfl <;> simp

theorem TypeTable.base_base (t : TypeTable) (id : TypeId) : t.base (t.base id) = t.base id := by
  fun_induction t.base id with
  | case1 id _ _ next hk hlt ih => exact ih
  | case2 id _ _ next hk hlt =>
    unfold base
    simp only [hk, if_neg hlt]
  | case3 id hk =>
    unfold base
    split
    · rename_i hk'
      exact absurd hk' (hk _ _ _)
    · rfl

theorem TypeTable.scalar?_base (t : TypeTable) (id : TypeId) :
    t.scalar? (t.base id) = t.scalar? id := by
  rw [scalar?, scalar?, baseKind, baseKind, t.base_base]

/-- The right side of a compound assignment is missing only if one side is `void`. -/
theorem compoundOperand_ok {op : BinaryOp} (hr : p.Typed rhs) :
    Reports h G p (compoundOperand e op lhs rhs) fun q r =>
      (∀ c ∈ r, q.Typed c) ∧ (r = none → q = p ∧
        (p.types.isVoid (p.typeOf lhs) || p.types.isVoid (p.typeOf rhs)) = true) := by
  refine .tables ?_
  have hsome {x : Analyse ExprId} (hx : ReportsTyped h G p x) :
      Reports h G p (do return some (← x)) fun q r =>
        (∀ c ∈ r, q.Typed c) ∧ (r = none → q = p ∧
          (p.types.isVoid (p.typeOf lhs) || p.types.isVoid (p.typeOf rhs)) = true) := by
    refine .bind hx fun r q _ _ hr => .pure ⟨?_, by simp⟩
    rintro _ ⟨⟩
    exact hr
  extract_lets place t1 t2 arithmetic
  have harithmetic : Reports h G p arithmetic fun q r =>
      (∀ c ∈ r, q.Typed c) ∧ (r = none → q = p ∧
        (p.types.isVoid (p.typeOf lhs) || p.types.isVoid (p.typeOf rhs)) = true) := by
    unfold arithmetic
    split
    · rename_i s1 s2 hs1 hs2
      rw [TypeTable.scalar?_base] at hs1 hs2
      split
      · exact .error
      split
      · exact hsome (.pure hr)
      split
      · exact .pure ⟨by simp, fun _ => ⟨rfl, isVoid_of_combine hs1 hs2 ‹_›⟩⟩
      · exact hsome (castTo_ok hr TypeId.known_ofScalar)
    · exact .error
  split
  · split
    · exact hsome (scaleIndex_ok hr)
    · exact harithmetic
  · exact harithmetic

/-- An error expression where the way out is known to be met. -/
theorem errorExpr_or {E R : Tables → ExprId → Prop} {G2 : Gaps}
    (hE : E { p with exprs := (p.exprs.addNode ⟨.error, span, some .error⟩).2 } ⟨p.exprs.size⟩) :
    ReportsOr E h G G2 p (errorExpr span) R := by
  intro _ _ s t a hs hrun _
  cases hrun
  subst hs
  exact .inr hE

theorem gap_voidOperand {op : BinaryOp} {fill : Bool} (he : e.In p.reach)
    (hk : p.exprs.kind e = .assign (.compound op) lhs rhs fill) (hl : p.Typed lhs)
    (hr : p.Typed rhs)
    (hvoid : (p.types.isVoid (p.typeOf lhs) || p.types.isVoid (p.typeOf rhs)) = true) :
    Tables.gap { p with exprs := (p.exprs.addNode ⟨.error, span, some .error⟩).2 } e
      ⟨p.exprs.size⟩ = true := by
  have hold {c : ExprId} (hc : c.In p.reach) :
      (p.exprs.addNode ⟨.error, span, some .error⟩).2.node c = p.exprs.node c := by
    have hne : c.index ≠ p.exprs.size := Nat.ne_of_lt hc
    rw [node_addNode, if_neg hne]
  have hnew : (p.exprs.addNode ⟨.error, span, some .error⟩).2.node ⟨p.exprs.size⟩ =
      ⟨.error, span, some .error⟩ := by
    rw [node_addNode, if_pos rfl]
  have hkind : (p.exprs.node e).kind = .assign (.compound op) lhs rhs fill := hk
  simp only [Tables.gap, Tables.isError, ExprTable.isError, ExprTable.kind, hnew,
    Tables.hasVoidOperand, hold he, hkind, Tables.typeOf, type?, hold hl.inside,
    hold hr.inside]
  simp only [Tables.typeOf, type?] at hvoid
  simp [hvoid]

theorem scalarAssign_ok (he : e.In p.reach) (hk : p.exprs.kind e = .assign op lhs rhs false)
    (hl : p.Typed lhs) (hr : p.Typed rhs) : Answers h G p e (scalarAssign e op lhs rhs) := by
  refine .intro fun hp => .ask (.bind (modifiable_ok hl) ?_)
  rintro _ q - - ⟨rfl, hlhs⟩
  rw [hlhs]
  refine .unlessError hl ?_
  have htype := hp.known_typeOf hl
  have hsettle {r : Tables} {rhs : ExprId} (hqr : q.Onward r) (hrhs : r.Typed rhs) :
      Answers h G r e (do
        if ← isError rhs then return rhs
        settle e (.assign op lhs rhs false) (q.typeOf lhs)) :=
    .unlessError hrhs (.of (settle_ok (hqr.inside he)
      ⟨typed_pair (hqr.typed hl) hrhs rfl, nofun, hqr.known htype, trivial⟩))
  cases op with
  | plain => exact .bind (convert_ok hr) fun r u hqu _ hr => hsettle hqu hr
  | compound bin =>
    refine .bind (compoundOperand_ok hr) fun r u hqu _ hres => ?_
    cases r with
    | some r => exact hsettle hqu (hres.1 r rfl)
    | none =>
      obtain ⟨rfl, hvoid⟩ := hres.2 rfl
      exact .ask (errorExpr_or (gap_voidOperand he hk hl hr hvoid))

section

variable (hh : h.Sound) (hG : ¬ G.declaring)
include hh hG

theorem assignValue_ok (he : e.In p.reach) (hl : p.Typed lhs) (hr : p.Typed rhs) :
    Answers h G p e (assignValue e op lhs rhs sc) := by
  have hchildren := typed_pair (k := .assign op lhs rhs false) hl hr rfl
  refine .bind (setKind_ok rfl (fits_pair hl.inside hr.inside rfl rfl)
    fun _ => ⟨hchildren, fun _ => trivial⟩) fun _ q hpq hq hset => ?_
  obtain ⟨hready, hkind⟩ := Tables.ready_setKind he hpq hset hchildren fun _ _ => trivial
  have hl := hpq.typed hl
  have hr := hpq.typed hr
  refine .tables ?_
  dsimp only
  split
  · rename_i htargets hsources
    have htargets : ∀ c ∈ Expr.children (.tuple _), q.Typed c := hq.typed_children hl htargets
    have hsources : ∀ c ∈ Expr.children (.tuple _), q.Typed c := hq.typed_children hr hsources
    exact .of (tupleAssign_ok hh hG hready.inside htargets hsources)
  · rename_i hk
    exact .of (sliceAssign_ok hh hG hready hl hr (hq.backs hl hk))
  · refine .ask (.bind (convert_ok hr) fun r u hqu _ hr => .of ?_)
    exact settle_ok (hqu.inside hready.inside)
      ⟨typed_pair (hqu.typed hl) hr rfl, nofun, known_sizeType, trivial⟩
  · split
    · exact .fail
    refine .bind (compoundMember_ok hh hG hready.inside hl.inside hr.inside)
      fun call u hqu _ hcall => ?_
    cases call with
    | some call => exact .pure (hcall.1 call rfl)
    | none =>
      exact scalarAssign_ok (hqu.inside hready.inside) ((hcall.2 rfl).trans hkind)
        (hqu.typed hl) (hqu.typed hr)

theorem simpleAssign_ok (he : e.In p.reach) (hl : lhs.In p.reach) (hr : rhs.In p.reach) :
    Answers h G p e (simpleAssign e op lhs rhs sc) := by
  unfold simpleAssign
  extract_lets rest
  have hrest {q : Tables} (hpq : p.Onward q) (call : Option ExprId)
      (hcall : ∀ c ∈ call, q.Typed c) : Answers h G q e (rest call) := by
    cases call with
    | some call => exact .pure (hcall call rfl)
    | none =>
      refine .bind (hh.expr hG (hpq.inside hl)) fun l r hqr _ hl => .unlessError hl ?_
      extract_lets finish
      have hfinish {u : Tables} (hru : r.Onward u) (call : Option ExprId)
          (hcall : ∀ c ∈ call, u.Typed c) : Answers h G u e (finish call) := by
        cases call with
        | some call => exact .pure (hcall call rfl)
        | none =>
          have hpu := hpq.trans (hqr.trans hru)
          refine .bind (checkValue_ok (hru.typed hl)) fun l v huv _ hl => ?_
          refine .bind (value_ok hh hG ((hpu.trans huv).inside hr)) fun v w hvw _ hv => ?_
          refine .unlessError (hvw.typed hl) (.unlessError hv ?_)
          exact assignValue_ok hh hG ((hpu.trans (huv.trans hvw)).inside he) (hvw.typed hl) hv
      split
      · exact .bind (propertyAssign_ok hh hG hl.inside ((hpq.trans hqr).inside hr))
          fun call u hru _ hcall => hfinish hru call hcall
      · exact .given (hfinish .refl none (by simp))
  split
  · exact .bind (indexedAssign_ok hh hG hl hr) fun call q hpq _ hcall => hrest hpq call hcall
  · exact .given (hrest .refl none (by simp))

theorem assign_ok (he : e.In p.reach) (hl : lhs.In p.reach) (hr : rhs.In p.reach) :
    Answers h G p e (assign e op lhs rhs sc) := by
  refine .intro fun hp => .tables ?_
  split
  · rename_i first last hk _
    have hfits := hp.fits hr
    rw [hk] at hfits
    have hlast := hfits.children last (mem_cons_of_mem _ mem_cons_self)
    refine .bind (addExpr_ok rfl (fits_pair hl hlast rfl rfl)) fun inner q hpq _ hinner => ?_
    refine .bind (addExpr_ok rfl
      (fits_pair (hpq.inside (hfits.children first mem_cons_self)) hinner rfl rfl))
      fun comma r _ _ hcomma => .of (hh.expr hG hcomma)
  · exact simpleAssign_ok hh hG he hl hr

end

end DCompiler
