import DCompiler.Proofs.Sentinels.Values

/-!
# Operators, without silent failures

Operators on values with types give an expression with a type, or a report.
-/

namespace DCompiler

open Analyse List TypeId

variable {e lhs rhs operand : ExprId} {t : TypeId} {k : Expr} {op : BinaryOp} {sc : ScopeId}

/-- An expression whose parts were analysed, so that only its type is missing. -/
structure Tables.Ready (p : Tables) (e : ExprId) : Prop where
  inside : e.In p.reach
  children : ∀ c ∈ (p.exprs.kind e).children, p.Typed c
  backs : ∀ (q : Tables) (t : TypeId), q.Backs (p.exprs.kind e) t

variable {h : Analyser} {G : Gaps} {p : Tables} {q : Tables} {elem : TypeId} {s : Scalar}

theorem Tables.Ready.accepts (he : p.Ready e) (hp : p.Sound G) (ht : t.Known p.reach) :
    p.Accepts (p.exprs.kind e) t :=
  ⟨he.children, (hp.fits he.inside).types, ht, he.backs p t⟩

theorem Tables.Ready.of_same (he : p.Ready e) (hpq : p.Onward q) (hsame : q.exprs = p.exprs) :
    q.Ready e := by
  refine ⟨hpq.inside he.inside, ?_, ?_⟩
  · rw [hsame]
    exact fun c hc => hpq.typed (he.children c hc)
  · rw [hsame]
    exact he.backs

theorem Tables.ready_setKind (he : e.In p.reach) (hpq : p.Onward q)
    (hq : q = { p with exprs := p.exprs.setKind e k }) (hchildren : ∀ c ∈ k.children, p.Typed c)
    (hbacks : ∀ (q : Tables) t, q.Backs k t) : q.Ready e ∧ q.exprs.kind e = k := by
  have hkind : q.exprs.kind e = k := by
    subst hq
    exact congrArg ExprNode.kind ((p.exprs.replaces_setKind e k).self he)
  refine ⟨⟨hpq.inside he, ?_, ?_⟩, hkind⟩
  · rw [hkind]
    exact fun c hc => hpq.typed (hchildren c hc)
  · rw [hkind]
    exact hbacks

theorem finish_ok (he : p.Ready e) (ht : t.Known p.reach) : ReportsTyped h G p (setType e t) :=
  .intro fun hp => .imp (setType_ok he.inside (he.accepts hp ht)) fun _ _ _ _ hr => hr.1 ▸ hr.2.1

theorem typed_pair (hl : p.Typed lhs) (hr : p.Typed rhs) (hk : k.children = [lhs, rhs]) :
    ∀ c ∈ k.children, p.Typed c := by
  rw [hk]
  exact forall_mem_cons.mpr ⟨hl, forall_mem_singleton.mpr hr⟩

theorem fits_pair (hl : lhs.In p.reach) (hr : rhs.In p.reach) (hk : k.children = [lhs, rhs])
    (htypes : k.types = []) : k.Fits p.reach := by
  refine ⟨?_, ?_⟩
  · rw [hk]
    exact forall_mem_cons.mpr ⟨hl, forall_mem_singleton.mpr hr⟩
  · rw [htypes]
    nofun

theorem settle_binary_ok (he : e.In p.reach) (hl : p.Typed lhs) (hr : p.Typed rhs)
    (ht : t.Known p.reach) : ReportsTyped h G p (settle e (.binary op lhs rhs) t) :=
  settle_ok he ⟨typed_pair hl hr rfl, nofun, ht, trivial⟩

theorem incompatible_ok {E R : Tables → ExprId → Prop} {G2 : Gaps} {op : String} :
    ReportsOr E h G G2 p (incompatible e op lhs rhs) R :=
  .tables .fail

/-! ## Arrays -/

theorem TypeTable.known_arrayElement {t : TypeTable} {n m : Nat} (h : t.WellFormed n) {id : TypeId}
    (hid : t.isArray id = true) : ((t.next? id).getD .error).Known ⟨m, t.size⟩ := by
  have hsome : (t.next? id).isSome := by
    unfold isArray at hid
    unfold next?
    split at hid <;> simp_all
  obtain ⟨c, hc⟩ := Option.isSome_iff_exists.mp hsome
  rw [hc]
  exact h.known_next hc

theorem arrayOperation_ok {array : TypeId} (he : p.Ready e)
    (harray : p.types.isArray array = true) :
    ReportsTyped h G p (arrayOperation e array) := by
  refine .intro fun hp => .ask (.ask (.ask ?_))
  split
  · exact .fail
  refine .bind (intern_single_ok (TypeTable.known_arrayElement hp.types harray)
    (.inr (.inl rfl))) fun t q hpq _ ht => ?_
  refine .bind (finish_ok (he.of_same hpq ht.2.2) ht.1) fun r u _ _ hr => .ask ?_
  split
  · exact .pure hr
  · exact .ask .fail

/-! ## Comparisons -/

theorem comparison_ok (he : p.Ready e) (hl : p.Typed lhs) (hr : p.Typed rhs) :
    ReportsTyped h G p (comparison e op lhs rhs) := by
  refine .tables ?_
  split
  · split
    · exact incompatible_ok
    refine .bind (castTo_ok hl known_ofScalar) fun l q hpq _ hl => ?_
    refine .bind (castTo_ok (hpq.typed hr) known_ofScalar) fun r u hqu _ hr => ?_
    exact settle_binary_ok ((hpq.trans hqu).inside he.inside) (hqu.typed hl) hr known_ofScalar
  · split
    · exact finish_ok he known_ofScalar
    · exact incompatible_ok

/-! ## Pointers -/

theorem scaleIndex_ok {index : ExprId} (hi : p.Typed index) :
    ReportsTyped h G p (scaleIndex index elem) := by
  refine .ask (.bind (castTo_ok hi known_sizeType) fun i q _ _ hi => ?_)
  refine sizeOf_ok fun size => ?_
  split
  · exact .pure hi
  refine .ask (.ask ?_)
  split
  · exact integer_ok known_sizeType
  · refine .bind (integer_ok known_sizeType) fun n r hqr _ hn => ?_
    exact typed_ok ⟨typed_pair (hqr.typed hi) hn rfl, nofun, known_sizeType, trivial⟩

theorem known_differenceType (t : Target) (r : Reach) : t.differenceType.Known r := known_ofScalar

theorem pointerDifference_ok (he : e.In p.reach) (hl : p.Typed lhs) (hr : p.Typed rhs) :
    ReportsTyped h G p (pointerDifference e lhs rhs elem) := by
  refine .ask (.ask ?_)
  refine .bind (typed_ok ⟨typed_pair hl hr rfl, nofun, known_differenceType _ _, trivial⟩)
    fun d q hpq _ hd => sizeOf_ok fun size => ?_
  dsimp only
  split
  · exact settle_binary_ok (hpq.inside he) (hpq.typed hl) (hpq.typed hr) (known_differenceType _ _)
  refine .bind (integer_ok (known_differenceType _ _)) fun n r hqr _ hn => ?_
  exact settle_binary_ok ((hpq.trans hqr).inside he) (hqr.typed hd) hn (known_differenceType _ _)

theorem some_ok {x : Analyse ExprId} (hx : ReportsTyped h G p x) :
    Reports h G p (do return some (← x)) fun q r => ∀ c ∈ r, q.Typed c := by
  refine .bind hx fun r q _ _ hr => .pure ?_
  rintro _ ⟨⟩
  exact hr

theorem pointerArithmetic_ok (he : e.In p.reach) (hl : p.Typed lhs) (hr : p.Typed rhs) :
    Reports h G p (pointerArithmetic e op lhs rhs) fun q r => ∀ c ∈ r, q.Typed c := by
  refine .intro fun hp => .tables ?_
  dsimp only
  split
  · split
    · split
      · exact some_ok (pointerDifference_ok he hl hr)
      · exact some_ok incompatible_ok
    · exact some_ok incompatible_ok
  · rename_i hk _
    have ht := hp.types.known_of_kind (m := p.exprs.size) hk nofun
    split
    · refine .bind (scaleIndex_ok hr) fun r q hpq _ hr => some_ok ?_
      exact settle_binary_ok (hpq.inside he) (hpq.typed hl) hr (hpq.known ht)
    · exact some_ok incompatible_ok
  · rename_i hk _
    have ht := hp.types.known_of_kind (m := p.exprs.size) hk nofun
    split
    · refine .bind (scaleIndex_ok hl) fun l q hpq _ hl => some_ok ?_
      exact settle_binary_ok (hpq.inside he) hl (hpq.typed hr) (hpq.known ht)
    · exact some_ok incompatible_ok
  · exact .pure nofun

/-! ## Arithmetic -/

theorem arithmetic_ok (he : e.In p.reach) (hl : p.Typed lhs) (hr : p.Typed rhs) :
    ReportsTyped h G p (arithmetic e op lhs rhs) := by
  refine .tables ?_
  split
  · split
    · exact .fail
    split
    · refine .bind (castTo_ok hl known_ofScalar) fun l q hpq _ hl => ?_
      exact settle_binary_ok (hpq.inside he) hl (hpq.typed hr) known_ofScalar
    split
    · exact incompatible_ok
    refine .bind (castTo_ok hl known_ofScalar) fun l q hpq _ hl => ?_
    refine .bind (castTo_ok (hpq.typed hr) known_ofScalar) fun r u hqu _ hr => ?_
    exact settle_binary_ok ((hpq.trans hqu).inside he) (hqu.typed hl) hr known_ofScalar
  · exact incompatible_ok

section

variable (hh : h.Sound) (hG : ¬ G.declaring)
include hh hG

theorem logical_ok (he : e.In p.reach) (hl : lhs.In p.reach) (hr : rhs.In p.reach) :
    ReportsTyped h G p (logical e op lhs rhs sc) := by
  refine .bind (condition_ok hh hG hl) fun l q hpq _ hl => ?_
  refine .bind (condition_ok hh hG (hpq.inside hr)) fun r u hqu _ hr => ?_
  refine .unlessError (hqu.typed hl) (.unlessError hr ?_)
  exact settle_binary_ok ((hpq.trans hqu).inside he) (hqu.typed hl) hr known_ofScalar

theorem spelledOperatorCall_ok {base : ExprId} {name spelling : String} {args : List ExprId}
    (hb : base.In p.reach) (hargs : ∀ a ∈ args, a.In p.reach) :
    ReportsTyped h G p (spelledOperatorCall e base name spelling args sc) := by
  refine .ask (.bind (addExpr_ok rfl (fits_single hb rfl rfl)) fun callee q hpq _ hc => ?_)
  refine .bind addExpr_ok fun op r hqr _ hop => ?_
  refine madeCall_ok hh hG (hqr.inside hc) (forall_mem_cons.mpr ⟨hop, fun a ha => ?_⟩)
  exact (hpq.trans hqr).inside (hargs a ha)

theorem binaryMember_ok (hl : lhs.In p.reach) (hr : rhs.In p.reach) :
    Reports h G p (binaryMember e op lhs rhs sc) fun q r =>
      (∀ c ∈ r, q.Typed c) ∧ (r = none → q = p) := by
  refine .tables ?_
  split
  · split
    · refine .bind (spelledOperatorCall_ok hh hG hl (forall_mem_singleton.mpr hr))
        fun c q _ _ hc => .pure ⟨?_, nofun⟩
      rintro _ ⟨⟩
      exact hc
    · exact .pure ⟨nofun, fun _ => rfl⟩
  · exact .pure ⟨nofun, fun _ => rfl⟩

theorem plainBinary_ok (he : p.Ready e) (hl : p.Typed lhs) (hr : p.Typed rhs) :
    ReportsTyped h G p (plainBinary e op lhs rhs sc) := by
  refine .tables ?_
  split
  · exact logical_ok hh hG he.inside hl.inside hr.inside
  split
  · exact comparison_ok he hl hr
  split
  · rename_i harray
    exact arrayOperation_ok he (Bool.and_eq_true_iff.mp harray).2
  split
  · rename_i harray
    exact arrayOperation_ok he (Bool.and_eq_true_iff.mp harray).2
  split
  · refine .bind (pointerArithmetic_ok he.inside hl hr) fun r q hpq _ hres => ?_
    cases r with
    | some r => exact .pure (hres r rfl)
    | none => exact arithmetic_ok (hpq.inside he.inside) (hpq.typed hl) (hpq.typed hr)
  · exact arithmetic_ok he.inside hl hr

theorem binary_ok (he : e.In p.reach) (hl : lhs.In p.reach) (hr : rhs.In p.reach) :
    ReportsTyped h G p (binary e op lhs rhs sc) := by
  refine .bind (value_ok hh hG hl) fun l q hpq _ hl => ?_
  refine .bind (value_ok hh hG (hpq.inside hr)) fun r u hqu _ hr => ?_
  have hl := hqu.typed hl
  have he := (hpq.trans hqu).inside he
  refine .unlessError hl (.unlessError hr ?_)
  have hchildren := typed_pair (k := .binary op l r) hl hr rfl
  refine .bind (setKind_ok rfl (fits_pair hl.inside hr.inside rfl rfl)
    fun _ => ⟨hchildren, fun _ => trivial⟩) fun _ w huw _ hw => ?_
  obtain ⟨hready, -⟩ := Tables.ready_setKind he huw hw hchildren fun _ _ => trivial
  refine .bind (binaryMember_ok hh hG (huw.inside hl.inside) (huw.inside hr.inside))
    fun call x _ _ hcall => ?_
  cases call with
  | some call => exact .pure (hcall.1 call rfl)
  | none =>
    rw [hcall.2 rfl]
    exact plainBinary_ok hh hG hready (huw.typed hl) (huw.typed hr)

end

/-! ## Prefix operators -/

theorem children_foldedUnary {op : UnaryOp} {k' : Expr} (hk : foldedUnary op s k = some k') :
    (∃ value suffix, k' = .integer value suffix) ∨ ∃ value suffix, k' = .real value suffix := by
  unfold foldedUnary at hk
  split at hk
  · cases hk
    exact .inl ⟨_, _, rfl⟩
  · split at hk
    · cases hk
      exact .inr ⟨_, _, rfl⟩
    · cases hk
  · cases hk

theorem scalarUnary_ok {op : UnaryOp} (he : e.In p.reach) (ho : p.Typed operand) :
    ReportsTyped h G p (scalarUnary e op operand s) := by
  refine .bind (castTo_ok ho known_ofScalar) fun o q hpq _ ho => .ask ?_
  refine settle_ok (hpq.inside he) ?_
  cases hfolded : foldedUnary op s (q.exprs.kind o) with
  | none => exact ⟨typed_single ho rfl, nofun, known_ofScalar, trivial⟩
  | some k =>
    rcases children_foldedUnary hfolded with ⟨_, _, rfl⟩ | ⟨_, _, rfl⟩ <;>
      exact ⟨nofun, nofun, known_ofScalar, trivial⟩

theorem dereference_ok (he : p.Ready e) : ReportsTyped h G p (dereference e operand) := by
  refine .intro fun hp => .tables ?_
  dsimp only
  split
  · rename_i next hk
    exact finish_ok he (hp.types.known_component hk (by simp [TypeKind.components]))
  · exact .fail

theorem address_ok {k : TypeKind} (he : e.In p.reach) (ho : p.Typed operand)
    (hk : k = .pointer (p.typeOf operand) ∨
      k = .delegate (p.typeOf operand) ∧ p.types.IsFunction (p.typeOf operand)) :
    Reports h G p (do settle e (.unary .addressOf operand) (← intern k)) fun q r =>
      q.Typed r := by
  refine .intro fun hp => ?_
  have hsettle {q : Tables} {t : TypeId} (hpq : p.Onward q) (ht : t.Known q.reach) :
      ReportsTyped h G q (settle e (.unary .addressOf operand) t) :=
    settle_ok (hpq.inside he) ⟨typed_single (hpq.typed ho) rfl, nofun, ht, trivial⟩
  rcases hk with rfl | ⟨rfl, hf⟩
  · exact .bind (intern_single_ok (hp.known_typeOf ho) (.inl rfl))
      fun t q hpq _ ht => hsettle hpq ht.1
  · exact .bind (intern_delegate_ok hf) fun t q hpq hq ht => hsettle hpq (ht.known hq.types)

theorem addressOf_ok (he : e.In p.reach) (ho : p.Typed operand) :
    ReportsTyped h G p (addressOf e operand) := by
  refine .intro fun hp => .tables ?_
  have hplace : ReportsTyped h G p
      (if p.isLvalue operand = true then do
        settle e (.unary .addressOf operand) (← intern (.pointer (p.typeOf operand)))
      else fail (p.exprs.span e) (.notLvalue (p.text operand))) := by
    split
    · exact address_ok he ho (.inl rfl)
    · exact .fail
  dsimp only
  split
  · rename_i s hk
    split
    · rename_i f hf
      refine .bind (note_ok fun _ => trivial) ?_
      rintro _ q hpq - rfl
      refine address_ok (hpq.inside he) (hpq.typed ho) ?_
      have hs : p.isFunction s = true := by
        rw [Tables.isFunction, hf]
        rfl
      split
      · exact .inr ⟨rfl, (hp.backs ho hk).isFunction hs⟩
      · exact .inl rfl
    · split
      · refine .bind (note_ok fun _ => trivial) ?_
        rintro _ q hpq - rfl
        exact address_ok (hpq.inside he) (hpq.typed ho) (.inl rfl)
      · exact .fail
  · rename_i s hk
    split
    · exact address_ok he ho (.inr ⟨rfl, (hp.backs ho hk).isFunction ‹_›⟩)
    · exact hplace
  · exact hplace

section

variable (hh : h.Sound) (hG : ¬ G.declaring)
include hh hG

theorem negation_ok {op : UnaryOp} (he : p.Ready e) (ho : p.Typed operand) :
    ReportsTyped h G p (negation e op operand sc) := by
  refine .tables ?_
  dsimp only
  split
  · exact arrayOperation_ok he ‹_›
  split
  · exact spelledOperatorCall_ok hh hG ho.inside nofun
  split
  · exact .fail
  split
  · exact .fail
  · exact scalarUnary_ok he.inside ho

theorem unary_ok {op : UnaryOp} (he : e.In p.reach) (ho : operand.In p.reach) :
    ReportsTyped h G p (unary e op operand sc) := by
  refine .bind (hh.expr hG ho) fun o q hpq _ ho => ?_
  split
  · exact .unlessError ho (addressOf_ok (hpq.inside he) ho)
  refine .bind (toValue_ok hh hG ho) fun v r hqr _ hv => .unlessError hv ?_
  have he := (hpq.trans hqr).inside he
  have hchildren := typed_single (k := .unary op v) hv rfl
  refine .bind (setKind_ok rfl (fits_single hv.inside rfl rfl)
    fun _ => ⟨hchildren, fun _ => trivial⟩) fun _ u hru _ hu => ?_
  obtain ⟨hready, -⟩ := Tables.ready_setKind he hru hu hchildren fun _ _ => trivial
  split
  · refine .bind (condition_ok hh hG (hru.inside hv.inside)) fun c w huw _ hc => ?_
    refine .unlessError hc (settle_ok (huw.inside hready.inside) ?_)
    exact ⟨typed_single hc rfl, nofun, known_ofScalar, trivial⟩
  · exact dereference_ok hready
  · exact negation_ok hh hG hready (hru.typed hv)

/-! ## Comma and choice -/

theorem comma_ok (he : e.In p.reach) (hl : lhs.In p.reach) (hr : rhs.In p.reach) :
    ReportsTyped h G p (comma e lhs rhs sc) := by
  refine .bind (hh.expr hG hl) fun l q hpq _ hl => ?_
  refine .bind (value_ok hh hG (hpq.inside hr)) fun r u hqu hu hr => ?_
  refine .unlessError (hqu.typed hl) (.unlessError hr (.ask ?_))
  exact settle_ok ((hpq.trans hqu).inside he)
    ⟨typed_pair (hqu.typed hl) hr rfl, nofun, hu.known_typeOf hr, trivial⟩

omit hh hG in
theorem known_choiceType (hp : p.Sound G) {yes no : ExprId} (hyes : p.Typed yes) (hno : p.Typed no)
    (ht : choiceType p yes no = some t) : t.Known p.reach := by
  have h1 := hp.known_typeOf hyes
  have h2 := hp.known_typeOf hno
  unfold choiceType at ht
  dsimp only at ht
  split at ht
  · cases ht
    exact h1
  split at ht
  · cases ht
    exact known_ofScalar
  split at ht
  · cases ht
    exact h1
  split at ht
  · cases ht
    exact h2
  · cases ht

theorem cond_ok {test yes no : ExprId} (he : e.In p.reach) (htest : test.In p.reach)
    (hyes : yes.In p.reach) (hno : no.In p.reach) :
    ReportsTyped h G p (cond e test yes no sc) := by
  refine .bind (condition_ok hh hG htest) fun c q hpq _ hc => ?_
  refine .bind (value_ok hh hG (hpq.inside hyes)) fun y r hqr _ hy => ?_
  refine .bind (value_ok hh hG ((hpq.trans hqr).inside hno)) fun n u hru hu hn => ?_
  have hc := (hqr.trans hru).typed hc
  have hy := hru.typed hy
  refine .unlessError hc (.unlessError hy (.unlessError hn (.ask ?_)))
  split
  · exact incompatible_ok
  rename_i t ht
  have hknown := known_choiceType hu hy hn ht
  refine .bind (convert_ok hy) fun y' v huv _ hy => ?_
  refine .bind (convert_ok (huv.typed hn)) fun n' w hvw _ hn => ?_
  refine settle_ok ((hpq.trans (hqr.trans (hru.trans (huv.trans hvw)))).inside he) ?_
  refine ⟨forall_mem_cons.mpr ⟨(huv.trans hvw).typed hc, ?_⟩, forall_mem_nil _,
    (huv.trans hvw).known hknown, trivial⟩
  exact forall_mem_cons.mpr ⟨hvw.typed hy, forall_mem_singleton.mpr hn⟩

end

end DCompiler
