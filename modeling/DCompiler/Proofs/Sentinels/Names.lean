import DCompiler.Proofs.Sentinels.Assignments
import DCompiler.Proofs.Grammar.Parser

/-!
# Names, members and indices, without silent failures but one

A name or a member gives an expression with a type, or a report. The only way out is the name of a
variable whose type is not known yet (`settle_name_answers`). The elements of a tuple have types, so
what is picked from it has one too.
-/

namespace DCompiler

open Analyse List Option SymbolTable

variable {h : Analyser} {G : Gaps} {p : Tables}
variable {e base : ExprId} {s : SymbolId} {sc : ScopeId} {type : TypeId} {name : String}

/-! ## Variables -/

theorem settle_gap {R : Tables → ExprId → Prop} {k : Expr} (he : e.In p.reach)
    (hs : (p.symbols.var? s).isSome) (hk : k = .symbolRef s ∨ ∃ base, k = .member base s) :
    ReportsOr (fun q r => q.gap e r = true) h G G p (settle e k .error) R := by
  intro _ hp a t r ha hrun _
  cases hrun
  subst ha
  let q : Tables := { a.toTables with exprs := (a.exprs.setKind e k).setType e .error }
  have hnode : q.exprs.node e = _ := (a.exprs.replaces_settle e k .error).self he
  have herror : q.isError e = true := by
    have htype : q.typeOf e = .error := by
      rw [Tables.typeOf, ExprTable.type?, hnode]
      rfl
    have hkind : q.types.kind .error = .error := hp.types.kind_error
    simp [Tables.isError, htype, TypeTable.isError, hkind]
  have hname : q.isVariableName e = true := by
    rcases hk with rfl | ⟨base, rfl⟩ <;>
      · rw [Tables.isVariableName, ExprTable.kind, hnode]
        exact hs
  refine .inr ?_
  show q.gap e e = true
  rw [Tables.gap, herror, hname, Bool.or_true]
  rfl

/-- A type for a name, or the error type for the name of a variable. -/
def Tables.NamesOr (p : Tables) (s : SymbolId) (t : TypeId) : Prop :=
  p.Names s t ∧ t.KnownOr p.reach (p.symbols.var? s).isSome

theorem Tables.NamesOr.mono {q : Tables} {t : TypeId} (hs : p.NamesOr s t) (hpq : p.Onward q) :
    q.NamesOr s t := by
  refine ⟨hs.1.mono hpq, (hs.2.mono hpq.reach).weaken fun hv => ?_⟩
  obtain ⟨v, hv⟩ := isSome_iff_exists.mp hv
  obtain ⟨w, hw, -⟩ := hpq.vars hv
  exact isSome_iff_exists.mpr ⟨w, hw⟩

namespace Tables.Sound

theorem namesOr_variable (hp : p.Sound G) {v : Variable} (hv : p.symbols.var? s = some v) :
    p.NamesOr s v.type :=
  ⟨.inl ⟨v, hv, (hp.var hv).delegate⟩,
    (hp.var hv).known.weaken fun _ => isSome_iff_exists.mpr ⟨v, hv⟩⟩

theorem namesOr_function (hp : p.Sound G) (hs : p.isFunction s = true) :
    p.NamesOr s (p.functionType s) :=
  have hfunction := hp.isFunction_functionType hs
  ⟨.inr ⟨hs, hfunction⟩, .inl (hfunction.known hp.types)⟩

end Tables.Sound

theorem settle_name_answers {k : Expr} {t : TypeId} (he : e.In p.reach) (hs : p.NamesOr s t)
    (hk : k = .symbolRef s ∨ ∃ base, p.Typed base ∧ k = .member base s) :
    Answers h G p e (settle e k t) := by
  rcases hs.2 with hknown | ⟨rfl, hvar⟩
  · rcases hk with rfl | ⟨base, hbase, rfl⟩
    · exact .of (settle_ok he ⟨nofun, nofun, hknown, hs.1⟩)
    · exact .of (settle_ok he ⟨typed_single hbase rfl, nofun, hknown, hs.1⟩)
  · exact settle_gap he hvar (hk.imp_right fun ⟨base, _, hk⟩ => ⟨base, hk⟩)

/-! ## `this` and `super` -/

theorem accepts_variable (hp : p.Sound G) (hs : p.HasVariable s) :
    p.Accepts (.symbolRef s) (p.variableType s) := by
  obtain ⟨v, hv, hknown⟩ := hs
  have htype : p.variableType s = v.type := by rw [Tables.variableType, hv]
  rw [htype]
  exact ⟨nofun, nofun, hknown, .inl ⟨v, hv, (hp.var hv).delegate⟩⟩

theorem hasVariable_thisVar (hp : p.Sound G) {var : SymbolId} (hvar : thisVar? p sc = some var) :
    p.HasVariable var := by
  obtain ⟨func, -, hfunc⟩ := bind_eq_some_iff.mp hvar
  obtain ⟨f, hf, hthis⟩ := bind_eq_some_iff.mp hfunc
  exact (hp.func hf).this var hthis

theorem thisExpr_ok (he : e.In p.reach) : ReportsTyped h G p (thisExpr e sc) := by
  refine .intro fun hp => .tables ?_
  split
  · exact .fail
  · exact settle_ok he (accepts_variable hp (hasVariable_thisVar hp ‹_›))

theorem superExpr_ok (hG : ¬ G.declaring) (he : e.In p.reach) :
    ReportsTyped h G p (superExpr e sc) := by
  refine .intro fun hp => .tables ?_
  dsimp only
  split
  · exact .fail
  rename_i var hvar
  split
  · exact .fail
  rename_i base hbase
  obtain ⟨s, -, ha⟩ := bind_eq_some_iff.mp hbase
  obtain ⟨a, ha, hbase⟩ := bind_eq_some_iff.mp ha
  obtain ⟨b, hb⟩ := isSome_iff_exists.mp ((hp.aggregate ha).base base hbase)
  have hknown := hp.known_aggregate hG hb
  rw [hb]
  refine .bind (typed_ok (accepts_variable hp (hasVariable_thisVar hp hvar)))
    fun this q hpq _ hthis => ?_
  exact settle_ok (hpq.inside he) ⟨typed_single hthis rfl,
    forall_mem_singleton.mpr (hpq.known hknown), hpq.known hknown, trivial⟩

/-! ## Symbols -/

theorem noteFunc_ok {n : FunctionNote} (hn : ∀ v, n = .thisVar v → p.HasVariable v) :
    ReportsOnly h G p (noteFunc s n) := by
  refine .imp (note_ok fun _ => ?_) fun _ _ _ _ _ => trivial
  cases n with
  | thisVar v => exact hn v rfl
  | _ => trivial

theorem noteNestedUse_ok : ReportsOnly h G p (noteNestedUse s sc) := by
  refine .tables ?_
  split
  · split
    · refine .bind (note_ok fun _ => ?_) fun _ q _ _ _ => ?_
      · trivial
      refine .bind (noteFunc_ok nofun) fun _ r _ _ _ => noteFunc_ok nofun
    · exact .pure trivial
  · exact .pure trivial

theorem memberOfThis_answers (he : e.In p.reach) (hs : p.NamesOr s type) :
    Answers h G p e (memberOfThis e s type sc) := by
  refine .ask (.bind addExpr_ok fun new q hpq _ hnew => ?_)
  refine .bind (thisExpr_ok hnew) fun this r hqr _ hthis => .unlessError hthis ?_
  exact settle_name_answers ((hpq.trans hqr).inside he) (hs.mono (hpq.trans hqr))
    (.inr ⟨this, hthis, rfl⟩)

theorem variableExpr_answers {v : Variable} (he : e.In p.reach) (hv : p.symbols.var? s = some v) :
    Answers h G p e (variableExpr e s v sc) := by
  refine .intro fun hp => .tables ?_
  have hs := hp.namesOr_variable hv
  split
  · rename_i init hinit
    obtain ⟨init', hinit', hmanifest⟩ := bind_eq_some_iff.mp hinit
    split at hmanifest
    · rename_i hcond
      cases hmanifest
      have htyped : p.Typed init := (Bool.and_eq_true_iff.mp hcond).2
      refine .bind (copyExpr_ok htyped.inside) fun copied q _ _ hcopied => ?_
      exact .bind setSpan_ok fun _ r hqr _ _ => .pure (hqr.typed (hcopied.2 htyped))
    · cases hmanifest
  · split
    · exact memberOfThis_answers he hs
    · refine .bind noteNestedUse_ok fun _ q hpq _ _ => ?_
      exact settle_name_answers (hpq.inside he) (hs.mono hpq) (.inl rfl)

theorem typeRef_ok (he : e.In p.reach) (ht : type.Known p.reach) :
    ReportsTyped h G p (settle e (.typeRef type) type) :=
  settle_ok he ⟨nofun, forall_mem_singleton.mpr ht, ht, trivial⟩

theorem initialValue_ok {place : Span} (ht : type.Known p.reach) :
    Reports h G p (initialValue type place) fun q r => ∀ c ∈ r, q.Typed c := by
  have hnull : Reports h G p (do
      let null ← typed .null place .null
      return some (← typed (.cast null type) place type)) fun q r => ∀ c ∈ r, q.Typed c := by
    refine .bind (typed_ok ⟨nofun, nofun, known_null _, trivial⟩) fun null q hpq _ hn => ?_
    have ht := hpq.known ht
    exact some_ok (typed_ok ⟨typed_single hn rfl, forall_mem_singleton.mpr ht, ht, trivial⟩)
  refine .ask ?_
  split
  · split
    · exact some_ok (integer_ok ht)
    split
    · exact some_ok (typed_ok ⟨nofun, nofun, ht, trivial⟩)
    · exact .pure nofun
  · exact hnull
  · exact hnull
  · exact hnull
  · exact hnull
  · exact hnull
  · exact .pure nofun

section

variable (hh : h.Sound) (hG : ¬ G.declaring)
include hh hG

section

variable (he : e.In p.reach)
include he

theorem functionExpr_answers {f : Function} (hs : p.isFunction s = true) :
    Answers h G p e (functionExpr e s f sc) := by
  refine .ask (.bind (hh.signature hG) fun _ q hpq hq _ => .ask ?_)
  have hnames := hq.namesOr_function (hpq.functions hs)
  split
  · exact memberOfThis_answers (hpq.inside he) hnames
  · exact settle_name_answers (hpq.inside he) hnames (.inl rfl)

theorem symbolExpr_answers : Answers h G p e (symbolExpr e s sc) := by
  refine .intro fun hp => .ask ?_
  have hs := hp.symbols s
  cases hk : p.symbols.kind s <;> rw [hk] at hs
  case enumMember value type =>
    refine .bind (copyExpr_ok hs.1) fun copied q hpq _ hcopied => ?_
    refine .bind (hh.expr hG hcopied.1) fun v r hqr _ hv => .unlessError hv ?_
    have htype := (hpq.trans hqr).known hs.2
    exact .of (settle_ok ((hpq.trans hqr).inside he)
      ⟨typed_single hv rfl, forall_mem_singleton.mpr htype, htype, trivial⟩)
  case var v => exact variableExpr_answers he (var?_eq_some.mpr hk)
  case func f =>
    have hfunction : p.isFunction s = true := by
      rw [Tables.isFunction, func?_eq_some.mpr hk]
      rfl
    exact functionExpr_answers hh hG he hfunction
  case template t =>
    exact .of (settle_ok he ⟨forall_mem_nil _, forall_mem_nil _, TypeId.known_ofScalar, t, hk⟩)
  case aggregate a =>
    exact .of (typeRef_ok he (hs.known.known fun hgap => hG ⟨s, hgap⟩))
  case enumeration n =>
    exact .of (typeRef_ok he (TypeId.KnownOr.known hs fun hgap => hG ⟨s, hgap⟩))
  case typeAlias type => exact .of (typeRef_ok he hs)
  all_goals
    exact .of (settle_ok he ⟨forall_mem_nil _, forall_mem_nil _, TypeId.known_ofScalar, trivial⟩)

theorem identifier_answers : Answers h G p e (identifier e name sc) := by
  refine .tables ?_
  split
  · exact symbolExpr_answers hh hG he
  · exact .ask undefinedIdentifier_ok

theorem dollar_answers : Answers h G p e (dollar e sc) := by
  refine .tables ?_
  split
  · refine .bind aside_ok fun _ q hpq _ _ => ?_
    exact symbolExpr_answers hh hG (hpq.inside he)
  · exact .ask .fail

/-! ## Members -/

theorem memberExpr_answers {member : SymbolId} (hb : p.Typed base) :
    Answers h G p e (memberExpr e base member sc) := by
  refine .intro fun hp => .ask ?_
  split <;> rename_i hk
  · split
    · exact symbolExpr_answers hh hG he
    · exact settle_name_answers he (hp.namesOr_variable (var?_eq_some.mpr hk))
        (.inr ⟨base, hb, rfl⟩)
  · have hfunction : p.isFunction member = true := by
      rw [Tables.isFunction, func?_eq_some.mpr hk]
      rfl
    split
    · exact symbolExpr_answers hh hG he
    refine .bind (hh.signature hG) fun _ q hpq hq _ => .ask ?_
    exact settle_name_answers (hpq.inside he) (hq.namesOr_function (hpq.functions hfunction))
      (.inr ⟨base, hpq.typed hb, rfl⟩)
  · exact symbolExpr_answers hh hG he

theorem typeMember_answers : Answers h G p e (typeMember e type name sc) := by
  refine .tables ?_
  split
  · exact symbolExpr_answers hh hG he
  · exact .fail

theorem typeProperty_answers (ht : type.Known p.reach) :
    Answers h G p e (typeProperty e type name sc) := by
  refine .ask ?_
  split
  · exact sizeOf_ok fun _ => .ask (.of (integer_ok known_sizeType))
  split
  · refine .bind (initialValue_ok ht) fun init q hpq _ hinit => ?_
    cases init with
    | some init => exact .pure (hinit init rfl)
    | none => exact typeMember_answers hh hG (hpq.inside he)
  · exact typeMember_answers hh hG he

theorem moduleMember_answers : Answers h G p e (moduleMember e s name sc) := by
  refine .tables ?_
  dsimp only
  split
  · exact symbolExpr_answers hh hG he
  · exact .fail

theorem valueMember_answers (hb : p.Typed base) : Answers h G p e (valueMember e base name sc) := by
  refine .intro fun hp => .tables ?_
  extract_lets place rest
  have hrest {q : Tables} {b : ExprId} (hpq : p.Onward q) (hb : q.Typed b) :
      Answers h G q e (rest b) := by
    refine .ask ?_
    split
    · exact memberExpr_answers hh hG (hpq.inside he) hb
    · exact .ask (.ask .fail)
  split
  · rename_i next hnext
    split
    · have hknown : next.Known p.reach := hp.types.known_component hnext mem_cons_self
      refine .bind (typed_ok ⟨typed_single hb rfl, nofun, hknown, trivial⟩)
        fun b q hpq _ hb => hrest hpq hb
    · exact hrest .refl hb
  · exact hrest .refl hb

theorem valueProperty_answers (hb : p.Typed base) :
    Answers h G p e (valueProperty e base name sc) := by
  refine .intro fun hp => .tables ?_
  have hpointer {elem : TypeId} (helem : elem.Known p.reach) : Answers h G p e (do
      let pointer ← intern (.pointer elem)
      settle e (.cast base pointer) pointer) := by
    refine .bind (intern_single_ok helem (.inl rfl)) fun t q hpq _ ht => .of ?_
    exact settle_ok (hpq.inside he) ⟨typed_single (hpq.typed hb) rfl,
      forall_mem_singleton.mpr ht.1, ht.1, trivial⟩
  split
  · exact .ask (.of (integer_ok known_sizeType))
  · exact .ask (.of (settle_ok he ⟨typed_single hb rfl, nofun, known_sizeType, trivial⟩))
  · exact hpointer (hp.types.known_component ‹_› mem_cons_self)
  · exact hpointer (hp.types.known_component ‹_› mem_cons_self)
  · exact sizeOf_ok fun _ => .ask (.of (integer_ok known_sizeType))
  · exact valueMember_answers hh hG he hb

theorem dot_answers (hb : base.In p.reach) : Answers h G p e (dot e base name sc) := by
  refine .bind (hh.expr hG hb) fun b q hpq hq hb => .unlessError hb (.ask ?_)
  have he := hpq.inside he
  split <;> rename_i hk
  · rename_i type
    have hfits := hq.fits hb.inside
    rw [hk] at hfits
    exact typeProperty_answers hh hG he (hfits.types type mem_cons_self)
  · exact moduleMember_answers hh hG he
  · refine .bind (toValue_ok hh hG hb) fun v r hqr _ hv => .unlessError hv ?_
    exact valueProperty_answers hh hG (hqr.inside he) hv

theorem arrayLength_ok {operand : ExprId} (ho : operand.In p.reach) :
    ReportsTyped h G p (arrayLength e operand sc) := by
  refine .bind (hh.expr hG ho) fun o q hpq _ ho => .unlessError ho (.ask ?_)
  exact settle_ok (hpq.inside he) ⟨typed_single ho rfl, nofun, known_sizeType, trivial⟩

end

end

variable {v : Variable} {span : Span} {tuple place : ExprId} {es : List ExprId}
  {lower upper : Option ExprId} {elem : TypeId} {parent var : Option SymbolId}

/-! ## Variables that analysis adds -/

def Tables.Eager (p : Tables) (s : SymbolId) : Prop :=
  ∃ v, p.symbols.var? s = some v ∧ v.storage.contains .lazy = false

theorem Tables.Eager.mono {q : Tables} (hs : p.Eager s) (hpq : p.Onward q) : q.Eager s := by
  obtain ⟨v, hv, heager⟩ := hs
  obtain ⟨w, hw, hstorage, -⟩ := hpq.vars hv
  exact ⟨w, hw, hstorage ▸ heager⟩

theorem Tables.Eager.names (hs : p.Eager s) (t : TypeId) : p.Names s t := by
  obtain ⟨v, hv, heager⟩ := hs
  refine .inl ⟨v, hv, ?_⟩
  rw [heager]
  nofun

theorem Variable.Sound.of_eager (ht : v.type.KnownOr p.reach (G.vars s)) (hinit : v.init = none)
    (heager : v.storage.contains .lazy = false) : v.Sound G p s := by
  refine ⟨ht, ?_, ?_⟩
  · rw [hinit]
    nofun
  · rw [heager]
    nofun

theorem Tables.var?_withSymbol :
    (p.withSymbol name span (.var v) parent).symbols.var? ⟨p.symbols.size⟩ = some v := by
  rw [var?_eq_some, kind_withSymbol, if_pos rfl]

theorem addVariable_ok (ht : v.type.Known p.reach) (hinit : v.init = none)
    (heager : v.storage.contains .lazy = false) :
    Reports h G p (addSymbol name span (.var v) parent) fun q s =>
      q.HasVariable s ∧ q.Eager s := by
  refine .imp (addSymbol_ok id fun _ => .of_eager (.inl ht) hinit heager) ?_
  rintro q _ hpq - ⟨rfl, rfl⟩
  exact ⟨⟨v, Tables.var?_withSymbol, hpq.known ht⟩, v, Tables.var?_withSymbol, heager⟩

theorem declareTemp_ok {type : TypeId} {storage : StorageClass} (ht : type.Known p.reach)
    (heager : storage.contains .lazy = false) :
    Reports h G p (declareTemp name type storage sc span) fun q s =>
      q.HasVariable s ∧ q.Eager s := by
  refine .ask (.bind enclosing_ok fun parent q hpq _ _ => ?_)
  refine .bind (addVariable_ok (hpq.known ht) rfl heager) fun s r _ _ hs => ?_
  exact .bind overwrite_ok fun _ u hru _ _ => .pure ⟨hs.1.mono hru, hs.2.mono hru⟩

theorem noteInit_ok (he : e.In p.reach) : ReportsOnly h G p (noteVar s (.init e)) :=
  .imp (note_ok fun _ => he) fun _ _ _ _ _ => trivial

theorem lengthScope_ok (hb : p.Typed base) : ReportsOnly h G p (lengthScope base sc) := by
  refine .tables (.ask (.bind pushScope_ok fun inner q hpq _ _ => ?_))
  extract_lets rest
  have hrest {r : Tables} {init : ExprId} {storage : StorageClass} (hinit : r.Typed init)
      (heager : storage.contains .lazy = false) :
      ReportsOnly h G r (rest (init, storage)) := by
    refine .bind (declareTemp_ok known_sizeType heager) fun var u hru _ _ => ?_
    exact .bind (noteInit_ok (hru.typed hinit).inside) fun _ _ _ _ _ => .pure trivial
  have hmanifest : StorageClass.manifest.contains .lazy = false := by decide
  have hnone : StorageClass.none.contains .lazy = false := by decide
  split
  · exact .bind (integer_ok known_sizeType) fun _ _ _ _ hinit =>
      .given (hrest hinit hmanifest)
  · exact .bind (integer_ok known_sizeType) fun _ _ _ _ hinit =>
      .given (hrest hinit hmanifest)
  refine .bind (typed_ok ⟨typed_single (hpq.typed hb) rfl, nofun, known_sizeType,
    trivial⟩) fun init r _ _ hinit => ?_
  exact .given (hrest hinit hnone)

theorem usedLength_ok {var : SymbolId} : ReportsOnly h G p (usedLength var) :=
  .context fun _ _ => .pure trivial

/-! ## Tuples -/

theorem typed_expandTuplesWithin (hp : p.Sound G) (depth : Nat) (hes : ∀ e ∈ es, p.Typed e) :
    ∀ e ∈ expandTuplesWithin p depth es, p.Typed e := by
  induction depth generalizing es with
  | zero => exact hes
  | succ depth ih =>
    intro e he
    obtain ⟨t, ht, he⟩ := mem_flatMap.mp he
    split at he
    · rename_i inner hk
      have hinner : ∀ c ∈ Expr.children (.tuple inner), p.Typed c := hp.typed_children (hes t ht) hk
      exact ih hinner e he
    · rw [mem_singleton.mp he]
      exact hes t ht

theorem tupleType_ok (hes : ∀ e ∈ es, p.Typed e) :
    Reports h G p (tupleType es) fun q t => t.Known q.reach := by
  refine .intro fun hp => .tables (intern_tuple_ok fun t ht => ?_)
  obtain ⟨e, he, rfl⟩ := mem_map.mp ht
  exact hp.known_typeOf (hes e he)

theorem settle_tuple_ok (he : e.In p.reach) (hes : ∀ e ∈ es, p.Typed e) :
    ReportsTyped h G p (do settle e (.tuple es) (← tupleType es)) :=
  .bind (tupleType_ok hes) fun _ _ hpq _ ht =>
    settle_ok (hpq.inside he) ⟨fun c hc => hpq.typed (hes c hc), nofun, ht, trivial⟩

section

variable (hh : h.Sound) (hG : ¬ G.declaring) {elems : List ExprId}
include hh hG

theorem tupleBound_ok {bound : ExprId} (hb : bound.In p.reach) :
    Reports h G p (tupleBound bound sc) fun _ r => r ≠ none := by
  refine .bind (value_ok hh hG hb) fun v q _ _ hv => .unlessError hv (.ask ?_)
  split
  · exact .pure nofun
  · exact .ask (.ask .error)

theorem tupleIndex_ok (ht : p.Typed tuple) (helems : ∀ c ∈ elems, p.Typed c)
    (hi : place.In p.reach) : ReportsTyped h G p (tupleIndex e tuple elems place sc) := by
  refine .ask (.bind (lengthScope_ok ht) fun inner q hpq _ _ => ?_)
  refine .bind (tupleBound_ok hh hG (hpq.inside hi)) fun n r hqr _ hn => ?_
  cases n with
  | none => exact absurd rfl hn
  | some n =>
    dsimp only
    split
    · exact .pure ((hpq.trans hqr).typed (helems _ (mem_of_getElem? ‹_›)))
    · exact .fail

theorem tupleBounds_ok {length : Nat} (ht : p.Typed tuple) (hl : ∀ c ∈ lower, c.In p.reach)
    (hu : ∀ c ∈ upper, c.In p.reach) :
    Reports h G p (tupleBounds tuple length lower upper sc) fun _ r => r ≠ none := by
  unfold tupleBounds
  split
  · refine .bind (lengthScope_ok ht) fun inner q hpq _ _ => ?_
    refine .bind (tupleBound_ok hh hG (hpq.inside (hl _ rfl))) fun lo r hqr _ hlo => ?_
    refine .bind (tupleBound_ok hh hG ((hpq.trans hqr).inside (hu _ rfl)))
      fun hi u _ _ hhi => .pure ?_
    obtain ⟨lo, rfl⟩ := ne_none_iff_exists'.mp hlo
    obtain ⟨hi, rfl⟩ := ne_none_iff_exists'.mp hhi
    nofun
  · exact .pure nofun

theorem tupleSlice_ok (he : e.In p.reach) (ht : p.Typed tuple)
    (helems : ∀ c ∈ elems, p.Typed c) (hl : ∀ c ∈ lower, c.In p.reach)
    (hu : ∀ c ∈ upper, c.In p.reach) :
    ReportsTyped h G p (tupleSlice e tuple elems lower upper sc) := by
  refine .ask (.bind (tupleBounds_ok hh hG ht hl hu) fun bounds q hpq _ hbounds => ?_)
  obtain ⟨⟨lo, hi⟩, rfl⟩ := ne_none_iff_exists'.mp hbounds
  dsimp only
  split
  · exact .fail
  · refine settle_tuple_ok (hpq.inside he) fun c hc => hpq.typed (helems c ?_)
    exact mem_of_mem_take (mem_of_mem_drop hc)

/-! ## Slices -/

theorem bound_ok (he : e.In p.reach) : ReportsTyped h G p (bound e sc) :=
  .bind (value_ok hh hG he) fun _ _ _ _ hv => .ask (convert_ok hv)

end

theorem TypeTable.next?_dynArray {t : TypeTable} {id : TypeId}
    (hid : t.kinds[id.index]? = some (.dynArray elem)) : t.next? id = some elem := by
  have hkind : t.kind id = .dynArray elem := by simp [kind, hid]
  have hbase : t.base id = id := by
    unfold base
    rw [hkind]
  rw [next?, baseKind, hbase, hkind]

theorem settle_slice_ok (he : e.In p.reach)
    (hchildren : ∀ c ∈ base :: (lower.toList ++ upper.toList), p.Typed c)
    (helem : elem.Known p.reach) :
    ReportsTyped h G p (do settle e (.slice base lower upper var) (← intern (.dynArray elem))) := by
  refine .bind (intern_single_ok helem (.inr (.inl rfl))) fun t q hpq _ ht => ?_
  refine settle_ok (hpq.inside he) ⟨fun c hc => hpq.typed (hchildren c hc), nofun, ht.1, ?_⟩
  show (q.types.next? t).isSome
  rw [TypeTable.next?_dynArray ht.2.1]
  rfl

theorem settle_index_ok (he : e.In p.reach) (hb : p.Typed base) (hi : p.Typed place)
    (helem : elem.Known p.reach) : ReportsTyped h G p (settle e (.index base place var) elem) :=
  settle_ok he ⟨typed_pair hb hi rfl, nofun, helem, trivial⟩

theorem known_slicedElement (hp : p.Sound G) {bounded : Bool}
    (helem : slicedElement p base bounded = .ok elem) : elem.Known p.reach := by
  unfold slicedElement at helem
  split at helem <;> rename_i hk
  · split at helem <;> cases helem
    exact hp.types.known_component hk mem_cons_self
  · cases helem
    exact hp.types.known_component hk mem_cons_self
  · cases helem
    exact hp.types.known_component hk mem_cons_self
  · cases helem

section

variable (hh : h.Sound) (hG : ¬ G.declaring)
include hh hG

theorem boundedSlice_ok {lower upper : ExprId} (he : e.In p.reach) (hb : p.Typed base)
    (hl : lower.In p.reach) (hu : upper.In p.reach) (helem : elem.Known p.reach) :
    ReportsTyped h G p (boundedSlice e base lower upper elem sc) := by
  refine .ask ?_
  extract_lets rest
  have hrest {q : Tables} (hpq : p.Onward q) (found : ScopeId × Option SymbolId) :
      ReportsTyped h G q (rest found) := by
    refine .bind (bound_ok hh hG (hpq.inside hl)) fun lower r hqr _ hl => ?_
    refine .bind (bound_ok hh hG ((hpq.trans hqr).inside hu)) fun upper u hru _ hu => ?_
    refine .unlessError (hru.typed hl) (.unlessError hu ?_)
    extract_lets finish
    have hfinish {w : Tables} (huw : u.Onward w) (var : Option SymbolId) :
        ReportsTyped h G w (finish var) := by
      refine .ask ?_
      split
      · exact .ask .fail
      have hpw := hpq.trans (hqr.trans (hru.trans huw))
      refine settle_slice_ok (hpw.inside he) ?_ (hpw.known helem)
      exact forall_mem_cons.mpr ⟨hpw.typed hb, forall_mem_cons.mpr
        ⟨(hru.trans huw).typed hl, forall_mem_singleton.mpr (huw.typed hu)⟩⟩
    split
    · exact .bind usedLength_ok fun var w huw _ _ => hfinish huw var
    · exact .given (hfinish .refl none)
  split
  · exact .given (hrest .refl (sc, none))
  · exact .bind (lengthScope_ok hb) fun found q hpq _ _ =>
      .given (hrest hpq (found.1, some found.2))

theorem slice_ok (he : e.In p.reach)
    (hchildren : ∀ c ∈ base :: (lower.toList ++ upper.toList), c.In p.reach) :
    ReportsTyped h G p (slice e base lower upper sc) := by
  obtain ⟨hb, hbounds⟩ := forall_mem_cons.mp hchildren
  refine .bind (value_ok hh hG hb) fun v q hpq hq hv => .unlessError hv (.ask ?_)
  have hbounds : ∀ c ∈ lower.toList ++ upper.toList, c.In q.reach := fun c hc =>
    hpq.inside (hbounds c hc)
  have hlower : ∀ c ∈ lower, c.In q.reach := fun c hc =>
    hbounds c (mem_append_left _ (mem_toList.mpr hc))
  have hupper : ∀ c ∈ upper, c.In q.reach := fun c hc =>
    hbounds c (mem_append_right _ (mem_toList.mpr hc))
  split
  · rename_i elems hk
    have helems : ∀ c ∈ Expr.children (.tuple elems), q.Typed c := hq.typed_children hv hk
    exact tupleSlice_ok hh hG (hpq.inside he) hv helems hlower hupper
  refine .bind (operatorCall_ok hh hG hv.inside hbounds) fun call r hqr hr hcall => ?_
  cases call with
  | some call => exact .pure (hcall call rfl)
  | none =>
    refine .ask ?_
    have he := (hpq.trans hqr).inside he
    split
    · exact .ask .fail
    rename_i elem hsliced
    have helem := known_slicedElement hr hsliced
    cases lower with
    | none => exact settle_slice_ok he (forall_mem_singleton.mpr (hqr.typed hv)) helem
    | some lower =>
      cases upper with
      | none =>
        exact settle_slice_ok he (forall_mem_singleton.mpr (hqr.typed hv)) helem
      | some upper =>
        exact boundedSlice_ok hh hG he (hqr.typed hv) (hqr.inside (hlower _ rfl))
          (hqr.inside (hupper _ rfl)) helem

/-! ## Indices -/

theorem arrayIndex_ok (he : e.In p.reach) (hb : p.Typed base) (hi : place.In p.reach)
    (helem : elem.Known p.reach) :
    ReportsTyped h G p (arrayIndex e base place elem sc) := by
  refine .bind (lengthScope_ok hb) fun inner q hpq _ _ => ?_
  refine .bind (bound_ok hh hG (hpq.inside hi)) fun i r hqr _ hi => .unlessError hi ?_
  refine .tables ?_
  dsimp only
  split
  · exact .fail
  refine .bind usedLength_ok fun var u hru _ _ => ?_
  have hpu := hpq.trans (hqr.trans hru)
  exact settle_index_ok (hpu.inside he) (hpu.typed hb) (hru.typed hi) (hpu.known helem)

theorem index_ok (he : e.In p.reach) (hb : base.In p.reach)
    (hi : place.In p.reach) : ReportsTyped h G p (index e base place sc) := by
  refine .bind (value_ok hh hG hb) fun v q hpq hq hv => .unlessError hv (.ask ?_)
  have hi := hpq.inside hi
  split
  · rename_i elems hk
    have helems : ∀ c ∈ Expr.children (.tuple elems), q.Typed c := hq.typed_children hv hk
    exact tupleIndex_ok hh hG hv helems hi
  refine .bind (operatorCall_ok hh hG hv.inside (forall_mem_singleton.mpr hi))
    fun call r hqr hr hcall => ?_
  cases call with
  | some call => exact .pure (hcall call rfl)
  | none =>
    have he := (hpq.trans hqr).inside he
    have hv := hqr.typed hv
    have hi := hqr.inside hi
    refine .tables ?_
    dsimp only
    split <;> rename_i hk
    · refine .bind (value_ok hh hG hi) fun i u hru _ hi => ?_
      refine .bind (convert_ok hi) fun i w huw _ hi => .unlessError hi ?_
      have hrw := hru.trans huw
      exact settle_index_ok (hrw.inside he) (hrw.typed hv) hi (hrw.known
        (hr.types.known_component hk (by simp [TypeKind.components])))
    · refine .bind (bound_ok hh hG hi) fun i u hru _ hi => .unlessError hi ?_
      exact settle_index_ok (hru.inside he) (hru.typed hv) hi (hru.known
        (hr.types.known_component hk mem_cons_self))
    · exact arrayIndex_ok hh hG he hv hi (hr.types.known_component hk mem_cons_self)
    · exact arrayIndex_ok hh hG he hv hi (hr.types.known_component hk mem_cons_self)
    · exact .fail

end

end DCompiler
