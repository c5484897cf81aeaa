import DCompiler.Proofs.Analysis.Reached

/-!
# Slices and bounds

A static array of a function is gone when the function returns, so a slice of it must not be
returned. The check looks below all casts and then below one slice (`escaping_slice_refused`). A
slice of a slice gets through (`slice_of_slice_escapes`).

An index or slice of a tuple or static array is compared with its length once its bounds are
literals. In a slice of a static array only the upper bound is.
-/

namespace DCompiler

open Analyse Tables

variable {x func : SymbolId} {e : ExprId} {t : ExprTable} {p : Tables} {d : Nat}

/-- Casts of a variable, or of a slice of the variable. -/
inductive ExprTable.Nest (t : ExprTable) (x : SymbolId) : ExprId → Prop
  | var {e : ExprId} (h : t.kind e = .symbolRef x) : Nest t x e
  | slice {e base : ExprId} {lower upper : Option ExprId} {length : Option SymbolId}
    (h : t.kind e = .slice base lower upper length) (hbase : t.kind base = .symbolRef x) :
    Nest t x e
  | cast {e operand : ExprId} {type : TypeId} (h : t.kind e = .cast operand type)
    (hoperand : Nest t x operand) : Nest t x e

/-- A static array that a function has for itself. -/
structure Tables.Owns (p : Tables) (func x : SymbolId) (v : Variable) : Prop where
  var : p.symbols.var? x = some v
  owner : v.owner = some func
  notRef : v.storage.isRef = false
  notStatic : v.storage.contains .static = false
  type : ∃ elem length, p.types.kind v.type = .staticArray elem length

namespace ExprTable

def castOperand (t : ExprTable) (e : ExprId) : List ExprId :=
  match t.kind e with
  | .cast operand _ => [operand]
  | _ => []

theorem index_lt_of_castOperand {c : ExprId} (hc : c ∈ t.castOperand e) : e.index < t.size := by
  refine index_lt_of_kind rfl fun herror => ?_
  simp [castOperand, herror] at hc

theorem Nest.ends (h : t.Nest x e) : Ends t.castOperand (t.size + 1) e := by
  suffices hends : ∃ n, Ends t.castOperand n e by
    obtain ⟨n, hn⟩ := hends
    exact ends_size (fun _ _ => congrArg ExprId.mk) index_lt_of_castOperand hn
  induction h with
  | var h | slice h _ => exact exists_ends (by simp [castOperand, h])
  | cast h _ ih => exact exists_ends (by simpa [castOperand, h] using ih)

end ExprTable

theorem Tables.kind_belowCasts (h : p.exprs.Nest x e) (hd : Ends p.exprs.castOperand d e) :
    p.exprs.kind (p.belowCastsWithin d e) = .symbolRef x ∨ ∃ base lower upper length,
      p.exprs.kind (p.belowCastsWithin d e) = .slice base lower upper length ∧
        p.exprs.kind base = .symbolRef x := by
  induction h generalizing d with
  | var h =>
    cases d with
    | zero => exact hd.elim
    | succ d => simp [belowCastsWithin, h]
  | slice h hbase =>
    cases d with
    | zero => exact hd.elim
    | succ d => simp [belowCastsWithin, h, hbase]
  | cast h _ ih =>
    cases d with
    | zero => exact hd.elim
    | succ d =>
      simp only [belowCastsWithin, h]
      exact ih (hd _ (by simp [ExprTable.castOperand, h]))

theorem escapingLocal_eq {v : Variable} (h : p.exprs.Nest x e) (hx : p.Owns func x v)
    (harray : p.isArray e = true) : escapingLocal p e func = some x := by
  obtain ⟨elem, length, htype⟩ := hx.type
  unfold escapingLocal
  rcases kind_belowCasts h h.ends with hk | ⟨base, lower, upper, len, hk, hbase⟩
  · simp [belowCasts, hk, harray, hx.var, hx.owner, hx.notRef, hx.notStatic, htype]
  · simp [belowCasts, hk, hbase, harray, hx.var, hx.owner, hx.notRef, hx.notStatic, htype]

/-! ## Returned values -/

variable {s u : Analysis} {h : Analyser} {place : Span} {problem : Problem}

/-- An error was reported, and an error expression stands in its place. -/
def Refused (s : Analysis) (r : ExprId) (u : Analysis) : Prop :=
  u.exprs.kind r = .error ∧ ∃ d, d.isError ∧ u.log = s.log.report d

theorem fail_run (h : Analyser) (s : Analysis) (place : Span) (problem : Problem) :
    ∃ r u, (fail place problem).run h s = some (r, u) ∧ u.symbols = s.symbols ∧
      u.types = s.types ∧ Refused s r u :=
  ⟨_, _, rfl, rfl, rfl, congrArg ExprNode.kind (s.exprs.node_addNode_self ⟨.error, place, _⟩), _,
    rfl, rfl⟩

theorem ExprTable.Nest.extends {t' : ExprTable} (h : t.Nest x e) (ht : t.Extends t') :
    t'.Nest x e := by
  induction h with
  | var h => exact .var (ht.kind h nofun)
  | slice h hbase => exact .slice (ht.kind h nofun) (ht.kind hbase nofun)
  | cast h _ ih => exact .cast (ht.kind h nofun) ih

theorem convert_nest {elem result : TypeId} (he : s.exprs.Nest x e)
    (hresult : s.types.kind result = .dynArray elem) (herror : s.isError e = false) :
    ∃ r u, (convert e result).run h s = some (r, u) ∧ u.symbols = s.symbols ∧ u.types = s.types ∧
      (u.log = s.log ∧ u.exprs.Nest x r ∧ u.typeOf r = result ∨ Refused s r u) := by
  have htarget : s.types.isError result = false := by simp [TypeTable.isError, hresult]
  by_cases hsame : s.typeOf e = result
  · refine ⟨e, s, ?_, rfl, rfl, .inl ⟨rfl, he, hsame⟩⟩
    rw [convert]
    simp [tables, context_run, hsame]
  by_cases hconv : s.convertsTo e result = true
  · have hcast : (convert e result).run h s =
        (typed (.cast e result) (s.exprs.span e) result).run h s := by
      rw [convert]
      cases he with
      | var hk | slice hk _ | cast hk _ =>
        simp [castTo, tables, context_run, hsame, herror, htarget, hconv, hk, hresult]
    have hnode := s.exprs.node_addNode_self ⟨.cast e result, s.exprs.span e, some result⟩
    refine ⟨_, _, hcast, rfl, rfl, .inl ⟨rfl, ?_, ?_⟩⟩
    · exact .cast (congrArg ExprNode.kind hnode) (he.extends (.addNode _))
    · exact congrArg (Option.getD · .error) (congrArg ExprNode.type hnode)
  · have hfail : ∃ problem, (convert e result).run h s =
        (fail (s.exprs.span e) problem).run h s := by
      rw [convert]
      simp only [tables, run_bind, context_run, Option.bind_some, run_pure, hsame, herror, htarget,
        hconv]
      exact ⟨_, rfl⟩
    obtain ⟨problem, hfail⟩ := hfail
    obtain ⟨r, u, hr, hsymbols, htypes, hrefused⟩ := fail_run h s (s.exprs.span e) problem
    exact ⟨r, u, hfail.trans hr, hsymbols, htypes, .inr hrefused⟩

theorem returnedValue_refused {elem result : TypeId} {v : Variable} (he : s.exprs.Nest x e)
    (hresult : s.types.kind result = .dynArray elem) (herror : s.isError e = false)
    (hx : s.Owns func x v) :
    ∃ r u, (returnedValue e func result place).run h s = some (r, u) ∧ Refused s r u := by
  have hbase : s.types.baseKind result = .dynArray elem := by
    simp [TypeTable.baseKind, TypeTable.base, hresult]
  have hvoid : s.types.isVoid result = false := by
    simp [TypeTable.isVoid, TypeTable.scalar?, hbase]
  obtain ⟨r, u, hr, hsymbols, htypes, ⟨hlog, hnest, htype⟩ | hrefused⟩ :=
    convert_nest (h := h) he hresult herror
  · have hsome : escapingLocal u.toTables r func = some x := by
      refine escapingLocal_eq hnest ⟨hsymbols ▸ hx.var, hx.owner, hx.notRef, hx.notStatic,
        htypes ▸ hx.type⟩ ?_
      simp [isArray, TypeTable.isArray, htype, htypes, hbase]
    obtain ⟨r', u', hrun, -, -, herror', d, hd, hlog'⟩ :=
      fail_run h u place (.escapingLocal (u.symbols.name x))
    refine ⟨r', u', ?_, herror', d, hd, hlog ▸ hlog'⟩
    simp [returnedValue, tables, context_run, herror, hvoid, hr, hsome, hrun]
  · have hnone : escapingLocal u.toTables r func = none := by
      simp [escapingLocal, belowCasts, belowCastsWithin, hrefused.1]
    refine ⟨r, u, ?_, hrefused⟩
    simp [returnedValue, tables, context_run, herror, hvoid, hr, hnone]

/-- **A slice of an own array is not returned as it is.** If the value of a return is a static array
of the function or a slice of it, under any casts, the return reports one error, and its value is an
error expression. -/
theorem escaping_slice_refused {depth : Nat} {t : Analysis} {f : Function} {sig : Signature}
    {elem : TypeId} {a : ExprId} {v : Variable} {sc : ScopeId}
    (hfunc : s.currentFunc sc = some func) (hf : s.symbols.func? func = some f)
    (hsig : s.types.signature? f.type = some sig)
    (hresult : s.types.kind sig.result = .dynArray elem)
    (hvalue : (value e sc).run (analyser depth) s = some (a, t)) (ha : t.isError a = false)
    (hnest : t.exprs.Nest x a) (hx : t.Owns func x v) :
    ∃ r u, (returnStmt (some e) sc place).run (analyser depth) s = some (some r, u) ∧
      Refused t r u := by
  have htype := (run_lasting _ hvalue).types.kind_of_kind hresult nofun
  have hoperation : t.isArrayOperation a = false := by
    cases hnest with
    | var hk | slice hk _ | cast hk _ => simp [isArrayOperation, hk]
  -- That the function returns a value is noted before the value is converted.
  let t' := t.after (.note func (.func .returnsValue))
  have howns : t'.Owns func x v := by
    have hkind := SymbolTable.var?_eq_some.mp hx.var
    refine ⟨SymbolTable.var?_eq_some.mpr ?_, hx.owner, hx.notRef, hx.notStatic, hx.type⟩
    show (t.symbols.modifyKind func _).kind x = _
    rw [SymbolTable.kind_modifyKind, hkind]
    split <;> rfl
  obtain ⟨r, u, hrun, hrefused⟩ : ∃ r u, (returnedValue a func sig.result place).run
      (analyser depth) t' = some (r, u) ∧ Refused t' r u :=
    returnedValue_refused hnest htype ha howns
  refine ⟨r, u, ?_, hrefused⟩
  have hnote : (noteFunc func .returnsValue).run (analyser depth) t = some ((), t') := rfl
  simp [-bind_pure_comp, returnStmt, tables, context_run, hfunc, hf, hsig, hvalue,
    refuseArrayOperation, hoperation, hnote, hrun]

/-- The tables of a function that returns a slice of a slice of its own array. -/
def sliceOfSlice : Analysis :=
  stateOf "int[] f() { int[3] a; return a[][]; }"

theorem sliceOfSlice_inner :
    sliceOfSlice.exprs.Nest ⟨2⟩ ⟨1⟩ ∧ ∃ v, sliceOfSlice.Owns ⟨1⟩ ⟨2⟩ v := by
  have h : (sliceOfSlice.exprs.kind ⟨1⟩ = .slice ⟨0⟩ none none none ∧
      sliceOfSlice.exprs.kind ⟨0⟩ = .symbolRef ⟨2⟩) ∧
      ∃ v ∈ sliceOfSlice.symbols.var? ⟨2⟩, v.owner = some ⟨1⟩ ∧ v.storage.isRef = false ∧
        v.storage.contains .static = false ∧
        sliceOfSlice.types.kind v.type = .staticArray ⟨6⟩ 3 := by
    decide +kernel
  obtain ⟨⟨hslice, hbase⟩, v, hvar, howner, href, hstatic, htype⟩ := h
  exact ⟨.slice hslice hbase, v, hvar, howner, href, hstatic, _, _, htype⟩

theorem escaping_slice_refused_inner : ∃ r u,
    (returnStmt (some ⟨1⟩) ⟨2⟩ default).run (analyser 1) sliceOfSlice = some (some r, u) ∧
      Refused sliceOfSlice r u := by
  have h : (sliceOfSlice.currentFunc ⟨2⟩ = some ⟨1⟩ ∧ sliceOfSlice.isError ⟨1⟩ = false) ∧
      (∃ f ∈ sliceOfSlice.symbols.func? ⟨1⟩, ∃ sig ∈ sliceOfSlice.types.signature? f.type,
        sliceOfSlice.types.kind sig.result = .dynArray ⟨6⟩) ∧
      sliceOfSlice.exprs.kind ⟨1⟩ = .slice ⟨0⟩ none none none ∧
      ∃ node ∈ sliceOfSlice.exprs.nodes[1]?, node.type = some ⟨25⟩ := by
    decide +kernel
  obtain ⟨⟨hfunc, herror⟩, ⟨f, hf, sig, hsig, hresult⟩, hkind, node, hnode, htype⟩ := h
  obtain ⟨hnest, v, hv⟩ := sliceOfSlice_inner
  have hanswer : (analyser 1).answer (.expr ⟨1⟩ ⟨2⟩) sliceOfSlice = some (⟨1⟩, sliceOfSlice) := by
    simp [analyser, expression, ask, tables, context_run, Option.mem_def.mp hnode, htype]
  have hvalue : (value ⟨1⟩ ⟨2⟩).run (analyser 1) sliceOfSlice = some (⟨1⟩, sliceOfSlice) := by
    simp [value, analyseExpr, run, hanswer, toValue, tables, context_run, herror, hkind, checkValue,
      kind, ask]
  exact escaping_slice_refused hfunc hf hsig hresult hvalue herror hnest hv

/-- A slice of the inner slice was returned, and there was no error. -/
theorem slice_of_slice_escapes : (sliceOfSlice.log.errors = 0 ∧
    sliceOfSlice.stmts.kind ⟨1⟩ = .ret (some ⟨2⟩) ∧
    sliceOfSlice.exprs.kind ⟨2⟩ = .slice ⟨1⟩ none none none) ∧
    sliceOfSlice.exprs.Nest ⟨2⟩ ⟨1⟩ ∧ ∃ v, sliceOfSlice.Owns ⟨1⟩ ⟨2⟩ v :=
  ⟨by decide +kernel, sliceOfSlice_inner⟩

/-! ## Constant bounds -/

variable {t : Analysis} {base : ExprId} {ok : Prop} {Q : Analysis → ExprId → Prop}

/-- From `u` on, where the bounds are analysed, a run gives `Q` and reports nothing if `ok`, and
refuses otherwise. -/
def Decides (run : Option (ExprId × Analysis)) (u : Analysis) (ok : Prop)
    (Q : Analysis → ExprId → Prop) : Prop :=
  ∃ r v, run = some (r, v) ∧ (ok ∧ v.log = u.log ∧ Q v r ∨ ¬ ok ∧ Refused u r v)

theorem decides_fail (place : Span) (problem : Problem) (hok : ¬ ok) :
    Decides ((fail place problem).run h u) u ok Q := by
  obtain ⟨r, v, hrun, -, -, hrefused⟩ := fail_run h u place problem
  exact ⟨r, v, hrun, .inr ⟨hok, hrefused⟩⟩

theorem decides_settle {k : Expr} {type : TypeId} (hlog : t.log = u.log)
    (he : e.index < t.exprs.size) (hok : ok) (hk : ∀ v : Analysis, v.exprs.kind e = k → Q v e) :
    Decides ((settle e k type).run h t) u ok Q :=
  ⟨_, _, rfl, .inl ⟨hok, hlog, hk _ (congrArg ExprNode.kind
    ((t.exprs.replaces_settle e k type).self he))⟩⟩

/-- An analysed expression that is an integer. -/
abbrev Tables.Literal (p : Tables) (e : ExprId) (n : UInt64) : Prop :=
  p.literal? e = some n ∧ p.isError e = false

section

variable {operand : ExprId} {sc : ScopeId} {s' : Analysis}
  (hbase : (value operand sc).run h s' = some (base, s)) (herror : s.isError base = false)
include hbase herror

theorem run_of_tuple {elems : List ExprId} (hk : s.exprs.kind base = .tuple elems) :
    (∀ place, (index e operand place sc).run h s' = (tupleIndex e base elems place sc).run h s) ∧
    ∀ lower upper, (slice e operand lower upper sc).run h s' =
      (tupleSlice e base elems lower upper sc).run h s := by
  simp [index, slice, hbase, Analyse.isError, kind, ask_run, herror, hk]

theorem run_of_array {elem : TypeId} {n : UInt64} (hk : ∀ elems, s.exprs.kind base ≠ .tuple elems)
    (hs : s.baseKindOf base = .staticArray elem n) :
    (∀ place, (index e operand place sc).run h s' = (arrayIndex e base place elem sc).run h s) ∧
    ∀ lower upper, (slice e operand (some lower) (some upper) sc).run h s' =
      (boundedSlice e base lower upper elem sc).run h s := by
  have hkind : s.types.kind (s.types.base (s.typeOf base)) = .staticArray elem n := hs
  have hcall (name args) : (operatorCall e base name args sc).run h s = some (none, s) := by
    simp [operatorCall, tables, context_run, aggregateWith, TypeTable.aggregate?,
      TypeTable.baseKind, hkind]
  simp [index, slice, hbase, Analyse.isError, kind, ask_run, herror, hcall, tables,
    context_run, slicedElement, hs, hkind]

/-- **Literal bounds are checked.** An index is refused exactly if it is outside, and a slice of a
tuple also if its bounds are in the wrong order. For a slice of an array the upper bound decides. -/
theorem literal_bounds_checked {inner : ScopeId} {var : SymbolId} (he : e.index < u.exprs.size)
    (hscope : (lengthScope base sc).run h s = some ((inner, var), t)) :
    (∀ elems, s.exprs.kind base = .tuple elems →
      (∀ place i, (tupleBound place inner).run h t = some (some i, u) →
        Decides ((index e operand place sc).run h s') u (i.toNat < elems.length)
          fun _ r => elems[i.toNat]? = some r) ∧
      ∀ lower upper lo hi m, (tupleBound lower inner).run h t = some (some lo, m) →
        (tupleBound upper inner).run h m = some (some hi, u) →
        Decides ((slice e operand (some lower) (some upper) sc).run h s') u
          (lo ≤ hi ∧ hi ≤ elems.length.toUInt64)
          fun v r => v.exprs.kind r = .tuple ((elems.take hi.toNat).drop lo.toNat)) ∧
    ∀ elem n, (∀ elems, s.exprs.kind base ≠ .tuple elems) →
      s.baseKindOf base = .staticArray elem n → u.baseKindOf base = .staticArray elem n →
      (∀ place i found, (bound place inner).run h t = some (found, u) → u.Literal found i →
        Decides ((index e operand place sc).run h s') u (i < n)
          fun v r => ∃ used, v.exprs.kind r = .index base found used) ∧
      ∀ lower upper lo hi low high m, (bound lower inner).run h t = some (low, m) →
        (bound upper inner).run h m = some (high, u) → u.Literal low lo → u.Literal high hi →
        Decides ((slice e operand (some lower) (some upper) sc).run h s') u (hi ≤ n)
          fun v r => ∃ used, v.exprs.kind r = .slice base (some low) (some high) used := by
  constructor
  · intro elems hk
    obtain ⟨hindex, hslice⟩ := run_of_tuple (e := e) hbase herror hk
    constructor
    -- An index of a tuple.
    · intro place i hi
      rw [hindex, tupleIndex, run_next (x := span e) rfl, run_next hscope, run_next hi]
      dsimp only
      split
      · rename_i elem helem
        exact ⟨elem, u, rfl, .inl ⟨(List.getElem?_eq_some_iff.mp helem).1, rfl, helem⟩⟩
      · rename_i hnone
        exact decides_fail _ _ (Nat.not_lt.mpr (List.getElem?_eq_none_iff.mp hnone))
    -- A slice of a tuple.
    · intro lower upper lo hi m hlo hhi
      have hbounds : (tupleBounds base elems.length (some lower) (some upper) sc).run h s =
          some (some (lo, hi), u) := by
        rw [tupleBounds, run_next hscope, run_next hlo, run_next hhi]
        rfl
      rw [hslice, tupleSlice, run_next (x := span e) rfl, run_next hbounds]
      dsimp only
      split
      · rename_i hout
        exact decides_fail _ _ (by simpa [imp_iff_not_or] using hout)
      · rename_i hin
        rw [run_next (x := tupleType _) rfl]
        exact decides_settle rfl he (by simpa using hin) fun _ hk => hk
  · intro elem n hk hs hu
    obtain ⟨hindex, hslice⟩ := run_of_array (e := e) hbase herror hk hs
    constructor
    -- An index of an array.
    · intro place i found hfound hi
      rw [hindex, arrayIndex, run_next hscope, run_next hfound, run_next (x := isError found) rfl,
        if_neg (by simp [hi.2]), run_next (x := tables) rfl]
      dsimp only
      rw [hu, hi.1]
      dsimp only
      by_cases hlt : i < n
      · rw [if_neg (by simpa using hlt), run_next (x := usedLength _) rfl]
        exact decides_settle rfl he hlt fun _ hk => ⟨_, hk⟩
      · rw [if_pos (by simpa using hlt)]
        exact decides_fail _ _ hlt
    -- A slice of an array, of which only the upper bound is compared.
    · intro lower upper lo hi low high m hlow hhigh hlo hhi
      have hpointer : s.types.isPointer (s.typeOf base) = false := by
        have hkind : s.types.baseKind (s.typeOf base) = .staticArray elem n := hs
        simp [TypeTable.isPointer, hkind]
      have hover : sliceOverrun u.toTables base low high = if n < hi then
          some (.sliceOutOfBounds lo hi (u.text base) n) else none := by
        simp [sliceOverrun, hu, hlo.1, hhi.1]
      rw [hslice, boundedSlice]
      simp only [run_bind, ask_run, Option.bind_some, hpointer, Bool.false_eq_true, if_false,
        hscope, run_pure, hlow, hhigh, Analyse.isError, hlo.2, hhi.2, hover, usedLength,
        context_run]
      by_cases hle : hi ≤ n
      · rw [if_neg (by simpa using hle)]
        dsimp only
        rw [run_next (intern_run ..)]
        exact decides_settle rfl he hle fun _ hk => ⟨_, hk⟩
      · rw [if_pos (by simpa using hle)]
        exact decides_fail _ _ hle

end

/-- The state after a slice of an array of three, from its end to its start. -/
def reversedSlice : Analysis := stateOf "module m; void f() { int[3] a; auto b = a[2..1]; }"

theorem literal_bounds_checked_reversed : ∃ u low high, Decides
    ((slice ⟨3⟩ ⟨0⟩ (some ⟨5⟩) (some ⟨6⟩) ⟨0⟩).run (analyser 9) reversedSlice) u ((1 : UInt64) ≤ 3)
      fun v r => ∃ used, v.exprs.kind r = .slice ⟨0⟩ (some low) (some high) used := by
  have h : ∃ w ∈ (value ⟨0⟩ ⟨0⟩).run (analyser 9) reversedSlice,
      ∃ x ∈ (lengthScope w.1 ⟨0⟩).run (analyser 9) w.2,
      ∃ y ∈ (bound ⟨5⟩ x.1.1).run (analyser 9) x.2, ∃ z ∈ (bound ⟨6⟩ x.1.1).run (analyser 9) y.2,
        w.1 = ⟨0⟩ ∧ w.2.isError w.1 = false ∧ 3 < z.2.exprs.size ∧
        w.2.exprs.kind w.1 = .symbolRef ⟨2⟩ ∧ w.2.baseKindOf w.1 = .staticArray ⟨6⟩ 3 ∧
        z.2.baseKindOf w.1 = .staticArray ⟨6⟩ 3 ∧ z.2.Literal y.1 2 ∧ z.2.Literal z.1 1 := by
    decide +kernel
  obtain ⟨⟨_, t⟩, hbase, _, hscope, _, hlow, _, hhigh, rfl, herror, he, hk, hs, hu, hlo, hhi⟩ := h
  exact ⟨_, _, _, ((literal_bounds_checked hbase herror he hscope).2 _ _ (by simp [hk]) hs hu).2
    _ _ _ _ _ _ _ hlow hhigh hlo hhi⟩

/-- The bounds of a slice of an array may be in the wrong order. -/
theorem reversed_slice_accepted :
    reversedSlice.log.errors = 0 ∧
      (stateOf "module m; void f() { int[3] a; auto b = a[1..4]; }").log.errors = 1 := by
  decide +kernel

end DCompiler
