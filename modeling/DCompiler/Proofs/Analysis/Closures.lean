import DCompiler.Proofs.Analysis.Reached

/-!
# Functions whose variables outlive them

The marks that a closure depends on are set while the bodies inside a function are analysed, in any
order, and are never taken back. The question whether a function needs a closure is asked at the end
of its body, of the functions directly in it (`closure_of_nested_read`). Those further inside are
missed (`closure_of_inner_read_missed`).
-/

namespace DCompiler

open Analyse SymbolTable

variable {f g x : SymbolId} {s t : Analysis} {h : Analyser} {depth : Nat} {d : Function}

/-! ## Marks -/

/-- What is so of a function for good, once it is. -/
inductive Mark where
  | isFunction
  | inside (f : SymbolId)
  | closureVar (x : SymbolId)
  | nestedRefs
  | addressTaken

def Mark.On : Mark → Function → Prop
  | isFunction, _ => True
  | inside f, d => d.outer = some f
  | closureVar x, d => x ∈ d.closureVars
  | nestedRefs, d => d.hasNestedRefs = true
  | addressTaken, d => d.tookAddress = true

def Analysis.Marked (s : Analysis) (f : SymbolId) (m : Mark) : Prop :=
  ∃ d, s.symbols.func? f = some d ∧ m.On d

/-- A state in which nothing is missing that was marked in an earlier one. -/
def KeepsMarks (s t : Analysis) : Prop := ∀ f m, s.Marked f m → t.Marked f m

theorem KeepsMarks.of_symbols (hsame : t.symbols = s.symbols) : KeepsMarks s t :=
  fun _ _ ⟨d, hd, hm⟩ => ⟨d, hsame ▸ hd, hm⟩

theorem KeepsMarks.trans {u : Analysis} (h : KeepsMarks s t) (h' : KeepsMarks t u) :
    KeepsMarks s u := fun f m hm => h' f m (h f m hm)

theorem KeepsMarks.modifyFunc {k : Function → Function} (ht : t.symbols = s.symbols.modifyFunc f k)
    (hk : ∀ d (m : Mark), m.On d → m.On (k d) := by intro _ m hm; cases m <;> exact hm) :
    KeepsMarks s t := fun g m ⟨d, hd, hm⟩ => by
  simp only [Analysis.Marked, ht, func?_modifyFunc, hd]
  split
  · exact ⟨k d, rfl, hk d m hm⟩
  · exact ⟨d, rfl, hm⟩

theorem FunctionNote.keeps (n : FunctionNote) (d : Function) (m : Mark) (hm : m.On d) :
    m.On (n.apply d) := by
  cases n with
  | closureVar x =>
    simp only [apply]
    split
    · exact hm
    cases m with
    | closureVar y => exact List.mem_append_left _ hm
    | _ => exact hm
  | nestedRefs | addressTaken =>
    cases m with
    | nestedRefs | addressTaken => first | exact hm | rfl
    | _ => exact hm
  | _ => cases m <;> exact hm

theorem SymbolTable.modifyKind_func (t : SymbolTable) (f : SymbolId) (n : FunctionNote) :
    t.modifyKind f (SymbolNote.func n).apply = t.modifyFunc f n.apply := by
  unfold modifyFunc
  congr 1
  funext k
  cases k <;> rfl

theorem KeepsMarks.note (f : SymbolId) (n : SymbolNote) : KeepsMarks s (s.after (.note f n)) := by
  cases n with
  | func n => exact .modifyFunc (modifyKind_func s.symbols f n) n.keeps
  | _ =>
    refine fun g m ⟨d, hd, hm⟩ => ⟨d, func?_eq_some.mpr ?_, hm⟩
    show (s.symbols.modifyKind f _).kind g = _
    rw [kind_modifyKind, func?_eq_some.mp hd]
    split <;> rfl

theorem kept_marks : Kept KeepsMarks where
  refl _ _ _ h := h
  trans := KeepsMarks.trans
  act x s := by
    cases x with
    | addSymbol name span k parent =>
      exact fun _ _ ⟨d, hd, hm⟩ => ⟨d, func?_add name span k parent hd, hm⟩
    | note id n => exact .note id n
    | _ => exact .of_symbols rfl
  report _ _ := .of_symbols rfl
  gag h := h
  nest n s t h :=
    ((KeepsMarks.of_symbols (n.symbols_enter s)).trans h).trans (.of_symbols (n.symbols_leave t))
  progress _ _ _ _ := .modifyFunc rfl
  type _ _ _ h := h.trans (.modifyFunc rfl)
  record _ _ h := h

/-- The analysis goes on from a state, which may be in the middle of a body: rules are run to their
end, and what is around the first of them is closed. -/
inductive Proceeds (s : Analysis) : Analysis → Prop
  | refl : Proceeds s s
  | run {α : Type} {a : α} {depth : Nat} {t u : Analysis} (h : Proceeds s t) (x : Analyse α)
      (hx : x.run (analyser depth) t = some (a, u)) : Proceeds s u
  | ungag {t : Analysis} (h : Proceeds s t) : Proceeds s t.ungag
  | leave {t : Analysis} (h : Proceeds s t) (n : Nesting) : Proceeds s (t.leave n)
  | advance {t : Analysis} (h : Proceeds s t) (f : SymbolId) (progress : Progress) :
      Proceeds s (t.setProgress f progress)
  | retype {t : Analysis} (h : Proceeds s t) (f : SymbolId) (type : TypeId) :
      Proceeds s (t.setFunctionType f type)
  | record {t : Analysis} (h : Proceeds s t) (name : String) (entry : ArrayOpEntry) :
      Proceeds s (t.recordArrayOp name entry)

theorem Proceeds.keepsMarks (h : Proceeds s t) : KeepsMarks s t := by
  induction h with
  | refl => exact kept_marks.refl s
  | run _ x hx ih => exact ih.trans (run_kept kept_marks (analyser_keeps kept_marks _) x hx)
  | leave _ n ih => exact ih.trans (.of_symbols (n.symbols_leave _))
  | advance _ _ _ ih | retype _ _ _ ih => exact ih.trans (.modifyFunc rfl)
  | ungag _ ih | record _ _ _ ih => exact ih

/-! ## What sets marks -/

theorem func?_noteFunc (n : FunctionNote) : (s.after (.note f (.func n))).symbols.func? g =
    if g = f then (s.symbols.func? g).map n.apply else s.symbols.func? g := by
  show (s.symbols.modifyKind f (SymbolNote.func n).apply).func? g = _
  rw [modifyKind_func, func?_modifyFunc]

theorem marked_noteFunc (hf : s.Marked f .isFunction) (n : FunctionNote) {m : Mark}
    (hm : ∀ d, m.On (n.apply d)) : (s.after (.note f (.func n))).Marked f m := by
  obtain ⟨d, hd, -⟩ := hf
  exact ⟨n.apply d, by rw [func?_noteFunc, if_pos rfl, hd]; rfl, hm d⟩

/-- A function reads a variable of the function that it stands directly in. -/
structure NestedRead (f g : SymbolId) (s : Analysis) (x : SymbolId) (v : Variable) (sc : ScopeId) :
    Prop where
  var : s.symbols.var? x = some v
  owner : v.owner = some f
  notField : v.isField = false
  notManifest : manifestValue? s.toTables v = none
  current : s.currentFunc sc = some g
  outside : s.Marked f .isFunction
  inside : s.Marked g (.inside f)
  ne : f ≠ g

theorem NestedRead.marks {e a : ExprId} {v : Variable} {sc : ScopeId} (hs : NestedRead f g s x v sc)
    (hrun : (variableExpr e x v sc).run h s = some (a, t)) :
    t.Marked f (.closureVar x) ∧ t.Marked g (.inside f) ∧ t.Marked g .nestedRefs := by
  let s1 := s.after (.note x (.var .nestedRef))
  let s2 := s1.after (.note f (.func (.closureVar x)))
  let s3 := s2.after (.note g (.func .nestedRefs))
  have ht : t = s3.after (.settle e (.symbolRef x) v.type) := by
    simp [variableExpr, tables, context_run, hs.notManifest, hs.notField, noteNestedUse, hs.current,
      hs.var, hs.owner, hs.ne] at hrun
    cases hrun
    rfl
  have h1 : KeepsMarks s s1 := .note x _
  have h2 : KeepsMarks s s2 := h1.trans (.note f _)
  have h3 : KeepsMarks s3 t := .of_symbols (by rw [ht]; rfl)
  have hg : s2.Marked g .isFunction := by
    obtain ⟨d, hd, -⟩ := h2 _ _ hs.inside
    exact ⟨d, hd, trivial⟩
  refine ⟨h3 _ _ (KeepsMarks.note g _ _ _ ?_), h3 _ _ (KeepsMarks.note g _ _ _ (h2 _ _ hs.inside)),
    h3 _ _ (marked_noteFunc hg _ fun _ => rfl)⟩
  refine marked_noteFunc (h1 _ _ hs.outside) _ fun d => ?_
  simp only [Mark.On, FunctionNote.apply]
  split
  · exact List.contains_iff_mem.mp ‹_›
  · simp

/-- The address of a function is taken, or the function becomes a delegate or a pointer. -/
inductive AddressTaken (g : SymbolId) (t : Analysis) : Prop
  | byAddress {h : Analyser} {s : Analysis} {d : Function} {e operand a : ExprId}
    (hk : s.exprs.kind operand = .symbolRef g) (hg : s.symbols.func? g = some d)
    (hrun : (addressOf e operand).run h s = some (a, t)) : AddressTaken g t
  | byConversion {h : Analyser} {s : Analysis} {d : Function} {e a : ExprId} {target next : TypeId}
    (hk : s.exprs.kind e = .symbolRef g) (hg : s.symbols.func? g = some d)
    (hne : s.typeOf e ≠ target) (herror : s.isError e = false)
    (hconv : s.convertsTo e target = true)
    (htarget : s.types.kind target = .delegate next ∨ s.types.kind target = .pointer next)
    (hrun : (convert e target).run h s = some (a, t)) : AddressTaken g t

theorem AddressTaken.marks (ht : AddressTaken g t) : t.Marked g .addressTaken := by
  have hnoted : ∀ {s : Analysis} {d}, s.symbols.func? g = some d →
      (s.after (.note g (.func .addressTaken))).Marked g .addressTaken :=
    fun hg => marked_noteFunc ⟨_, hg, trivial⟩ _ fun _ => rfl
  cases ht with
  | byAddress hk hg hrun =>
    simp [addressOf, tables, context_run, hk, hg, intern_run] at hrun
    cases hrun
    exact hnoted hg
  | @byConversion _ s _ _ _ target _ hk hg hne herror hconv htarget hrun =>
    have hnot : s.types.isError target = false := by
      rcases htarget with h | h <;> simp [TypeTable.isError, h]
    have hfunc : s.isFunction g = true := by simp [Tables.isFunction, hg]
    rw [convert] at hrun
    rcases htarget with htarget | htarget <;>
      simp [tables, context_run, hk, hne, herror, hconv, hnot, htarget, hfunc] at hrun
    all_goals
      cases hrun
      exact hnoted hg

/-! ## The end of a body -/

theorem needsClosure_of_marks (hvar : t.Marked f (.closureVar x)) (hinside : t.Marked g (.inside f))
    (hrefs : t.Marked g .nestedRefs) (haddress : t.Marked g .addressTaken) :
    needsClosure t.toTables f = true := by
  obtain ⟨d, hd, hvar⟩ := hvar
  obtain ⟨c, hc, hinside⟩ := hinside
  obtain ⟨_, hc', hrefs⟩ := hrefs
  cases hc.symm.trans hc'
  obtain ⟨_, hc', haddress⟩ := haddress
  cases hc.symm.trans hc'
  have hmem : g ∈ t.symbols.ids :=
    List.mem_map.mpr ⟨g.index, List.mem_range.mpr (lt_size_of_func? hc), rfl⟩
  simp only [Mark.On] at hvar hinside hrefs haddress
  simp only [needsClosure, hd, Bool.and_eq_true, Bool.not_eq_true', List.isEmpty_eq_false_iff,
    List.any_eq_true]
  exact ⟨List.ne_nil_of_mem hvar, g, hmem, by simp [hc, hinside, hrefs, haddress]⟩

/-- The answer is noted at the end of a body, and the marks are what they were. -/
theorem bodyStep_inv {sig : Signature} {body : StmtId}
    (hrun : (bodyStep f d sig body).run h s = some ((), t)) :
    ∃ u, t = u.after (.note f (.func (.needsClosure (needsClosure u.toTables f)))) ∧
      KeepsMarks t u := by
  suffices hend : ∃ u : Analysis,
      t = u.after (.note f (.func (.needsClosure (needsClosure u.toTables f)))) by
    obtain ⟨u, rfl⟩ := hend
    refine ⟨u, rfl, fun j m ⟨c, hc, hm⟩ => ?_⟩
    rw [func?_noteFunc] at hc
    split at hc
    · obtain ⟨c', hc', rfl⟩ := Option.map_eq_some_iff.mp hc
      exact ⟨c', hc', by cases m <;> exact hm⟩
    · exact ⟨c, hc, hm⟩
  unfold bodyStep at hrun
  iterate 8 obtain ⟨_, u, -, hrun⟩ := run_bind_inv hrun
  dsimp only at hrun
  split at hrun
  · obtain ⟨_, u, -, hrun⟩ := run_bind_inv hrun
    cases hrun
    exact ⟨u, rfl⟩
  · cases hrun
    exact ⟨u, rfl⟩

/-- **A function needs a closure** if a function directly in it reads one of its variables and the
address of that function is taken, both before the end of its body and in any order. -/
theorem closure_of_nested_read {sig : Signature} {body : StmtId} {q r r' : Analysis} {e a : ExprId}
    {v : Variable} {sc : ScopeId}
    (hbody : (bodyStep f d sig body).run (analyser depth) s = some ((), t))
    (hread : NestedRead f g q x v sc) (hrun : (variableExpr e x v sc).run h q = some (a, r))
    (htakes : AddressTaken g r') (hr : Proceeds r t) (hr' : Proceeds r' t) :
    ∃ d', t.symbols.func? f = some d' ∧ d'.needsClosure = true := by
  obtain ⟨u, rfl, hu⟩ := bodyStep_inv hbody
  obtain ⟨hvar, hinside, hrefs⟩ := hread.marks hrun
  have hru := hr.keepsMarks.trans hu
  have hneeds := needsClosure_of_marks (hru _ _ hvar) (hru _ _ hinside) (hru _ _ hrefs)
    (hr'.keepsMarks.trans hu _ _ htakes.marks)
  obtain ⟨d, hd, -⟩ := hru _ _ hvar
  exact ⟨_, by rw [func?_noteFunc, if_pos rfl, hd]; rfl, hneeds⟩

/-- The tables of a function `f` with a function `g` directly in it. -/
def nestedRead : Analysis :=
  stateOf "void f() { int x; int g() { return x; } auto d = &g; }"

/-- To read `x` in `g`, take the address of `g` and analyse the body of `f`. -/
theorem closure_of_nested_read_once : ∃ d sig body s t d',
    (bodyStep ⟨1⟩ d sig body).run (analyser 9) s = some ((), t) ∧
      t.symbols.func? ⟨1⟩ = some d' ∧ d'.needsClosure = true := by
  have h : (nestedRead.currentFunc ⟨4⟩ = some ⟨3⟩ ∧ (∃ d ∈ nestedRead.symbols.func? ⟨1⟩, True) ∧
      ∃ d ∈ nestedRead.symbols.func? ⟨3⟩, d.outer = some ⟨1⟩) ∧
      ∃ v ∈ nestedRead.symbols.var? ⟨2⟩, (v.owner = some ⟨1⟩ ∧ v.isField = false ∧
        manifestValue? nestedRead.toTables v = none) ∧
      ∃ r ∈ (variableExpr ⟨0⟩ ⟨2⟩ v ⟨4⟩).run (analyser 9) nestedRead,
        r.2.exprs.kind ⟨1⟩ = .symbolRef ⟨3⟩ ∧ (∃ d ∈ r.2.symbols.func? ⟨3⟩, True) ∧
        ∃ r' ∈ (addressOf ⟨2⟩ ⟨1⟩).run (analyser 9) r.2, ∃ d ∈ r'.2.symbols.func? ⟨1⟩,
          ∃ sig ∈ r'.2.types.signature? d.type, ∃ body ∈ d.body,
            ((bodyStep ⟨1⟩ d sig body).run (analyser 9) r'.2).isSome := by
    decide +kernel
  obtain ⟨⟨hcurrent, hf, hg⟩, v, hvar, ⟨howner, hfield, hmanifest⟩, ⟨_, r⟩, hread, hkind,
    ⟨_, hg', -⟩, ⟨_, r'⟩, htake, d, -, sig, -, body, -, hbody⟩ := h
  obtain ⟨⟨⟨⟩, t⟩, hbody⟩ := Option.isSome_iff_exists.mp hbody
  obtain ⟨d', hd', hneeds⟩ := closure_of_nested_read hbody
    ⟨hvar, howner, hfield, hmanifest, hcurrent, hf, hg, by decide⟩ hread
    (.byAddress hkind hg' htake) (.run (.run .refl _ htake) _ hbody) (.run .refl _ hbody)
  exact ⟨d, sig, body, r', t, d', hbody, hd', hneeds⟩

/-- The tables of a function `f` with a function `g` in a function in it. -/
def innerRead : Analysis :=
  stateOf "void f() { int x; void h() { int g() { return x; } auto d = &g; } }"

/-- The body of `f` was analysed without an error; `g` reads `x` and its address was taken. -/
theorem closure_of_inner_read_missed : innerRead.log.errors = 0 ∧
    (∃ v ∈ innerRead.symbols.var? ⟨2⟩, v.owner = some ⟨1⟩ ∧ v.nestedRef = true) ∧
    (∃ g ∈ innerRead.symbols.func? ⟨4⟩, g.outer = some ⟨3⟩ ∧ g.hasNestedRefs = true ∧
      g.tookAddress = true) ∧
    (∃ h ∈ innerRead.symbols.func? ⟨3⟩, h.outer = some ⟨1⟩) ∧
    ∃ f ∈ innerRead.symbols.func? ⟨1⟩, f.progress = .bodyDone ∧ f.needsClosure = false := by
  decide +kernel

end DCompiler
