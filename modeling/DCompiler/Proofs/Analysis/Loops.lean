import DCompiler.Proofs.Analysis.Reached
import DCompiler.Proofs.Tables.Copies

/-!
# Jumps out of loops

A `break` or `continue` is checked against the loop depth of the innermost function that is being
analysed, on a stack that other functions are put on and taken off in the middle of loops. That
depth is the number of loops of the same function that have the jump in their bodies.

Only the rules for statements and bodies ask for statements (`Silent`), and what they ask for is
inside, with its loops around it (`Comes`). So each visit of a jump is at that depth
(`jumps_checked`).
-/

namespace DCompiler

open Analyse List

/-! ## Statements in statements -/

namespace Stmt

/-- The statements in a statement, each with the number of loops that it is in the body of. -/
def inside : Stmt → List (Nat × StmtId)
  | block stmts => stmts.map (0, ·)
  | scope body | label _ body => [(0, body)]
  | ifElse _ yes no => (0, yes) :: no.toList.map (0, ·)
  | whileLoop _ body | foreachRange _ _ _ body _ => [(1, body)]
  | forLoop init _ _ body => init.toList.map (0, ·) ++ [(1, body)]
  | _ => []

/-- What is wrong with a jump that is in no loop. -/
def jump? : Stmt → Option Problem
  | breakLoop => some .breakOutsideLoop
  | continueLoop => some .continueOutsideLoop
  | _ => none

theorem settle_keeps (s new : Stmt) :
    (s.settle new).inside = s.inside ∧ (s.settle new).jump? = s.jump? := by
  unfold settle
  split <;> exact ⟨rfl, rfl⟩

end Stmt

namespace StmtTable

variable {t u v : StmtTable} {b c d : StmtId} {j k : Nat}

/-- One statement is in another one of the same function, and in the bodies of so many loops
there. -/
inductive Inside (t : StmtTable) : StmtId → Nat → StmtId → Prop
  | here {b : StmtId} : t.Inside b 0 b
  | step {b c d : StmtId} {j k : Nat} : (j, c) ∈ (t.kind b).inside → t.Inside c k d →
    t.Inside b (j + k) d

/-- Statements stay around the same statements, and jumps stay jumps. -/
def Retains (t u : StmtTable) : Prop :=
  ∀ b, b.index < t.size → b.index < u.size ∧ (u.kind b).inside = (t.kind b).inside ∧
    (u.kind b).jump? = (t.kind b).jump? ∧ u.span b = t.span b

theorem Retains.refl : t.Retains t := fun _ hb => ⟨hb, rfl, rfl, rfl⟩

theorem Retains.trans (htu : t.Retains u) (huv : u.Retains v) : t.Retains v := fun b hb => by
  obtain ⟨hu, hinside, hjump, hspan⟩ := htu b hb
  obtain ⟨hv, hinside', hjump', hspan'⟩ := huv b hu
  exact ⟨hv, hinside'.trans hinside, hjump'.trans hjump, hspan'.trans hspan⟩

theorem Extends.retains (h : t.Extends u) : t.Retains u := fun b hb => by
  rw [StmtTable.kind, StmtTable.kind, span, span, h.node b hb]
  exact ⟨Nat.lt_of_lt_of_le hb h.size, rfl, rfl, rfl⟩

theorem retains_settle (b : StmtId) (s : Stmt) : t.Retains (t.settle b s) := fun c hc => by
  refine ⟨by simpa [settle, size] using hc, ?_⟩
  simp only [kind, span, node_settle]
  split
  · rename_i h
    rw [h.1]
    exact ⟨(Stmt.settle_keeps _ s).1, (Stmt.settle_keeps _ s).2, rfl⟩
  · exact ⟨rfl, rfl, rfl⟩

theorem index_lt_of_inside (h : (j, c) ∈ (t.kind b).inside) : b.index < t.size :=
  index_lt_of_kind fun hempty => nomatch hempty ▸ h

theorem Inside.retains (h : t.Inside b k d) (htu : t.Retains u) : u.Inside b k d := by
  induction h with
  | here => exact .here
  | step hc _ ih => exact .step ((htu _ (index_lt_of_inside hc)).2.1 ▸ hc) ih

end StmtTable

namespace NodeTables

theorem sweeps_extend {f : StmtId → StateM NodeTables StmtId}
    (hf : ∀ s (x : NodeTables), x.stmts.Extends ((f s).run x).2.stmts) {x y : NodeTables}
    {as bs : List Node} (h : Sweeps (copyNode f) x as y bs) : x.stmts.Extends y.stmts := by
  refine h.rel (R := fun x y => x.stmts.Extends y.stmts) (fun _ => .refl) .trans fun a x => ?_
  cases a with
  | expr e => exact .refl
  | stmt s => exact hf s x

theorem copyStmtTo_extends (depth : Nat) (s : StmtId) (x : NodeTables) :
    x.stmts.Extends ((copyStmtTo depth s).run x).2.stmts := by
  induction depth generalizing s x with
  | zero => exact .refl
  | succ depth ih => exact (sweeps_extend ih (sweeps_copyKindWith _ _ x)).trans (.add _ _)

theorem copyFunction_extends (d : FunctionDecl) (x : NodeTables) :
    x.stmts.Extends ((copyFunction d).run x).2.stmts :=
  sweeps_extend (fun s x => copyStmtTo_extends (x.stmts.size + 1) s x)
    (sweeps_copyFunctionWith _ d x)

end NodeTables

/-! ## Rules that ask for no statement -/

/-- The statement that is to be analysed, and its scope. -/
def Request.stmt? {β : Type} : Request β → Option (StmtId × ScopeId)
  | stmt s sc => some (s, sc)
  | _ => none

namespace Analyse

/-- A rule that asks for the analysis of no statement. -/
def Silent {α : Type} : Analyse α → Prop
  | done _ | endless => True
  | act _ next => ∀ r, (next r).Silent
  | log _ next => next.Silent
  | request r next => r.stmt? = none ∧ ∀ b, (next b).Silent
  | muted x next | within _ x next => x.Silent ∧ ∀ r, (next r).Silent

theorem Alone.silent {α : Type} {types : Prop} {x : Analyse α} (hx : x.Alone types) : x.Silent := by
  induction x with
  | done _ | endless => trivial
  | act x next ih => exact fun r => ih r (hx.2 r)
  | log d next ih => exact ih hx
  | request r next _ => exact hx.elim
  | muted x next ihx ih | within n x next ihx ih => exact ⟨ihx hx.1, fun r => ih r (hx.2 r)⟩

namespace Silent

variable {α β : Type} {x : Analyse α} {f : α → Analyse β}

@[grind ←] theorem pure {a : α} : Silent (Pure.pure a) := trivial

@[grind ←] theorem bind (hx : x.Silent) (hf : ∀ a, (f a).Silent) : (x >>= f).Silent := by
  induction x with
  | done a => exact hf a
  | act x next ih => exact fun r => ih r (hx r) hf
  | log d next ih => exact ih hx hf
  | request r next ih | muted x next _ ih | within n x next _ ih =>
    exact ⟨hx.1, fun r => ih r (hx.2 r) hf⟩
  | endless => trivial

@[grind ←] theorem act {x : Action α} : (act x done).Silent := fun _ => trivial

@[grind ←] theorem error {span : Span} {problem : Problem} : (error span problem).Silent := trivial

@[grind ←] theorem analyseExpr {e : ExprId} {sc : ScopeId} : (analyseExpr e sc).Silent :=
  ⟨rfl, fun _ => trivial⟩

@[grind ←] theorem analyseSignature {symbol : SymbolId} : (analyseSignature symbol).Silent :=
  ⟨rfl, fun _ => trivial⟩

@[grind ←] theorem analyseBody {symbol : SymbolId} : (analyseBody symbol).Silent :=
  ⟨rfl, fun _ => trivial⟩

@[grind ←] theorem mapM (hf : ∀ a, (f a).Silent) (as : List α) : (as.mapM f).Silent := by
  induction as with
  | nil => exact .pure
  | cons a as ih =>
    rw [mapM_cons]
    exact .bind (hf a) fun _ => .bind ih fun _ => .pure

@[grind ←] theorem option (hf : ∀ a, (f a).Silent) (a : Option α) : (a.mapM f).Silent := by
  cases a with
  | none => exact .pure
  | some a => exact .bind (hf a) fun _ => .pure

end Silent

attribute [local grind =] context kind span typeOf isError text
  typeText intern addExpr typed errorExpr addStmt noteVar noteFunc addSymbol pushScope noteScope
  overwrite

variable {e : ExprId} {sc : ScopeId} {type : TypeId} {place : Span} {symbol : SymbolId}
  {name : String} {kind : SymbolKind} {parent : Option SymbolId} {problem : Problem}
  {d : FunctionDecl} {storage : StorageClass}

@[grind ←] theorem tables_silent : tables.Silent := fun _ => trivial

@[grind ←] theorem ask_silent {α : Type} {g : Tables → α} : (ask g).Silent := fun _ => trivial

@[grind ←] theorem settle_silent {k : Expr} : (settle e k type).Silent := fun _ => trivial

@[grind ←] theorem fail_silent : (fail place problem).Silent := fun _ => trivial

@[grind ←] theorem bindName_silent : (bindName sc name symbol place problem).Silent := by
  grind [bindName]

@[grind ←] theorem enclosing_silent : (enclosing sc).Silent := fun _ => trivial

@[grind ←] theorem declareTemp_silent : (declareTemp name type storage sc place).Silent := by
  grind [declareTemp]

@[grind ←] theorem castTo_silent : (castTo e type).Silent := by
  grind [castTo]

@[grind ←] theorem convert_silent : (convert e type).Silent := by
  fun_induction convert e type
  grind

@[grind ←] theorem checkValue_silent : (checkValue e).Silent := by
  grind [checkValue]

@[grind ←] theorem value_silent : (value e sc).Silent := by
  grind [value, toValue]

@[grind ←] theorem condition_silent : (condition e sc).Silent := by
  grind [condition]

@[grind ←] theorem refuseArrayOperation_silent : (refuseArrayOperation e).Silent := by
  grind [refuseArrayOperation]

@[grind ←] theorem exprStmt_silent : (exprStmt e sc).Silent := by
  grind [exprStmt]

@[grind ←] theorem resolveType_silent : (resolveType type sc place).Silent :=
  resolveType_alone.silent

@[grind ←] theorem initializer_silent : (initializer e sc place).Silent := by
  grind [initializer]

@[grind ←] theorem storeVariable_silent {init : Option ExprId} :
    (storeVariable symbol type init).Silent := by
  grind [storeVariable]

@[grind ←] theorem initVariable_silent {type : Option TypeId} {init : Option ExprId} :
    (initVariable symbol type init sc).Silent := by
  refine .bind tables_silent fun p => ?_
  extract_lets place store
  have hstore (found : TypeId × Option ExprId) : (store found).Silent := by grind
  clear_value store
  refine .bind (.option (fun _ => resolveType_silent) type) fun declared => ?_
  grind

@[grind ←] theorem localVariable_silent {type : Option TypeId} {init : Option ExprId} :
    (localVariable name type init storage sc place).Silent := by
  grind [localVariable]

@[grind ←] theorem declareFunction_silent {outer : Option SymbolId} :
    (declareFunction d sc parent outer).Silent := by
  grind [declareFunction]

@[grind ←] theorem localFunction_silent : (localFunction d sc).Silent := by
  grind [localFunction, declareTemplate]

@[grind ←] theorem returnedValue_silent : (returnedValue e symbol type place).Silent := by
  grind [returnedValue]

@[grind ←] theorem returnStmt_silent {v : Option ExprId} : (returnStmt v sc place).Silent := by
  refine .bind tables_silent fun p => ?_
  split
  · exact .pure
  split
  · exact .pure
  split
  · grind
  refine .bind value_silent fun v => .bind refuseArrayOperation_silent fun refused => ?_
  grind

@[grind ←] theorem checkInLoop_silent : (checkInLoop place problem).Silent := by
  grind [checkInLoop]

@[grind ←] theorem mergeRequires_silent {requires : List StmtId} :
    (mergeRequires requires place).Silent := by
  grind [mergeRequires]

@[grind ←] theorem ensureBlock_silent {d : EnsureDecl} : (ensureBlock type place d).Silent := by
  grind [ensureBlock]

@[grind ←] theorem mergeEnsures_silent {ensures : List EnsureDecl} :
    (mergeEnsures ensures type place).Silent := by
  grind [mergeEnsures]

end Analyse

/-! ## Places of analysis -/

/-- A later state of an analysis: statements were added and settled, and diagnostics reported. -/
structure Continues (s t : Analysis) : Prop where
  retains : s.stmts.Retains t.stmts
  reported : s.log.reported.toList <+: t.log.reported.toList

/-- A run of a rule from a state comes to a request for a statement in another state. -/
def Asks (h : Analyser) (c : StmtId) (sc : ScopeId) (u : Analysis) {α : Type} :
    Analyse α → Analysis → Prop
  | .done _, _ | .endless, _ => False
  | .act y f, s => Asks h c sc u (f (y.exec s.toContext).1) (s.after y)
  | .log d f, s => Asks h c sc u f (s.report d)
  | .request r f, s => r.stmt? = some (c, sc) ∧ s = u ∨
    ∃ b t, h.answer r s = some (b, t) ∧ Asks h c sc u (f b) t
  | .muted x f, s => Asks h c sc u x s.gag ∨ ∃ b t, x.run h s.gag = some (b, t) ∧
    Asks h c sc u (f (b, t.log.firedSince s.log)) t.ungag
  | .within n x f, s => Asks h c sc u x (s.enter n) ∨ ∃ b t, x.run h (s.enter n) = some (b, t) ∧
    Asks h c sc u (f b) (t.leave n)

/-- A run of a rule comes to the analysis of a statement, by requests for statements only: so it is
a statement of the same function. It is reached through a statement that the rule itself asks for.
The analysis is run with an analyser of the second depth. -/
inductive Visits : {α : Type} → Nat → Analyse α → Analysis → StmtId → Nat → StmtId → ScopeId →
    Analysis → Prop
  | here : Asks (analyser (depth + 1)) b sc u x s → Visits (depth + 1) x s b depth b sc u
  | inside : Asks (analyser (depth + 1)) b sc u x s →
      Visits depth (statement b sc) u d m c sc' v → Visits (depth + 1) x s b m c sc' v

/-- The functions that are being analysed, the innermost one first, each with its loop depth. -/
abbrev Stack := List (SymbolId × Nat)

/-- A later place of an analysis, where other functions and loops are around. -/
structure Placed (s : Analysis) (around : Stack → Stack) (u : Analysis) : Prop
    extends Continues s u where
  stack : u.stack = around s.stack
  gags : u.log.gagDepth = s.log.gagDepth

def deeper (k : Nat) : Stack → Stack := List.modifyHead (Prod.map id (· + k))

theorem deeper_deeper (j k : Nat) : deeper k ∘ deeper j = deeper (j + k) := by
  funext fs
  cases fs with
  | nil => rfl
  | cons f fs => exact congrArg (fun d => (f.1, d) :: fs) (Nat.add_assoc _ _ _)

variable {α β : Type} {h : Analyser} {s t u v : Analysis} {x : Analyse α}
  {f : α → Analyse β} {around around' : Stack → Stack} {b c d : StmtId} {sc : ScopeId}
  {depth j k : Nat} {a : α}

theorem Continues.report (d : Diagnostic) (s : Analysis) : Continues s (s.report d) := by
  refine ⟨.refl, ?_⟩
  show s.log.reported.toList <+: (s.log.report d).reported.toList
  unfold DiagnosticLog.report
  dsimp only
  split
  · exact prefix_rfl
  · exact ⟨[d], Array.toList_push.symm⟩

theorem Continues.ungag (h : Continues s t) : Continues s t.ungag := ⟨h.retains, h.reported⟩

theorem Continues.leave (n : Nesting) (h : Continues s t) : Continues s (t.leave n) := by
  cases n <;> exact ⟨h.retains, h.reported⟩

theorem kept_continues : Kept Continues where
  refl _ := ⟨.refl, prefix_rfl⟩
  trans h h' := ⟨h.retains.trans h'.retains, h.reported.trans h'.reported⟩
  act x s := by
    refine ⟨?_, prefix_rfl⟩
    cases x with
    | addStmt k span => exact (StmtTable.Extends.add k span).retains
    | setStmt b k => exact StmtTable.retains_settle b k
    | copyFunction d => exact (NodeTables.copyFunction_extends d ⟨s.exprs, s.stmts⟩).retains
    | _ => exact .refl
  report := .report
  gag h := Continues.ungag ⟨h.retains, h.reported⟩
  nest n s _ h := Continues.leave n (by cases n <;> exact ⟨h.retains, h.reported⟩)
  progress _ _ _ _ := ⟨.refl, prefix_rfl⟩
  type _ _ _ h := ⟨h.retains, h.reported⟩
  record _ _ h := ⟨h.retains, h.reported⟩

theorem Placed.trans (hst : Placed s around t) (htu : Placed t around' u) :
    Placed s (around' ∘ around) u where
  toContinues := kept_continues.trans hst.toContinues htu.toContinues
  stack := htu.stack.trans (congrArg around' hst.stack)
  gags := htu.gags.trans hst.gags

theorem Placed.here (s : Analysis) : Placed s (deeper 0) s :=
  ⟨kept_continues.refl s, by cases hs : s.stack <;> rfl, rfl⟩

theorem Placed.deeper (hst : Placed s (deeper j) t) (htu : Placed t (DCompiler.deeper k) u) :
    Placed s (DCompiler.deeper (j + k)) u :=
  deeper_deeper j k ▸ hst.trans htu

theorem continues_run (hx : x.run (analyser depth) s = some (a, t)) : Continues s t :=
  run_kept kept_continues (analyser_keeps kept_continues depth) x hx

theorem placed_run (hx : x.run (analyser depth) s = some (a, t)) : Placed s id t :=
  ⟨continues_run hx, (run_balanced x hx).stack, (run_balanced x hx).gags⟩

namespace Asks

theorem bind_iff : Asks h c sc u (x >>= f) s ↔
    Asks h c sc u x s ∨ ∃ a t, x.run h s = some (a, t) ∧ Asks h c sc u (f a) t := by
  change Asks h c sc u (x.bind f) s ↔ _
  induction x generalizing s with
  | done a => simp [Analyse.bind, Asks, run]
  | endless => simp [Analyse.bind, Asks, run]
  | act y next ih => exact ih ..
  | log d next ih => exact ih ..
  | request r next ih =>
    simp only [Analyse.bind, Asks, run, ih]
    obtain _ | ⟨b, t⟩ := h.answer r s <;> simp [or_assoc]
  | muted y next _ ih =>
    simp only [Analyse.bind, Asks, run, ih]
    obtain _ | ⟨b, t⟩ := y.run h s.gag <;> simp [or_assoc]
  | within n y next _ ih =>
    simp only [Analyse.bind, Asks, run, ih]
    obtain _ | ⟨b, t⟩ := y.run h (s.enter n) <;> simp [or_assoc]

/-- In a run that ends, requests are answered, and the end comes later. -/
theorem answer (hasks : Asks (analyser depth) c sc u x s)
    (hx : x.run (analyser depth) s = some (a, t)) :
    ∃ v, (analyser depth).answer (.stmt c sc) u = some ((), v) ∧ Continues v t := by
  induction x generalizing s t with
  | done _ | endless => exact hasks.elim
  | act y next ih => exact ih _ hasks hx
  | log d next ih => exact ih hasks hx
  | request r next ih =>
    rcases hasks with ⟨hr, rfl⟩ | ⟨b, v, hb, hasks⟩
    · simp only [run] at hx
      split at hx
      · cases r with
        | stmt =>
          cases hr
          exact ⟨_, ‹_›, continues_run hx⟩
        | _ => cases hr
      · cases hx
    · simp only [run, hb] at hx
      exact ih _ hasks hx
  | muted y next ihy ih =>
    rcases hasks with hasks | ⟨b, v, hb, hasks⟩
    · simp only [run] at hx
      split at hx
      · obtain ⟨v, hv, hrest⟩ := ihy hasks ‹_›
        exact ⟨v, hv, kept_continues.trans hrest.ungag (continues_run hx)⟩
      · cases hx
    · simp only [run, hb] at hx
      exact ih _ hasks hx
  | within n y next ihy ih =>
    rcases hasks with hasks | ⟨b, v, hb, hasks⟩
    · simp only [run] at hx
      split at hx
      · obtain ⟨v, hv, hrest⟩ := ihy hasks ‹_›
        exact ⟨v, hv, kept_continues.trans (hrest.leave _) (continues_run hx)⟩
      · cases hx
    · simp only [run, hb] at hx
      exact ih _ hasks hx

theorem not_silent (hasks : Asks h c sc u x s) : ¬ x.Silent := by
  intro hx
  induction x generalizing s with
  | done _ | endless => exact hasks
  | act y next ih => exact ih _ hasks (hx _)
  | log d next ih => exact ih hasks hx
  | request r next ih =>
    rcases hasks with ⟨hr, -⟩ | ⟨_, _, -, hasks⟩
    · cases hx.1.symm.trans hr
    · exact ih _ hasks (hx.2 _)
  | muted y next ihy ih | within n y next ihy ih =>
    rcases hasks with hasks | ⟨_, _, -, hasks⟩
    · exact ihy hasks hx.1
    · exact ih _ hasks (hx.2 _)

end Asks

/-- The statements that a run of a rule comes to, with what is around them. It comes to all of them
if it ends. -/
structure Comes (depth : Nat) (x : Analyse α) (s : Analysis)
    (cs : List ((Stack → Stack) × StmtId)) : Prop where
  all {around : Stack → Stack} {c : StmtId} {a : α} {t : Analysis} : (around, c) ∈ cs →
    x.run (analyser depth) s = some (a, t) →
    ∃ sc u, Asks (analyser depth) c sc u x s ∧ Placed s around u
  only {c : StmtId} {sc : ScopeId} {u : Analysis} : Asks (analyser depth) c sc u x s →
    ∃ around, (around, c) ∈ cs ∧ Placed s around u

namespace Comes

variable {cs ds : List ((Stack → Stack) × StmtId)}

theorem silent (hx : x.Silent) : Comes depth x s [] :=
  ⟨nofun, fun hasks => (hasks.not_silent hx).elim⟩

theorem bind (hx : Comes depth x s cs)
    (hf : ∀ a t, x.run (analyser depth) s = some (a, t) → Comes depth (f a) t ds) :
    Comes depth (x >>= f) s (cs ++ ds) where
  all hc hrun := by
    obtain ⟨a, v, hv, hrun⟩ := run_bind_inv hrun
    rcases mem_append.mp hc with hc | hc
    · obtain ⟨sc, u, hasks, hplaced⟩ := hx.all hc hv
      exact ⟨sc, u, Asks.bind_iff.mpr (.inl hasks), hplaced⟩
    · obtain ⟨sc, u, hasks, hplaced⟩ := (hf a v hv).all hc hrun
      exact ⟨sc, u, Asks.bind_iff.mpr (.inr ⟨a, v, hv, hasks⟩), (placed_run hv).trans hplaced⟩
  only hasks := by
    rcases Asks.bind_iff.mp hasks with hasks | ⟨a, t, hrun, hasks⟩
    · obtain ⟨around, hc, hplaced⟩ := hx.only hasks
      exact ⟨around, mem_append_left _ hc, hplaced⟩
    · obtain ⟨around, hc, hplaced⟩ := (hf a t hrun).only hasks
      exact ⟨around, mem_append_right _ hc, (placed_run hrun).trans hplaced⟩

theorem after (hx : x.Silent) (hf : ∀ a t, Comes depth (f a) t cs) : Comes depth (x >>= f) s cs :=
  .bind (.silent hx) fun a t _ => hf a t

theorem before (hx : Comes depth x s cs) (hf : ∀ a, (f a).Silent) : Comes depth (x >>= f) s cs :=
  append_nil cs ▸ hx.bind fun a _ _ => .silent (hf a)

theorem stmt (s : Analysis) : Comes depth (analyseStmt c sc) s [(deeper 0, c)] where
  all hc _ := by
    cases mem_singleton.mp hc
    exact ⟨sc, s, .inl ⟨rfl, rfl⟩, .here s⟩
  only hasks := by
    rcases hasks with ⟨hc, rfl⟩ | ⟨_, _, -, hasks⟩
    · cases hc
      exact ⟨_, mem_singleton_self _, .here s⟩
    · cases hasks

theorem forM {f : StmtId → Analyse PUnit} (hf : ∀ c s, Comes depth (f c) s [(deeper 0, c)])
    (cs : List StmtId) (s : Analysis) : Comes depth (cs.forM f) s (cs.map (deeper 0, ·)) := by
  induction cs generalizing s with
  | nil => exact .silent .pure
  | cons c cs ih => exact (hf c s).bind fun _ t _ => ih t

theorem nested {n : Nesting} (hn : Placed s around (s.enter n))
    (hx : Comes depth x (s.enter n) cs) :
    Comes depth (Analyse.nested n x) s (cs.map fun p => (p.1 ∘ around, p.2)) where
  all hc hrun := by
    obtain ⟨p, hp, hc⟩ := mem_map.mp hc
    cases hc
    simp only [Analyse.nested, run] at hrun
    split at hrun
    · obtain ⟨sc, u, hasks, hplaced⟩ := hx.all hp ‹_›
      exact ⟨sc, u, .inl hasks, hn.trans hplaced⟩
    · cases hrun
  only hasks := by
    rcases hasks with hasks | ⟨_, _, -, hasks⟩
    · obtain ⟨around, hc, hplaced⟩ := hx.only hasks
      exact ⟨_, mem_map_of_mem hc, hn.trans hplaced⟩
    · cases hasks

theorem loop (s : Analysis) : Comes depth (loopBody c sc) s [(deeper 1, c)] := by
  refine .after .act fun inner t => .after .act fun _ t => ?_
  have hn : Placed t (deeper 1) (t.enter .loop) := by
    refine ⟨⟨.refl, prefix_rfl⟩, ?_, rfl⟩
    show (modifyHead _ t.frames).map _ = (t.frames.map _).modifyHead _
    cases t.frames <;> rfl
  exact deeper_deeper 1 0 ▸ nested hn (stmt _)

end Comes

/-- Just the statements in a statement are analysed, with the loops around them that they are in. -/
theorem stmtKind_comes (kind : Stmt) (place : Span) (s : Analysis) :
    Comes depth (stmtKind kind sc place) s (kind.inside.map (Prod.map deeper id)) := by
  cases kind with
  | expr e => exact .silent (.bind exprStmt_silent fun _ => .pure)
  | varDecl name type init storage symbol =>
    exact .silent (.bind localVariable_silent fun _ => .bind ask_silent fun _ => .pure)
  | funcDecl d symbol => exact .silent (.bind localFunction_silent fun _ => .pure)
  | ret v => exact .silent (.bind returnStmt_silent fun _ => .pure)
  | breakLoop | continueLoop => exact .silent (.bind checkInLoop_silent fun _ => .pure)
  | block stmts =>
    exact .before (map_map (f := (0, ·)) .. ▸ .forM (fun _ t => .stmt t) stmts s) fun _ => .pure
  | scope body | label _ body =>
    exact .after (fun _ => trivial) fun _ t => .before (.stmt t) fun _ => .pure
  | ifElse test yes no =>
    refine .after condition_silent fun _ t => .before ?_ fun _ => .pure
    refine .after (fun _ => trivial) fun _ t => .after .act fun _ t => ?_
    cases no with
    | none => exact .before (.stmt t) fun _ => .pure
    | some no =>
      refine .bind (.stmt t) fun _ t _ => .after (fun _ => trivial) fun _ t => ?_
      refine .after .act fun _ t => .after .act fun _ t => ?_
      exact .before (.stmt t) fun _ => .bind (fun _ => trivial) fun _ => .act
  | whileLoop test body =>
    exact .after condition_silent fun _ t => .before (.loop t) fun _ => .pure
  | forLoop init test incr body =>
    refine .after .act fun inner t => ?_
    have hrest (t : Analysis) : Comes depth (do
        let test ← test.mapM (condition · inner)
        let incr ← incr.mapM (exprStmt · inner)
        loopBody body inner
        return Stmt.forLoop init test incr body) t [(deeper 1, body)] :=
      .after (.option (fun _ => condition_silent) _) fun _ t =>
        .after (.option (fun _ => exprStmt_silent) _) fun _ t => .before (.loop t) fun _ => .pure
    cases init with
    | none => exact hrest t
    | some init => exact .bind (.stmt t) fun _ t _ => hrest t
  | foreachRange name lower upper body symbol =>
    refine .after .act fun inner t => .after value_silent fun _ t => ?_
    refine .after value_silent fun _ t => .after ask_silent fun failed t => ?_
    extract_lets rest
    have hrest (type : TypeId) (t : Analysis) : Comes depth (rest type) t [(deeper 1, body)] := by
      refine .after convert_silent fun _ t => .after ask_silent fun _ t => ?_
      refine .after enclosing_silent fun _ t => .after .act fun _ t => ?_
      exact .after .act fun _ t => .before (.loop t) fun _ => .pure
    split
    · exact .after .pure hrest
    · exact .after ask_silent hrest

theorem statement_comes (b : StmtId) (sc : ScopeId) (s : Analysis) :
    Comes depth (statement b sc) s ((s.stmts.kind b).inside.map (Prod.map deeper id)) :=
  have hrest := Comes.before (stmtKind_comes _ (s.stmts.span b) s) fun _ => .act
  ⟨hrest.all, hrest.only⟩

/-- However the analysis of a statement is come to, the loops around it are those that it is in, and
what it reports is not lost. -/
theorem Visits.placed {root : StmtId} {inner : Nat} (hvisits : Visits depth x s root inner b sc u)
    (hx : x.run (analyser depth) s = some (a, t)) :
    ∃ sc' w k v, Asks (analyser depth) root sc' w x s ∧ t.stmts.Inside root k b ∧
      Placed w (deeper k) u ∧ (statement b sc).run (analyser inner) u = some ((), v) ∧
        Continues v t := by
  induction hvisits generalizing t with
  | here hasks =>
    obtain ⟨v, hrun, hrest⟩ := hasks.answer hx
    exact ⟨_, _, 0, v, hasks, .here, .here _, hrun, hrest⟩
  | inside hasks _ ih =>
    obtain ⟨w, hrun, hrest⟩ := hasks.answer hx
    obtain ⟨sc'', u', k, v', hasks', hin, hplaced, hrun', hrest'⟩ := ih hrun
    obtain ⟨_, hc, hplaced'⟩ := (statement_comes _ _ _).only hasks'
    obtain ⟨⟨j, _⟩, hj, hc⟩ := mem_map.mp hc
    cases hc
    have hretains := (continues_run hrun).retains.trans hrest.retains
    have hinside := (hretains _ (StmtTable.index_lt_of_inside hj)).2.1
    exact ⟨_, _, j + k, v', hasks, .step (hinside ▸ hj) (hin.retains hrest.retains),
      hplaced'.deeper hplaced, hrun', kept_continues.trans hrest' hrest⟩

end DCompiler
