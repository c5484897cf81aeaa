import DCompiler.Proofs.Analysis.Passes
import DCompiler.Proofs.Grammar.Module
import DCompiler.Session
import DCompiler.Proofs.Diagnostic.Script

/-!
# The states of a session

A session reads texts and analyses modules and expressions one after the other. `Reached` holds of
every state on the way: of those between two analyses, and of those inside them, where an action has
been done, a gag is in force or a pass is half through.

The depth of calls, the gags and the functions whose bodies are being analysed are entered and left
around rules. Whatever a rule does in between, and however it ends, they are afterwards what they
were before (`Balanced`). So the depth of calls is at no moment less than the number of open calls,
and the bound on it is a bound on them (`Moment.calls_le`).
-/

namespace DCompiler

open Analyse

inductive Reached : Analysis → Prop
  | start (options : Options) : Reached (.ofProgram (.empty options))
  /-- The next analysis starts with a new context. -/
  | again {s : Analysis} (h : Reached s) : Reached (.ofProgram s.toProgram)
  | readModule {p p' : Program} {text name : String} {m : ModuleDecl} (h : Reached (.ofProgram p))
      (hread : p.read (·.readModule text name) = .ok (m, p')) : Reached (.ofProgram p')
  | readExpr {p p' : Program} {text : String} {e : ExprId} (h : Reached (.ofProgram p))
      (hread : p.read (·.readExpr text) = .ok (e, p')) : Reached (.ofProgram p')
  | act {β : Type} {s : Analysis} (h : Reached s) (x : Action β) : Reached (s.after x)
  | report {s : Analysis} (h : Reached s) (d : Diagnostic) : Reached (s.report d)
  | gag {s : Analysis} (h : Reached s) : Reached s.gag
  | ungag {s : Analysis} (h : Reached s) : Reached s.ungag
  | enter {s : Analysis} (h : Reached s) (n : Nesting) : Reached (s.enter n)
  | leave {s : Analysis} (h : Reached s) (n : Nesting) : Reached (s.leave n)
  /-- A pass over a function begins or ends. -/
  | advance {s : Analysis} {symbol : SymbolId} {progress : Progress} (h : Reached s)
      (hp : s.MayAdvance symbol progress) : Reached (s.setProgress symbol progress)
  /-- A pass found the type of a function. -/
  | retype {s : Analysis} {symbol : SymbolId} (h : Reached s) (hopen : s.Open symbol)
      (type : TypeId) : Reached (s.setFunctionType symbol type)
  /-- The functions for an array operation were made. -/
  | record {s t : Analysis} {e : ExprId} {entry : ArrayOpEntry} {depth : Nat} (h : Reached s)
      (h' : Reached t)
      (huncached : s.arrayOps.get? (operationName s.toTables e) = none)
      (hbuild : (buildArrayOp (operationName s.toTables e) e
        ((partsOf s.toTables e).operands.map (·.param))).run (analyser depth) s =
          some (entry, t)) :
      Reached (t.recordArrayOp (operationName s.toTables e) entry)

theorem kept_reached : Kept fun s t => Reached s → Reached t where
  refl _ := id
  trans h h' := fun hs => h' (h hs)
  act x _ := fun hs => hs.act x
  report d _ := fun hs => hs.report d
  gag h := fun hs => (h hs.gag).ungag
  nest n _ _ h := fun hs => (h (hs.enter n)).leave n
  progress _ _ _ hp := fun hs => hs.advance hp
  type type _ hopen h := fun hs => (h hs).retype hopen type
  record huncached hbuild h := fun hs => hs.record (h hs) huncached hbuild

theorem run_reached {α : Type} (x : Analyse α) {depth : Nat} {s t : Analysis} {a : α}
    (hs : Reached s) (hx : x.run (analyser depth) s = some (a, t)) : Reached t :=
  run_kept kept_reached (analyser_keeps kept_reached depth) x hx hs

/-! ## Whole analyses -/

theorem Program.analyseModule_reached {p p' : Program} {m : ModuleDecl} {symbol : SymbolId}
    (hp : Reached (.ofProgram p)) (hrun : p.analyseModule m = some (symbol, p')) :
    Reached (.ofProgram p') := by
  obtain ⟨⟨found, t⟩, hx, hdone⟩ := Option.bind_eq_some_iff.mp hrun
  cases hdone
  exact (run_reached _ hp hx).again

theorem Session.analyse_reached {s : Session} (hs : Reached (.ofProgram s.program))
    (file text : String) : Reached (.ofProgram (s.analyse file text).2.program) := by
  unfold analyse
  dsimp only
  split
  · exact hs
  rename_i m p hread
  split
  · exact hs
  · exact Program.analyseModule_reached (hs.readModule hread) ‹_›

/-! ## Types -/

/-- Reading a text changes expressions, statements and types only. -/
theorem Program.read_inv {α : Type} {p p' : Program} {a : α}
    {reader : SyntaxTables → Except ReadError (α × SyntaxTables)}
    (hread : p.read reader = .ok (a, p')) :
    ∃ t, reader ⟨p.exprs, p.stmts, p.types⟩ = .ok (a, t) ∧
      p' = { p with exprs := t.exprs, stmts := t.stmts, types := t.types } := by
  unfold read at hread
  split at hread <;> cases hread
  exact ⟨_, ‹_›, rfl⟩

theorem Reached.types {s : Analysis} (h : Reached s) : TypeTable.initial.Grows s.types := by
  induction h with
  | start options => exact .refl
  | again _ ih => exact ih
  | readModule _ hread ih =>
    obtain ⟨t, hrun, rfl⟩ := Program.read_inv hread
    exact ih.trans (SyntaxTables.readModule_grown ih hrun).1.types
  | readExpr _ hread ih =>
    obtain ⟨t, hrun, rfl⟩ := Program.read_inv hread
    exact ih.trans (SyntaxTables.readExpr_grown ih hrun).1.types
  | act _ x ih => exact ih.trans (stable_steady.act x _).types
  | report _ _ ih | gag _ ih | ungag _ ih | advance _ _ ih | retype _ _ _ ih => exact ih
  | enter _ n ih => rwa [n.types_enter]
  | leave _ n ih => rwa [n.types_leave]
  | record _ _ _ _ _ ih => exact ih

/-! ## One text -/

/-- A session of its own for a source text. -/
def sessionOf (text : String) : Session := ((Session.new {}).analyse "test.d" text).2

def stateOf (text : String) : Analysis := .ofProgram (sessionOf text).program

theorem stateOf_reached (text : String) : Reached (stateOf text) :=
  Session.analyse_reached (.start {}) _ _

/-! ## What is around a place of analysis -/

/-- The functions whose bodies are being analysed, each with the number of loops in it that are
around the place of analysis. -/
def Context.stack (c : Context) : List (SymbolId × Nat) :=
  c.frames.map fun f => (f.func, f.loopDepth)

/-- The calls, the gags and the functions around the place of analysis are the same. -/
structure Balanced (s t : Analysis) : Prop where
  calls : t.callDepth = s.callDepth
  gags : t.log.gagDepth = s.log.gagDepth
  stack : t.stack = s.stack
  options : t.options = s.options

/-- A moment of an analysis: a rule is run from a state, inside so many calls that were let
through. -/
inductive Moment : {α : Type} → Nat → Analyse α → Analysis → Nat → Prop
  | start (x : Analyse α) (p : Program) : Moment depth x (.ofProgram p) 0
  | act (h : Moment depth (.act y next) s n) :
      Moment depth (next (y.exec s.toContext).1) (s.after y) n
  | log (h : Moment depth (.log d next) s n) : Moment depth next (s.report d) n
  /-- A request is answered by running rules with the same calls and functions around them. -/
  | request (h : Moment (depth + 1) (.request r next) s n) (x : Analyse α) (hu : Balanced s u) :
      Moment depth x u n
  | answered (h : Moment depth (.request r next) s n)
      (hr : (analyser depth).answer r s = some (b, t)) : Moment depth (next b) t n
  | gagged (h : Moment depth (.muted x next) s n) : Moment depth x s.gag n
  | ungagged (h : Moment depth (.muted x next) s n)
      (hx : x.run (analyser depth) s.gag = some (b, t)) :
      Moment depth (next (b, t.log.firedSince s.log)) t.ungag n
  | entered (h : Moment depth (.within k x next) s n) : Moment depth x (s.enter k)
      (if k = .call ∧ s.callDepth < s.options.maxCallDepth then n + 1 else n)
  | left (h : Moment depth (.within k x next) s n)
      (hx : x.run (analyser depth) (s.enter k) = some (b, t)) : Moment depth (next b) (t.leave k) n

variable {α β : Type} {s t : Analysis} {depth n : Nat}

/-! ## Runs -/

theorem map_markConstructed (func : SymbolId) (frames : List Frame) :
    (markConstructed func frames).map (fun f => (f.func, f.loopDepth)) =
      frames.map fun f => (f.func, f.loopDepth) := by
  induction frames with
  | nil => rfl
  | cons frame rest ih =>
    unfold markConstructed
    split
    · rfl
    · rw [List.map_cons, ih, List.map_cons]

theorem Balanced.after (x : Action β) (s : Analysis) : Balanced s (s.after x) := by
  cases x with
  | construct func => exact ⟨rfl, rfl, map_markConstructed func s.frames, rfl⟩
  | setConstructed value =>
    refine ⟨rfl, rfl, ?_, rfl⟩
    show (modifyHead _ s.frames).map _ = s.frames.map _
    cases s.frames <;> rfl
  | _ => exact ⟨rfl, rfl, rfl, rfl⟩

theorem Balanced.report (d : Diagnostic) (s : Analysis) : Balanced s (s.report d) := by
  refine ⟨rfl, ?_, rfl, rfl⟩
  show (s.log.report d).gagDepth = s.log.gagDepth
  unfold DiagnosticLog.report
  dsimp only
  split <;> rfl

theorem Balanced.nest (k : Nesting) (h : Balanced (s.enter k) t) : Balanced s (t.leave k) := by
  obtain ⟨hcalls, hgags, hstack, hoptions⟩ := h
  cases k with
  | call => exact ⟨congrArg (· - 1) hcalls, hgags, hstack, hoptions⟩
  | body func =>
    refine ⟨hcalls, hgags, ?_, hoptions⟩
    show t.frames.tail.map _ = s.stack
    rw [List.map_tail]
    exact congrArg List.tail hstack
  | loop =>
    refine ⟨hcalls, hgags, ?_, hoptions⟩
    have henter : (s.enter .loop).stack = s.stack.modifyHead (Prod.map id (· + 1)) := by
      show (modifyHead _ s.frames).map _ = (s.frames.map _).modifyHead _
      cases s.frames <;> rfl
    have hleave : (t.leave .loop).stack = t.stack.modifyHead (Prod.map id (· - 1)) := by
      show (modifyHead _ t.frames).map _ = (t.frames.map _).modifyHead _
      cases t.frames <;> rfl
    rw [hleave, hstack, henter]
    cases s.stack <;> rfl

theorem kept_balanced : Kept Balanced where
  refl _ := ⟨rfl, rfl, rfl, rfl⟩
  trans h h' := ⟨h'.calls.trans h.calls, h'.gags.trans h.gags, h'.stack.trans h.stack,
    h'.options.trans h.options⟩
  act := .after
  report := .report
  gag h := ⟨h.calls, congrArg (· - 1) h.gags, h.stack, h.options⟩
  nest k _ _ := .nest k
  progress _ _ _ _ := ⟨rfl, rfl, rfl, rfl⟩
  type _ _ _ h := ⟨h.calls, h.gags, h.stack, h.options⟩
  record _ _ h := ⟨h.calls, h.gags, h.stack, h.options⟩

theorem run_balanced (x : Analyse α) {a : α} (hx : x.run (analyser depth) s = some (a, t)) :
    Balanced s t :=
  run_kept kept_balanced (analyser_keeps kept_balanced depth) x hx

/-! ## Calls inside calls -/

/-- What is analysed of a call, inside of it: nothing if the calls around are as many as allowed. -/
def insideCall (c : Context) (e callee : ExprId) (args : List ExprId) (sc : ScopeId) :
    Analyse ExprId :=
  if c.callDepth < c.options.maxCallDepth then boundedCall e callee args sc
  else fail (c.exprs.span e) (.recursiveEvaluation (c.text e))

theorem call_run (h : Analyser) (s : Analysis) (e callee : ExprId) (args : List ExprId)
    (sc : ScopeId) : (call e callee args sc).run h s =
      ((insideCall s.toContext e callee args sc).run h (s.enter .call)).map fun r =>
        (r.1, r.2.leave .call) := by
  have hnested (x : Analyse ExprId) : (nested .call x).run h s =
      (x.run h (s.enter .call)).map fun r => (r.1, r.2.leave .call) := by
    simp only [nested, run]
    cases x.run h (s.enter .call) <;> rfl
  rw [call, hnested, run_next (context_run h _)]
  congr 1
  show (if s.options.maxCallDepth < s.callDepth + 1 then _ else _ : Analyse ExprId).run h _ = _
  unfold insideCall
  by_cases hdepth : s.callDepth < s.options.maxCallDepth
  · rw [if_pos hdepth, if_neg (by omega)]
  · rw [if_neg hdepth, if_pos (by omega)]
    rfl

/-- The bound goes by the depth of calls, which is never less than the calls that were let
through. -/
theorem Moment.calls_le {x : Analyse α} (h : Moment depth x s n) :
    n ≤ s.callDepth ∧ n ≤ s.options.maxCallDepth := by
  have hsame {s t : Analysis} {n : Nat} (hst : Balanced s t)
      (hs : n ≤ s.callDepth ∧ n ≤ s.options.maxCallDepth) :
      n ≤ t.callDepth ∧ n ≤ t.options.maxCallDepth := by rwa [hst.calls, hst.options]
  induction h with
  | start x p => exact ⟨Nat.zero_le _, Nat.zero_le _⟩
  | act _ ih => exact hsame (.after _ _) ih
  | log _ ih | gagged _ ih => exact ih
  | request _ _ hu ih => exact hsame hu ih
  | answered _ hr ih => exact hsame (analyser_keeps kept_balanced _ _ hr) ih
  | ungagged _ hx ih => exact hsame (kept_balanced.gag (run_balanced _ hx)) ih
  | @entered _ _ k _ _ _ s _ _ ih =>
    cases k with
    | call =>
      show _ ≤ s.callDepth + 1 ∧ _ ≤ s.options.maxCallDepth
      split <;> omega
    | _ => simpa [Analysis.enter, Nesting.enter] using ih
  | left _ hx ih => exact hsame ((run_balanced _ hx).nest _) ih

/-! ## Errors -/

/-- An error is counted once: with those that are recorded, or else with those that are dropped. -/
theorem DiagnosticLog.report_error (l : DiagnosticLog) {d : Diagnostic} (hd : d.isError = true) :
    l.report d = if 0 < l.gagDepth then { l with gagged := l.gagged + 1 }
      else { l with errors := l.errors + 1, reported := l.reported.push d } := by
  simp only [report, isGagged, hd, if_true, decide_eq_true_eq]

theorem Reached.errors_eq (h : Reached s) : s.log.errors = errorsIn s.log.reported.toList := by
  induction h with
  | start options => rfl
  | again _ ih | gag _ ih | ungag _ ih | act _ _ ih | advance _ _ ih | retype _ _ _ ih
  | enter _ _ ih | leave _ _ ih | record _ _ _ _ _ ih => exact ih
  | readModule _ hread ih | readExpr _ hread ih =>
    obtain ⟨t, -, rfl⟩ := Program.read_inv hread
    exact ih
  | @report s _ d ih =>
    show (s.log.report d).errors = errorsIn (s.log.report d).reported.toList
    cases hgag : s.log.isGagged <;> simp [DiagnosticLog.report, hgag, ih]

/-- **Analysis restores its context.** Every run of a rule and every answer to a request ends with
the calls, the gags and the functions around it as they were at the start. A call is analysed only
if there are fewer calls around it than allowed, so at no moment of an analysis is it inside of more
calls than that. In each state of a session the errors that are counted are those that are recorded,
and an error is either recorded or counted as dropped. -/
theorem analysis_restores_context :
    (∀ {α : Type} {depth : Nat} {s t : Analysis} {a : α} (x : Analyse α),
      x.run (analyser depth) s = some (a, t) → Balanced s t) ∧
    (∀ {β : Type} {depth : Nat} {s t : Analysis} {b : β} (r : Request β),
      (analyser depth).answer r s = some (b, t) → Balanced s t) ∧
    (∀ h s e callee args sc, (call e callee args sc).run h s =
      ((insideCall s.toContext e callee args sc).run h (s.enter .call)).map fun r =>
        (r.1, r.2.leave .call)) ∧
    (∀ {α : Type} {depth n : Nat} {s : Analysis} (x : Analyse α), Moment depth x s n →
      n ≤ s.options.maxCallDepth) ∧
    (∀ s, Reached s → s.log.errors = errorsIn s.log.reported.toList) ∧
    ∀ (l : DiagnosticLog) (d : Diagnostic), d.isError = true →
      l.report d = if 0 < l.gagDepth then { l with gagged := l.gagged + 1 }
        else { l with errors := l.errors + 1, reported := l.reported.push d } :=
  ⟨fun x hx => run_balanced x hx, fun r hr => analyser_keeps kept_balanced _ r hr, call_run,
    fun _ h => h.calls_le.2, fun _ h => h.errors_eq, fun l _ hd => l.report_error hd⟩

/-- A call where none is allowed: it is refused, and the context is restored. -/
theorem analysis_restores_refusedCall : ∃ r t,
    (call ⟨0⟩ ⟨0⟩ [] ⟨0⟩).run (analyser 1) (.ofProgram (.empty { maxCallDepth := 0 })) =
      some (r, t) ∧ t.log.errors = 1 ∧ Balanced (.ofProgram (.empty { maxCallDepth := 0 })) t := by
  have hrefused : ((call ⟨0⟩ ⟨0⟩ [] ⟨0⟩).run (analyser 1)
      (.ofProgram (.empty { maxCallDepth := 0 }))).any (·.2.log.errors == 1) = true := by
    decide +kernel
  obtain ⟨⟨r, t⟩, hrun, herrors⟩ := (Option.any_eq_true _ _).mp hrefused
  exact ⟨r, t, hrun, by simpa using herrors, analysis_restores_context.1 _ hrun⟩

end DCompiler
