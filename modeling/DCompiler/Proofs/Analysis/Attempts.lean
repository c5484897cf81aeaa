import DCompiler.Proofs.Analysis.Reached

/-!
# What an attempt costs

A rule sees the tables and the context but not the log. So a run that starts from the same tables
with another log gives the same result and the same tables, and does the same things to that log:
there is one `Script` for all logs (`analyser_oblivious`). The one place where a rule learns about
the log is the flag that an attempt gets back, and that flag is a matter of the script alone
(`Script.fired_replay`).

`compiles` analyses its arguments under a gag. The gag keeps the reports away, but the tables are
the same ones: a function whose signature, body or instance is first needed by an attempt is
analysed there and never again, since passes only advance (`kept_lasting`), and its errors are gone.
-/

namespace DCompiler

/-- What a pass gives and does to the tables does not depend on the log, and what it does to the log
is one script. -/
def Oblivious {α : Type} (x : Pass α) : Prop :=
  ∀ s t a, x s = some (a, t) →
    ∃ k : Script, ∀ l, x (s.withLog l) = some (a, t.withLog (k.replay l))

namespace Oblivious

variable {α β : Type} {x : Pass α}

theorem log_eq {s t : Analysis} {a : α} {k : Script} (hx : x s = some (a, t))
    (hk : ∀ l, x (s.withLog l) = some (a, t.withLog (k.replay l))) : t.log = k.replay s.log := by
  have h := (hk s.log).symm.trans hx
  simp only [Option.some.injEq, Prod.mk.injEq, true_and] at h
  rw [← h]
  rfl

theorem bind {f : α → Pass β} (hx : Oblivious x) (hf : ∀ a, Oblivious (f a)) :
    Oblivious (x >>= f) := by
  intro s t b h
  obtain ⟨⟨a, u⟩, ha, hb⟩ := Option.bind_eq_some_iff.mp h
  obtain ⟨k, hk⟩ := hx s u a ha
  obtain ⟨k', hk'⟩ := hf a u t b hb
  refine ⟨.seq k k', fun l => ?_⟩
  rw [Pass.run_bind, hk l]
  exact hk' _

theorem pure (a : α) : Oblivious (pure a) := by
  intro s t b h
  cases h
  exact ⟨.silent, fun l => rfl⟩

theorem get {f : Analysis → Pass α} (hf : ∀ s, Oblivious (f s))
    (hlog : ∀ s l, f (s.withLog l) = f s) : Oblivious (get >>= f) := by
  intro s t a h
  obtain ⟨k, hk⟩ := hf s s t a h
  refine ⟨k, fun l => ?_⟩
  show f (s.withLog l) (s.withLog l) = _
  rw [hlog, hk]

theorem modify (f : Analysis → Analysis) (hf : ∀ s l, f (s.withLog l) = (f s).withLog l) :
    Oblivious (modify f) := by
  intro s t a h
  cases h
  refine ⟨.silent, fun l => ?_⟩
  rw [Pass.run_modify, hf]
  rfl

end Oblivious

/-! ## Rules -/

/-- An analyser all of whose answers are oblivious. -/
def Analyser.IsOblivious (h : Analyser) : Prop :=
  ∀ {β : Type} (r : Request β), Oblivious (h.answer r)

variable {h : Analyser} {α : Type}

theorem run_oblivious (hh : h.IsOblivious) (x : Analyse α) : Oblivious (x.run h) := by
  induction x with
  | done a => exact .pure a
  | act x next ih => exact fun s t a hx => ih _ _ t a hx
  | log d next ih =>
    intro s t a hx
    obtain ⟨k, hk⟩ := ih _ _ _ hx
    exact ⟨.seq (.report d) k, fun l => hk (l.report d)⟩
  | request r next ih =>
    intro s t a hx
    simp only [Analyse.run] at hx
    split at hx
    · rename_i b u hr
      obtain ⟨k, hk⟩ := hh r _ _ _ hr
      obtain ⟨k', hk'⟩ := ih b _ _ _ hx
      refine ⟨.seq k k', fun l => ?_⟩
      simp only [Analyse.run, hk l]
      exact hk' _
    · cases hx
  | muted x next ihx ih =>
    intro s t a hx
    simp only [Analyse.run] at hx
    split at hx
    · rename_i b u hr
      obtain ⟨k, hk⟩ := ihx _ _ _ hr
      have hlog : u.log = k.replay s.log.gag := Oblivious.log_eq hr hk
      obtain ⟨k', hk'⟩ := ih _ _ _ _ hx
      refine ⟨.seq (.muted k) k', fun l => ?_⟩
      have hgag : x.run h (s.withLog l).gag = some (b, u.withLog (k.replay l.gag)) := hk l.gag
      have hflag : (k.replay l.gag).firedSince l = u.log.firedSince s.log := by
        rw [hlog, Script.fired_replay, Script.fired_replay]
      simp only [Analyse.run, hgag]
      show (next (b, (k.replay l.gag).firedSince l)).run h _ = _
      rw [hflag]
      exact hk' _
    · cases hx
  | within n x next ihx ih =>
    intro s t a hx
    simp only [Analyse.run] at hx
    split at hx
    · rename_i b u hr
      obtain ⟨k, hk⟩ := ihx _ _ _ hr
      obtain ⟨k', hk'⟩ := ih _ _ _ _ hx
      refine ⟨.seq k k', fun l => ?_⟩
      have henter : x.run h ((s.withLog l).enter n) = some (b, u.withLog (k.replay l)) := hk l
      simp only [Analyse.run, henter]
      exact hk' _
    · cases hx
  | endless => intro s t a hx; cases hx

theorem Oblivious.congruence : Pass.Congruence fun _ x _ => Oblivious x :=
  ⟨.pure, .bind, .get, .modify⟩

theorem analyser_oblivious (depth : Nat) : (analyser depth).IsOblivious := by
  induction depth with
  | zero =>
    intro β r s t b hrun
    cases hrun
  | succ depth ih =>
    intro β r
    cases r with
    | expr e sc => exact run_oblivious ih _
    | stmt s sc => exact run_oblivious ih _
    | signature symbol =>
      exact Oblivious.congruence.signature (k := analyser depth) (run_oblivious ih) symbol
    | body symbol => exact Oblivious.congruence.body (k := analyser depth) (run_oblivious ih) symbol
    | arrayOp e => exact Oblivious.congruence.arrayOp (k := analyser depth) (run_oblivious ih) e

/-- A run that begins without a gag ends without one, and takes back no error. -/
theorem log_run (hh : h.IsOblivious) {x : Analyse α} {s t : Analysis} {a : α}
    (hx : x.run h s = some (a, t)) (hlog : s.log.gagDepth = 0) :
    t.log.gagDepth = 0 ∧ s.log.errors ≤ t.log.errors := by
  obtain ⟨k, hk⟩ := run_oblivious hh x s t a hx
  rw [Oblivious.log_eq hx hk, Script.replay_open k hlog]
  exact ⟨rfl, Nat.le_add_right _ _⟩

end DCompiler

/-! ## Attempts -/

namespace DCompiler.Analyse

open Option

def openTrial (sc : ScopeId) (arg : ExprId) : Analyse ExprId := do
  let (copied, inner) ← prepareTrial sc arg
  trial copied inner

def openTrials (sc : ScopeId) : List ExprId → Analyse Unit
  | [] => return
  | arg :: rest => do
    let _ ← openTrial sc arg
    openTrials sc rest

/-- The literal for an answer, after some expressions were analysed without a gag. -/
def openCompiles (e : ExprId) (tried : List ExprId) (works : Bool) (sc : ScopeId) :
    Analyse ExprId := do
  let place ← span e
  openTrials sc tried
  integer (if works then 1 else 0) (.ofScalar .bool) place

/-! ## One attempt -/

theorem prepareTrial_run (h : Analyser) (sc : ScopeId) (arg : ExprId) (s : Analysis) :
    ∃ (x : ExprId × ScopeId) (u : Analysis),
      ∀ l, (prepareTrial sc arg).run h (s.withLog l) = some (x, u.withLog l) := by
  let pushed := (Action.addScope (some sc)).exec s.toContext
  let noted := (Action.noteScope pushed.1 .speculative).exec pushed.2
  let copied := (Action.copyExpr arg).exec noted.2
  exact ⟨(copied.1, pushed.1), { s with toContext := copied.2 }, fun _ => rfl⟩

variable {h : Analyser} (hh : h.IsOblivious) {s t : Analysis} {sc : ScopeId}
include hh

/-- An attempt is the analysis without a gag, except that what was to be reported is dropped. -/
theorem attempt_run {arg : ExprId} {b : Bool} (hrun : (attempt sc arg).run h s = some (b, t)) :
    ∃ (k : Script) (r : ExprId),
      (∀ l, (openTrial sc arg).run h (s.withLog l) = some (r, t.withLog (k.replay l))) ∧
      t.log = (Script.muted k).replay s.log ∧
      (b = true ↔ errorsIn k.all = 0 ∧ t.isError r = false) := by
  obtain ⟨⟨copied, inner⟩, u, hprepare⟩ := prepareTrial_run h sc arg s
  have hstart : (prepareTrial sc arg).run h s = some ((copied, inner), u.withLog s.log) :=
    hprepare s.log
  simp only [attempt, run_bind, hstart, bind_some, bind_eq_some_iff] at hrun
  obtain ⟨⟨⟨r, failed⟩, v⟩, hgag, ⟨error, u'⟩, hask, hend⟩ := hrun
  simp only [gagged, run] at hgag
  split at hgag
  · rename_i r' w htrial
    cases hgag
    cases hask
    cases hend
    obtain ⟨k, hk⟩ := run_oblivious hh _ _ _ _ htrial
    have hlog : w.log = k.replay s.log.gag := Oblivious.log_eq htrial hk
    have hmuted : w.ungag.log = (Script.muted k).replay s.log := by
      show w.log.ungag = _
      rw [hlog]
      rfl
    refine ⟨k, r, fun l => ?_, hmuted, ?_⟩
    · simp only [openTrial, run_bind, hprepare, bind_some]
      exact hk l
    rw [hlog]
    show (!(k.replay s.log.gag).firedSince s.log && _) = true ↔ _
    rw [Script.fired_replay]
    simp
  · cases hgag

theorem attemptAll_run (args : List ExprId) {b : Bool}
    (hrun : (attemptAll sc args).run h s = some (b, t)) :
    ∃ (tried : List ExprId) (k : Script), tried <+: args ∧
      (∀ l, (openTrials sc tried).run h (s.withLog l) = some ((), t.withLog (k.replay l))) ∧
      t.log = (Script.muted k).replay s.log ∧
      (b = true → tried = args ∧ errorsIn k.all = 0) := by
  induction args generalizing s t with
  | nil =>
    cases hrun
    exact ⟨[], .silent, List.prefix_refl _, fun _ => rfl, rfl, fun _ => ⟨rfl, rfl⟩⟩
  | cons arg rest ih =>
    simp only [attemptAll, run_bind, bind_eq_some_iff] at hrun
    obtain ⟨⟨works, u⟩, hattempt, hrest⟩ := hrun
    obtain ⟨k, r, hopen, hlog, hworks⟩ := attempt_run hh hattempt
    cases works with
    | false =>
      cases hrest
      refine ⟨[arg], k, by simp, fun l => ?_, hlog, by simp⟩
      simp only [openTrials, run_bind, hopen, bind_some, run_pure]
    | true =>
      obtain ⟨tried, k', hprefix, hopens, hlogs, hall⟩ := ih hrest
      have hsum : t.log = (Script.muted (.seq k k')).replay s.log := by
        simp only [hlogs, hlog, Script.replay_muted, Script.all, errorsIn_append, Nat.add_assoc]
      refine ⟨arg :: tried, .seq k k', by simpa using hprefix, fun l => ?_, hsum, fun hb => ?_⟩
      · simp only [openTrials, run_bind, hopen, bind_some]
        exact hopens _
      · obtain ⟨rfl, hk'⟩ := hall hb
        exact ⟨rfl, by simp [Script.all, hk', (hworks.mp rfl).1]⟩

theorem compiles_run {e r : ExprId} {args : List ExprId}
    (hrun : (compiles e args sc).run h s = some (r, t)) :
    ∃ (tried : List ExprId) (works : Bool) (k : Script), tried <+: args ∧
      (∀ l, (openCompiles e tried works sc).run h (s.withLog l) =
        some (r, t.withLog (k.replay l))) ∧
      t.log = (Script.muted k).replay s.log ∧
      (works = true → tried = args ∧ errorsIn k.all = 0) := by
  simp only [compiles, run_bind, bind_eq_some_iff] at hrun
  obtain ⟨⟨place, u⟩, hspan, hrest⟩ := hrun
  cases hspan
  cases args with
  | nil =>
    cases hrest
    exact ⟨[], false, .silent, by simp, fun _ => rfl, rfl, by simp⟩
  | cons arg rest =>
    simp only [List.isEmpty_cons, Bool.false_eq_true, if_false, run_bind, bind_eq_some_iff] at hrest
    obtain ⟨⟨works, v⟩, hall, hliteral⟩ := hrest
    obtain ⟨tried, k, hprefix, hopen, hlog, hworks⟩ := attemptAll_run hh (arg :: rest) hall
    cases hliteral
    refine ⟨tried, works, k, hprefix, fun l => ?_, hlog, hworks⟩
    simp only [openCompiles, run_bind]
    show ((openTrials sc tried).run h (s.withLog l)).bind _ = _
    rw [hopen]
    rfl

end DCompiler.Analyse

namespace DCompiler

open Analyse

/-- **What an attempt costs.** An occurrence of `compiles` reports nothing and leaves the tables as
the analysis of its arguments without a gag leaves them. What that analysis would have reported is
lost: whatever is analysed afterwards reports the same in both cases, and the functions that were
begun in the attempt are not begun again. -/
theorem attempt_loses_what_it_drops {depth : Nat} {e r : ExprId} {args : List ExprId} {sc : ScopeId}
    {s t : Analysis} (hrun : (compiles e args sc).run (analyser depth) s = some (r, t)) :
    ∃ (tried : List ExprId) (works : Bool) (t' : Analysis) (lost : List Diagnostic),
      tried <+: args ∧
      (openCompiles e tried works sc).run (analyser depth) s = some (r, t') ∧
      t.toContext = t'.toContext ∧
      t.log.reported = s.log.reported ∧
      t.log.errors = s.log.errors ∧
      t'.log.reported.toList = s.log.reported.toList ++ lost ∧
      s.log.gagged + errorsIn lost ≤ t.log.gagged ∧
      (works = true → tried = args ∧ errorsIn lost = 0) ∧
      ∀ {α : Type} (depth' : Nat) (x : Analyse α) (a : α) (u : Analysis),
        x.run (analyser depth') t = some (a, u) →
          ∃ (u' : Analysis) (later : List Diagnostic),
            x.run (analyser depth') t' = some (a, u') ∧
            u.toContext = u'.toContext ∧
            u.log.reported.toList = s.log.reported.toList ++ later ∧
            u'.log.reported.toList = s.log.reported.toList ++ lost ++ later ∧
            ∀ symbol f, t.symbols.func? symbol = some f →
              (Progress.defaults.rank ≤ f.progress.rank →
                (analyser (depth' + 1)).answer (.signature symbol) u = some ((), u)) ∧
              (Progress.bodyRunning.rank ≤ f.progress.rank →
                (analyser (depth' + 1)).answer (.body symbol) u = some ((), u)) := by
  obtain ⟨tried, works, k, hprefix, hopen, hlog, hworks⟩ :=
    compiles_run (analyser_oblivious depth) hrun
  rw [Script.replay_muted] at hlog
  have hlost := k.errorsIn_reportedOn_le s.log
  refine ⟨tried, works, t.withLog (k.replay s.log), k.reportedOn s.log, hprefix, hopen s.log, rfl,
    by rw [hlog], by rw [hlog], k.reported_replay s.log, ?_, fun hw => ⟨(hworks hw).1, ?_⟩, ?_⟩
  · rw [hlog]
    exact Nat.add_le_add_left hlost _
  · have hnone := (hworks hw).2
    omega
  · intro α depth' x a u hx
    obtain ⟨k', hk'⟩ := run_oblivious (analyser_oblivious depth') x t u a hx
    have hu : u.log = k'.replay t.log := Oblivious.log_eq hx hk'
    have hdepth : (k.replay s.log).gagDepth = t.log.gagDepth := by
      rw [Script.gagDepth_replay, hlog]
    refine ⟨u.withLog (k'.replay (k.replay s.log)), k'.reportedOn t.log, hk' _, rfl, ?_, ?_, ?_⟩
    · rw [hu, k'.reported_replay, hlog]
    · show (k'.replay (k.replay s.log)).reported.toList = _
      rw [k'.reported_replay, k.reported_replay, Script.reportedOn, Script.reportedOn, hdepth]
      rfl
    · intro symbol f hf
      obtain ⟨g, hg, hfg, -⟩ := (run_lasting x hx).function symbol f hf
      exact ⟨fun hp => Pass.signature_again hg (Nat.le_trans hp hfg),
        fun hp => Pass.body_again hg (Nat.le_trans hp hfg)⟩

def strayName : Analysis :=
  ((Analysis.ofProgram (.empty {})).after (.addScope none)).after
    (.addExpr ⟨.identifier "missing", ⟨0, 0⟩, none⟩)

theorem attempt_loses_strayName : ∃ (r : ExprId) (t : Analysis),
    (compiles ⟨0⟩ [⟨0⟩] ⟨0⟩).run (analyser 2) strayName = some (r, t) ∧
    t.log.gagged = 1 ∧ t.log.reported = strayName.log.reported := by
  have hrun : ((compiles ⟨0⟩ [⟨0⟩] ⟨0⟩).run (analyser 2) strayName).any
      (fun r => r.2.log.gagged == 1) := by decide +kernel
  obtain ⟨⟨r, t⟩, hrt, hgagged⟩ := (Option.any_eq_true _ _).mp hrun
  obtain ⟨-, -, -, -, -, -, -, hreported, -⟩ := attempt_loses_what_it_drops hrt
  exact ⟨r, t, hrt, by simpa using hgagged, hreported⟩

def messagesOf (text : String) : List String :=
  (stateOf text).log.reported.toList.map (·.message)

/-- The literal that the first variable of such a module starts with. -/
def initialValue? (text : String) : Option UInt64 :=
  let p := (sessionOf text).program
  (p.symbols.var? ⟨1⟩).bind fun v => v.init.bind p.literal?

/-- The attempt is false, and with `false` in its place the module has an error that it hides. -/
theorem attempt_hides_default :
    initialValue? "bool b = __traits(compiles, f(1)); int f(int x, int y = missing) { return 1; }" =
      some 0 ∧
    initialValue? "bool b = false; int f(int x, int y = missing) { return 1; }" = some 0 ∧
    messagesOf "bool b = __traits(compiles, f(1)); int f(int x, int y = missing) { return 1; }" =
      [] ∧
    messagesOf "bool b = false; int f(int x, int y = missing) { return 1; }" =
      ["undefined identifier `missing`"] := by
  decide +kernel

end DCompiler
