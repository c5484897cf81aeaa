import DCompiler.Diagnostic.Log

/-!
# What happens to a log

A run of the analysis does four things to the log: nothing, a report, one thing after another, and
something under a gag. A `Script` is such a run seen from the log alone. The same script can be
replayed on any log, and what it does there is known from the lists `all`, `shown` and `dropped`.
-/

namespace DCompiler

inductive Script where
  | silent
  | report (d : Diagnostic)
  | seq (first second : Script)
  | muted (x : Script)
  deriving Repr, Inhabited

def errorsIn (ds : List Diagnostic) : Nat := ds.countP Diagnostic.isError

@[simp] theorem errorsIn_nil : errorsIn [] = 0 := rfl

@[simp] theorem errorsIn_singleton (d : Diagnostic) :
    errorsIn [d] = if d.isError then 1 else 0 := by
  simp [errorsIn, List.countP_cons]

@[simp] theorem errorsIn_append (xs ys : List Diagnostic) :
    errorsIn (xs ++ ys) = errorsIn xs + errorsIn ys := List.countP_append

namespace Script

def replay : Script → DiagnosticLog → DiagnosticLog
  | silent, l => l
  | report d, l => l.report d
  | seq x y, l => y.replay (x.replay l)
  | muted x, l => (x.replay l.gag).ungag

def all : Script → List Diagnostic
  | silent => []
  | report d => [d]
  | seq x y => x.all ++ y.all
  | muted x => x.all

def shown : Script → List Diagnostic
  | silent => []
  | report d => [d]
  | seq x y => x.shown ++ y.shown
  | muted _ => []

def dropped : Script → List Diagnostic
  | silent | report _ => []
  | seq x y => x.dropped ++ y.dropped
  | muted x => x.all

theorem errorsIn_all (k : Script) : errorsIn k.all = errorsIn k.shown + errorsIn k.dropped := by
  induction k with
  | silent | report d | muted x => simp [all, shown, dropped]
  | seq x y ihx ihy =>
    simp only [all, shown, dropped, errorsIn_append, ihx, ihy]
    omega

theorem replay_gagged (k : Script) {l : DiagnosticLog} (h : 0 < l.gagDepth) :
    k.replay l = { l with gagged := l.gagged + errorsIn k.all } := by
  induction k generalizing l with
  | silent => rfl
  | report d => simp [replay, all, DiagnosticLog.report, DiagnosticLog.isGagged, h]
  | seq x y ihx ihy =>
    rw [replay, ihx h, ihy (by exact h)]
    simp [all, Nat.add_assoc]
  | muted x ih =>
    simp only [replay, all]
    rw [ih (Nat.succ_pos _)]
    rfl

theorem replay_open (k : Script) {l : DiagnosticLog} (h : l.gagDepth = 0) :
    k.replay l =
      { reported := l.reported ++ k.shown.toArray
        errors := l.errors + errorsIn k.shown
        gagged := l.gagged + errorsIn k.dropped
        gagDepth := 0 } := by
  induction k generalizing l with
  | silent =>
    obtain ⟨reported, errors, gagged, depth⟩ := l
    cases h
    simp [replay, shown, dropped]
  | report d => simp [replay, shown, dropped, DiagnosticLog.report, DiagnosticLog.isGagged, h]
  | seq x y ihx ihy =>
    simp only [replay, ihx h]
    rw [ihy rfl]
    simp [shown, dropped, Nat.add_assoc]
  | muted x =>
    simp only [replay]
    rw [replay_gagged x (Nat.succ_pos _)]
    simp [DiagnosticLog.gag, DiagnosticLog.ungag, shown, dropped, h]

@[simp] theorem gagDepth_replay (k : Script) (l : DiagnosticLog) :
    (k.replay l).gagDepth = l.gagDepth := by
  rcases Nat.eq_zero_or_pos l.gagDepth with h | h
  · rw [replay_open k h, h]
  · rw [replay_gagged k h]

/-- What a script reports on a log: nothing under a gag. -/
def reportedOn (k : Script) (l : DiagnosticLog) : List Diagnostic :=
  if l.gagDepth = 0 then k.shown else []

section

variable (k : Script) (l : DiagnosticLog)
include k l

theorem reported_replay : (k.replay l).reported.toList = l.reported.toList ++ k.reportedOn l := by
  rcases Nat.eq_zero_or_pos l.gagDepth with h | h
  · simp [replay_open k h, reportedOn, h]
  · simp [replay_gagged k h, reportedOn, Nat.ne_of_gt h]

theorem errorsIn_reportedOn_le : errorsIn (k.reportedOn l) ≤ errorsIn k.all := by
  rw [errorsIn_all, reportedOn]
  split
  · exact Nat.le_add_right _ _
  · exact Nat.zero_le _

/-- What a gag reports does not depend on the log it is put on. -/
theorem fired_replay : (k.replay l.gag).firedSince l = decide (0 < errorsIn k.all) := by
  rw [replay_gagged k (Nat.succ_pos _)]
  simp [DiagnosticLog.firedSince, DiagnosticLog.gag]

/-- A script under a gag leaves only the count of what was dropped. -/
theorem replay_muted : (muted k).replay l = { l with gagged := l.gagged + errorsIn k.all } := by
  simp only [replay]
  rw [replay_gagged k (Nat.succ_pos _)]
  rfl

end

end Script

end DCompiler
