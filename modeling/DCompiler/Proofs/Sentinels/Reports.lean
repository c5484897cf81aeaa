import DCompiler.Proofs.Analysis.Passes
import DCompiler.Proofs.Sentinels.Sound

/-!
# Rules that report

A rule *reports* when it has no silent failure: a run that starts from sound tables and ends without
an error reported or dropped ends in sound tables, with the result that the rule is there for
(`Reports`).

An error that was reported once stays in the counts (`Later`), so a branch of a rule that reports an
error needs no further look (`ReportsOr.error`, `ReportsOr.fail`), and a rule is gone through one
step after the other (`ReportsOr.bind`).

Two rules leave an error expression without a report: a compound assignment to or from a `void`
value, and the name of a variable whose type is not known yet (`Tables.gap`). They are stated with
`Answers`. The guarded analyser has no answer in gaps; where it has one, it is that of the analyser
(`guarded_below`).
-/

namespace DCompiler

open Option

/-! ## Runs without errors -/

/-- A type that is made of the error type although nothing was reported. -/
def TypeKind.isHollow : TypeKind → Bool
  | staticArray elem _ => elem == .error
  | enumType _ _ base => base == .error
  | _ => false

/-- No error was reported, none was dropped, and no type is hollow. -/
structure Analysis.Clean (s : Analysis) : Prop where
  errors : s.log.errors = 0
  gagged : s.log.gagged = 0
  types : ∀ k ∈ s.types.kinds, k.isHollow = false

/-- Counts of errors and the table of types only grow. -/
structure Later (s t : Analysis) : Prop where
  errors : s.log.errors ≤ t.log.errors
  gagged : s.log.gagged ≤ t.log.gagged
  types : s.types.Grows t.types

variable {s t : Analysis}

theorem Later.clean (h : Later s t) (ht : t.Clean) : s.Clean where
  errors := Nat.le_zero.mp (ht.errors ▸ h.errors)
  gagged := Nat.le_zero.mp (ht.gagged ▸ h.gagged)
  types k hk := by
    obtain ⟨i, hi⟩ := Array.mem_iff_getElem?.mp hk
    exact ht.types k (Array.mem_of_getElem? (h.types.kinds_eq hi))

theorem Later.of_same (hlog : t.log = s.log) (htypes : t.types = s.types) : Later s t := by
  refine ⟨Nat.le_of_eq ?_, Nat.le_of_eq ?_, htypes ▸ .refl⟩
  · rw [hlog]
  · rw [hlog]

theorem Later.trans {u : Analysis} (h : Later s t) (h' : Later t u) : Later s u :=
  ⟨Nat.le_trans h.errors h'.errors, Nat.le_trans h.gagged h'.gagged, h.types.trans h'.types⟩

theorem Later.report (d : Diagnostic) (s : Analysis) : Later s (s.report d) := by
  have hcounts : s.log.errors ≤ (s.log.report d).errors ∧
      s.log.gagged ≤ (s.log.report d).gagged := by
    cases hgag : s.log.isGagged <;> simp [DiagnosticLog.report, hgag]
  exact ⟨hcounts.1, hcounts.2, .refl⟩

theorem stable_later : Stable Later where
  refl _ := .of_same rfl rfl
  trans := Later.trans
  act x s := by
    cases x with
    | intern k => exact ⟨.refl, .refl, .intern .refl k⟩
    | _ => exact .of_same rfl rfl
  report := Later.report
  gag h := ⟨h.errors, h.gagged, h.types⟩
  nest n s t h := by
    have henter : Later s (s.enter n) := .of_same rfl (n.types_enter s)
    have hleave : Later t (t.leave n) := .of_same rfl (n.types_leave t)
    exact (henter.trans h).trans hleave

theorem kept_later : Kept Later where
  toStable := stable_later
  progress _ _ _ _ := .of_same rfl rfl
  type _ _ _ h := h.trans (.of_same rfl rfl)
  record _ _ h := h.trans (.of_same rfl rfl)

theorem not_clean_of_error {d : Diagnostic} (hd : d.isError = true) (h : Later (s.report d) t) :
    ¬ t.Clean := by
  intro ht
  have herrors : (s.log.report d).errors = 0 := (h.clean ht).errors
  have hgagged : (s.log.report d).gagged = 0 := (h.clean ht).gagged
  unfold DiagnosticLog.report at herrors hgagged
  cases hgag : s.log.isGagged <;> simp_all

/-! ## Rules that report -/

/-- A rule that reports, or else ends in `E`. -/
def ReportsOr {α : Type} (E : Tables → α → Prop) (h : Analyser) (G G' : Gaps) (p : Tables)
    (x : Analyse α) (Q : Tables → α → Prop) : Prop :=
  h.Keeps Later → p.Sound G → ∀ (s t : Analysis) (a : α), s.toTables = p →
    x.run h s = some (a, t) → t.Clean →
      (p.Onward t.toTables ∧ t.toTables.Sound G' ∧ Q t.toTables a) ∨ E t.toTables a

/-- A rule that reports: without errors it leads from sound tables to sound tables and to `Q`. -/
abbrev Reports {α : Type} (h : Analyser) (G : Gaps) (p : Tables) (x : Analyse α)
    (Q : Tables → α → Prop) : Prop :=
  ReportsOr (fun _ _ => False) h G G p x Q

/-- A rule that reports, whatever it gives. -/
abbrev ReportsOnly {α : Type} (h : Analyser) (G : Gaps) (p : Tables) (x : Analyse α) : Prop :=
  Reports h G p x fun _ _ => True

/-- A rule that reports, or gives an expression with a type. -/
abbrev ReportsTyped (h : Analyser) (G : Gaps) (p : Tables) (x : Analyse ExprId) : Prop :=
  Reports h G p x fun q r => q.Typed r

open Analyse

variable {α β : Type} {E : Tables → β → Prop} {h : Analyser} {G G1 G2 : Gaps} {p : Tables}

namespace ReportsOr

variable {R : Tables → β → Prop} {f : α → Analyse β} {x : Analyse β}

theorem pure {a : β} (ha : R p a) : ReportsOr E h G G p (Pure.pure a) R := by
  intro _ hp s t b hs hrun ht
  cases hrun
  subst hs
  exact .inl ⟨.refl, hp, ha⟩

theorem bind {x : Analyse α} {Q : Tables → α → Prop}
    (hx : ReportsOr (fun _ _ => False) h G G1 p x Q)
    (hf : ∀ a q, p.Onward q → q.Sound G1 → Q q a → ReportsOr E h G1 G2 q (f a) R) :
    ReportsOr E h G G2 p (x >>= f) R := by
  intro hh hp s t b hs hrun ht
  obtain ⟨a, u, hxrun, hfrun⟩ := run_bind_inv hrun
  have hu : u.Clean := (run_stable stable_later hh _ hfrun).clean ht
  rcases hx hh hp s u a hs hxrun hu with ⟨hpu, hsound, ha⟩ | hfalse
  · rcases hf a u.toTables hpu hsound ha hh hsound u t b rfl hfrun ht with ⟨hut, hb⟩ | hE
    · exact .inl ⟨hpu.trans hut, hb⟩
    · exact .inr hE
  · exact hfalse.elim

theorem given {a : α} (hf : ReportsOr E h G G2 p (f a) R) :
    ReportsOr E h G G2 p (Pure.pure a >>= f) R :=
  hf

theorem intro (hx : p.Sound G → ReportsOr E h G G2 p x R) : ReportsOr E h G G2 p x R :=
  fun hh hp => hx hp hh hp

theorem imp {Q : Tables → β → Prop} (hx : ReportsOr E h G G2 p x Q)
    (himp : ∀ q a, p.Onward q → q.Sound G2 → Q q a → R q a) : ReportsOr E h G G2 p x R := by
  intro hh hp s t a hs hrun ht
  rcases hx hh hp s t a hs hrun ht with ⟨hpt, hsound, ha⟩ | hE
  · exact .inl ⟨hpt, hsound, himp _ a hpt hsound ha⟩
  · exact .inr hE

theorem of (hx : ReportsOr (fun _ _ => False) h G G2 p x R) : ReportsOr E h G G2 p x R := by
  intro hh hp s t a hs hrun ht
  exact .inl ((hx hh hp s t a hs hrun ht).resolve_right id)

theorem gaps {G' : Gaps} (hx : ReportsOr E h G1 G2 p x R) (hbefore : p.Sound G → p.Sound G1)
    (hafter : ∀ q a, p.Onward q → R q a → q.Sound G2 → q.Sound G') : ReportsOr E h G G' p x R := by
  intro hh hp s t a hs hrun ht
  rcases hx hh (hbefore hp) s t a hs hrun ht with ⟨hpt, hsound, ha⟩ | hE
  · exact .inl ⟨hpt, hafter _ a hpt ha hsound, ha⟩
  · exact .inr hE

theorem before (G1 : Gaps) (hbefore : p.Sound G → p.Sound G1) (hx : ReportsOr E h G1 G2 p x R) :
    ReportsOr E h G G2 p x R :=
  .gaps hx hbefore fun _ _ _ _ => id

/-! ### Questions -/

section

variable {g : Tables → α} {f : Unit → Analyse β} {span : Span} {problem : Problem}

theorem ask {f : α → Analyse β} (hf : ReportsOr E h G G2 p (f (g p)) R) :
    ReportsOr E h G G2 p (Analyse.ask g >>= f) R := by
  intro hh hp s t b hs hrun ht
  subst hs
  exact hf hh hp s t b rfl hrun ht

theorem asked {E R : Tables → α → Prop} (hg : R p (g p)) : ReportsOr E h G G p (Analyse.ask g) R :=
  .ask (f := Pure.pure) (.pure hg)

theorem tables {f : Tables → Analyse β} (hf : ReportsOr E h G G2 p (f p) R) :
    ReportsOr E h G G2 p (tables >>= f) R := by
  intro hh hp s t b hs hrun ht
  subst hs
  exact hf hh hp s t b rfl hrun ht

theorem context {f : Context → Analyse β}
    (hf : ∀ c : Context, c.toTables = p → ReportsOr E h G G2 p (f c) R) :
    ReportsOr E h G G2 p (context >>= f) R := by
  intro hh hp s t b hs hrun ht
  exact hf s.toContext hs hh hp s t b hs hrun ht

theorem unlessError {e : ExprId} {y rest : Analyse β} (he : p.Typed e)
    (hrest : ReportsOr E h G G2 p rest R) :
    ReportsOr E h G G2 p (isError e >>= fun b => if b = true then y else rest) R := by
  refine .intro fun hp => .ask ?_
  rw [hp.isError_eq he]
  exact hrest

/-! ### Reports -/

/-- After an error there is nothing to show. -/
theorem reported {d : Diagnostic} (hd : d.isError = true) :
    ReportsOr E h G G2 p (report d >>= f) R := by
  intro hh hp s t b hs hrun ht
  have hlater : Later (s.report d) t := run_stable stable_later hh (f ()) hrun
  exact absurd ht (not_clean_of_error hd hlater)

theorem error : ReportsOr E h G G2 p (Analyse.error span problem >>= f) R := reported rfl

theorem error_last {R : Tables → Unit → Prop} {E : Tables → Unit → Prop} :
    ReportsOr E h G G2 p (Analyse.error span problem) R := by
  rw [← bind_pure (Analyse.error span problem)]
  exact error

end

theorem fail {R E : Tables → ExprId → Prop} {span : Span} {problem : Problem} :
    ReportsOr E h G G2 p (fail span problem) R :=
  error

end ReportsOr

/-! ## Gaps -/

namespace Tables

/-- A compound assignment with an operand of type `void`. -/
def hasVoidOperand (p : Tables) (e : ExprId) : Bool :=
  match p.exprs.kind e with
  | .assign (.compound _) lhs rhs _ =>
    p.types.isVoid (p.typeOf lhs) || p.types.isVoid (p.typeOf rhs)
  | _ => false

def isVariableName (p : Tables) (e : ExprId) : Bool :=
  match p.exprs.kind e with
  | .symbolRef s | .member _ s => (p.symbols.var? s).isSome
  | _ => false

/-- The answer to an expression is an error expression that no rule reports. -/
def gap (p : Tables) (e answer : ExprId) : Bool :=
  p.isError answer && (p.hasVoidOperand e || p.isVariableName answer)

end Tables

/-- A rule for an expression that reports, up to gaps. -/
abbrev Answers (h : Analyser) (G : Gaps) (p : Tables) (e : ExprId) (x : Analyse ExprId) : Prop :=
  ReportsOr (fun q r => q.gap e r = true) h G G p x fun q r => q.Typed r

/-- The analyser without answers in gaps. -/
def guarded : Nat → Analyser
  | 0 => ⟨fun _ _ => none⟩
  | depth + 1 => ⟨fun
    | .expr e sc => fun s =>
      ((expression e sc).run (guarded depth) s).filter fun r => !r.2.gap e r.1
    | .stmt s sc => (statement s sc).run (guarded depth)
    | .signature s => Pass.signature (guarded depth) s
    | .body s => Pass.body (guarded depth) s
    | .arrayOp e => Pass.arrayOp (guarded depth) e⟩

/-! ## Answers of two analysers -/

/-- All answers of one analyser are answers of another. -/
def Analyser.Below (h h' : Analyser) : Prop :=
  ∀ {β : Type} (r : Request β) {s : Analysis} {x : β × Analysis},
    h.answer r s = some x → h'.answer r s = some x

section

variable {h' : Analyser} (hle : h.Below h')
include hle

theorem run_below {α : Type} (x : Analyse α) {s : Analysis} {r : α × Analysis}
    (hx : x.run h s = some r) : x.run h' s = some r := by
  induction x generalizing s with
  | done b => exact hx
  | act x next ih => exact ih _ hx
  | log d next ih => exact ih hx
  | request q next ih =>
    simp only [run] at hx ⊢
    split at hx
    · rw [hle q ‹_›]
      exact ih _ hx
    · cases hx
  | muted x next ihx ih =>
    simp only [run] at hx ⊢
    split at hx
    · rw [ihx ‹_›]
      exact ih _ hx
    · cases hx
  | within n x next ihx ih =>
    simp only [run] at hx ⊢
    split at hx
    · rw [ihx ‹_›]
      exact ih _ hx
    · cases hx
  | endless => cases hx

end

theorem below_congruence :
    Pass.Congruence fun α (x x' : Pass α) => ∀ s r, x s = some r → x' s = some r where
  pure _ _ _ hr := hr
  bind hx hf s r hr := by
    obtain ⟨⟨a, t⟩, ha, hr⟩ := bind_eq_some_iff.mp hr
    exact bind_eq_some_iff.mpr ⟨(a, t), hx s _ ha, hf a t r hr⟩
  get hf _ s := hf s s
  modify _ _ _ _ hr := hr

theorem guarded_below (depth : Nat) : (guarded depth).Below (analyser depth) := by
  induction depth with
  | zero =>
    intro β r s x hrun
    cases hrun
  | succ depth ih =>
    intro β r s x hrun
    have hruns {α : Type} (y : Analyse α) (s : Analysis) (r : α × Analysis) :
        y.run (guarded depth) s = some r → y.run (analyser depth) s = some r := run_below ih y
    cases r with
    | expr e sc =>
      have hrun : ((expression e sc).run (guarded depth) s).filter _ = some x := hrun
      rw [filter_eq_some_iff] at hrun
      exact run_below ih _ hrun.1
    | stmt b sc => exact run_below ih _ hrun
    | signature symbol => exact below_congruence.signature hruns symbol s x hrun
    | body symbol => exact below_congruence.body hruns symbol s x hrun
    | arrayOp e => exact below_congruence.arrayOp hruns e s x hrun

theorem guarded_keeps {R : Analysis → Analysis → Prop} (hR : Kept R) (depth : Nat) :
    (guarded depth).Keeps R := by
  intro β r s t b hrun
  exact analyser_keeps hR depth r (guarded_below depth r hrun)

end DCompiler
