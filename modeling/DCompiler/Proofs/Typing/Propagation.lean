import DCompiler.Proofs.Analysis.Attempts
import DCompiler.Proofs.Typing.Analyser

/-!
# An error is reported once

An undefined name is reported, and an error expression takes its place. The nodes above it must not
report it again: each of them looks for error expressions among its operands and gives the first one
back as it is. This works only if an error expression is still one when a node looks at it, after
the operands behind it were processed. Analysis replaces no error expression (`Leads`), so it is.
-/

namespace DCompiler

open Analyse List

/-! ## Operands -/

/-- What a node does to an operand. -/
inductive Role where
  | analysed
  | value
  | condition
  /-- What is assigned to: not a type, a module or a template. -/
  | target
  deriving Repr, DecidableEq, Inhabited

def Role.process (role : Role) (e : ExprId) (sc : ScopeId) : Analyse ExprId :=
  match role with
  | analysed => analyseExpr e sc
  | value => Analyse.value e sc
  | condition => Analyse.condition e sc
  | target => do checkValue (← analyseExpr e sc)

namespace Expr

/-- The operands of a node in the order in which they are processed. Names, literals, calls, indices
and slices are left out. -/
def operands : Expr → List (Role × ExprId)
  | .unary op operand => [(if op = .addressOf then .analysed else .value, operand)]
  | .binary _ lhs rhs => [(.value, lhs), (.value, rhs)]
  | .comma lhs rhs => [(.analysed, lhs), (.value, rhs)]
  | .cond test yes no => [(.condition, test), (.value, yes), (.value, no)]
  | .cast operand _ => [(.value, operand)]
  | .array elems | .tuple elems => elems.map (.value, ·)
  | .dot base _ | .member base _ => [(.analysed, base)]
  | .assign _ lhs rhs _ => [(.target, lhs), (.value, rhs)]
  | _ => []

/-- Whether the operands behind an error are left alone. -/
def stops : Expr → Bool
  | .array _ | .tuple _ | .assign _ _ _ _ => true
  | _ => false

end Expr

def Tables.isFunctionName (p : Tables) (e : ExprId) : Bool :=
  match p.exprs.kind e with
  | .symbolRef s | .member _ s => p.isFunction s
  | _ => false

/-- If the node is an assignment, then not one to an index or a slice, and not one of a comma
expression. -/
def Expr.IsSimple (k : Expr) (t : ExprTable) : Prop :=
  ∀ op lhs rhs fill, k = .assign op lhs rhs fill →
    (∀ base place var, t.kind lhs ≠ .index base place var) ∧
    (∀ base lower upper var, t.kind lhs ≠ .slice base lower upper var) ∧
    ∀ first last, t.kind rhs ≠ .comma first last

/-- Operands that are processed one after the other. No error is reported, and none of the results
is an error expression. -/
inductive Processed (h : Analyser) (sc : ScopeId) :
    Analysis → List (Role × ExprId) → List ExprId → Analysis → Prop
  | nil {s : Analysis} : Processed h sc s [] [] s
  | cons {s t u : Analysis} {role : Role} {e v : ExprId} {rest : List (Role × ExprId)}
      {vs : List ExprId} (hrun : (role.process e sc).run h s = some (v, t))
      (herrors : t.log.errors = s.log.errors) (hv : t.isError v = false)
      (hrest : Processed h sc t rest vs u) : Processed h sc s ((role, e) :: rest) (v :: vs) u

/-- An expression with one undefined name, as analysis finds it: what an operand is, and whether it
is processed without an error, is a question about the state in which its turn comes. -/
inductive Flawed : Nat → Analysis → ExprId → ScopeId → Prop
  | name {depth : Nat} {s : Analysis} {e : ExprId} {sc : ScopeId} {name : String}
      (hkind : s.exprs.kind e = .identifier name) (htype : s.exprs.type? e = none)
      (hname : s.scopes.search sc name = none) : Flawed (depth + 1) s e sc
  /-- The operand with the name in it stands between others. Those before it are still no error
  expressions when the node looks at them. -/
  | operand {depth : Nat} {s t : Analysis} {e c : ExprId} {sc : ScopeId} {k : Expr} {role : Role}
      {before after : List (Role × ExprId)} {vs : List ExprId}
      (hkind : s.exprs.kind e = k) (htype : s.exprs.type? e = none) (hsimple : k.IsSimple s.exprs)
      (hoperands : k.operands = before ++ (role, c) :: after)
      (hbefore : Processed (analyser depth) sc s before vs t)
      (hvalue : ∀ lhs rhs fill, k = .assign .plain lhs rhs fill →
        ∀ v ∈ vs, t.isFunctionName v = false)
      (hflawed : Flawed depth t c sc)
      (hafter : ∀ r u, (analyser depth).answer (.expr c sc) t = some (r, u) →
        ∃ ws w, Processed (analyser depth) sc u (if k.stops then [] else after) ws w ∧
          ∀ v ∈ vs, w.isError v = false) : Flawed (depth + 1) s e sc
  /-- An assignment to a function is a call, and the value is its argument. Calls nest below the
  bound. -/
  | property {depth : Nat} {s t : Analysis} {e lhs rhs l : ExprId} {sc : ScopeId} {fill : Bool}
      (hkind : s.exprs.kind e = .assign .plain lhs rhs fill) (htype : s.exprs.type? e = none)
      (hsimple : (Expr.assign .plain lhs rhs fill).IsSimple s.exprs)
      (hlhs : Processed (analyser (depth + 1)) sc s [(.analysed, lhs)] [l] t)
      (hname : t.isFunctionName l = true) (hdepth : t.callDepth < t.options.maxCallDepth)
      (hflawed : Flawed depth
        ((t.after (.addExpr ⟨.call l [rhs], t.exprs.span e, none⟩)).enter .call) rhs sc) :
      Flawed (depth + 2) s e sc

/-! ## Runs -/

section

variable {α β : Type} {h : Analyser} {s t u : Analysis}
variable {ops : List (Role × ExprId)} {vs : List ExprId} {c e r : ExprId} {sc : ScopeId}
  {depth : Nat} {xs ws : List ExprId} {rest : Analyse ExprId} {k : Expr} {v rhs : ExprId}

theorem ExprTable.Failed.isError {p : Tables} (he : p.exprs.Failed e) : p.isError e = true := by
  simp [Tables.isError, ExprTable.isError, he.1]

/-- A node that looks at an operand and then at others gives back the first error among them. -/
theorem run_check {x : ExprId} (hfirst : (x :: xs).find? (s.isError ·) = some r)
    (hrest : xs.find? (s.isError ·) = some r → rest.run h s = some (r, s)) :
    (isError x >>= fun b => if b = true then pure x else rest).run h s = some (r, s) := by
  show (if s.isError x = true then pure x else rest).run h s = some (r, s)
  by_cases hx : s.isError x = true
  · rw [find?_cons_of_pos hx] at hfirst
    cases hfirst
    rw [if_pos hx]
    rfl
  · rw [find?_cons_of_neg hx] at hfirst
    rw [if_neg hx]
    exact hrest hfirst

theorem run_checkLast (hr : s.isError r = true) :
    (isError r >>= fun b => if b = true then pure r else rest).run h s = some (r, s) := by
  have hfirst : [r].find? (s.isError ·) = some r := find?_cons_of_pos hr
  apply run_check hfirst
  intro hnone
  cases hnone

theorem run_unchecked {y rest : Analyse β} (he : s.isError e = false) :
    (isError e >>= fun b => if b = true then y else rest).run h s = rest.run h s := by
  show (if s.isError e = true then y else rest).run h s = rest.run h s
  rw [if_neg (Bool.eq_false_iff.mp he)]

theorem errorExpr_run (place : Span) :
    ∃ r t, (errorExpr place).run h s = some (r, t) ∧ t.exprs.Failed r ∧ t.log = s.log := by
  refine ⟨_, _, rfl, ?_, rfl⟩
  have hnode := s.exprs.node_addNode_self ⟨.error, place, some .error⟩
  exact ⟨congrArg ExprNode.kind hnode, congrArg ExprNode.type hnode⟩

theorem errors_report {d : Diagnostic} (hd : d.isError = true) (hlog : s.log.gagDepth = 0) :
    (s.report d).log.errors = s.log.errors + 1 := by
  show (s.log.report d).errors = s.log.errors + 1
  simp [DiagnosticLog.report, DiagnosticLog.isGagged, hlog, hd]

theorem identifier_fails {name : String} (hname : s.scopes.search sc name = none)
    (hlog : s.log.gagDepth = 0) :
    ∃ r t, (identifier e name sc).run h s = some (r, t) ∧ t.exprs.Failed r ∧
      t.log.errors = s.log.errors + 1 := by
  have hlookup : (identifier e name sc).run h s = ((do
      let place ← span e
      undefinedIdentifier name sc place
      errorExpr place) : Analyse ExprId).run h s := by
    unfold identifier
    rw [run_next (x := tables) rfl, hname]
  obtain ⟨d, hd, hreport⟩ : ∃ d : Diagnostic, d.isError = true ∧
      (undefinedIdentifier name sc (s.exprs.span e)).run h s = some ((), s.report d) :=
    ⟨_, rfl, rfl⟩
  obtain ⟨r, t, hrun, hr, ht⟩ := errorExpr_run (h := h) (s := s.report d) (s.exprs.span e)
  refine ⟨r, t, ?_, hr, ?_⟩
  · rw [hlookup, run_next (x := span e) rfl, run_next hreport, hrun]
  · rw [ht, errors_report hd hlog]

/-! ## Operands of a node -/

/-- Operands that are processed one after the other, whatever comes of it. -/
inductive Ran (h : Analyser) (sc : ScopeId) :
    Analysis → List (Role × ExprId) → List ExprId → Analysis → Prop
  | nil {s : Analysis} : Ran h sc s [] [] s
  | cons {s t u : Analysis} {role : Role} {e v : ExprId} {rest : List (Role × ExprId)}
      {vs : List ExprId} (hrun : (role.process e sc).run h s = some (v, t))
      (hrest : Ran h sc t rest vs u) : Ran h sc s ((role, e) :: rest) (v :: vs) u

theorem Processed.ran (hp : Processed h sc s ops vs t) : Ran h sc s ops vs t := by
  induction hp with
  | nil => exact .nil
  | cons hrun _ _ _ ih => exact .cons hrun ih

theorem Ran.append {rest : List (Role × ExprId)} (hops : Ran h sc s ops vs t)
    (hrest : Ran h sc t rest ws u) : Ran h sc s (ops ++ rest) (vs ++ ws) u := by
  induction hops with
  | nil => exact hrest
  | cons hrun _ ih => exact .cons hrun (ih hrest)

theorem analyseExpr_run (hanswer : h.answer (.expr c sc) s = some (r, t)) :
    (analyseExpr c sc).run h s = some (r, t) := by
  simp only [analyseExpr, run, hanswer]

theorem toValue_failed (hr : s.exprs.Failed r) : (toValue r sc).run h s = some (r, s) := by
  unfold toValue
  rw [run_next (x := tables) rfl, if_pos hr.isError]
  rfl

/-- An error expression stays one, whatever a node wants it for. -/
theorem Role.process_failed (role : Role) (hanswer : h.answer (.expr c sc) s = some (r, t))
    (hr : t.exprs.Failed r) : (role.process c sc).run h s = some (r, t) := by
  have hrun : (analyseExpr c sc).run h s = some (r, t) := analyseExpr_run hanswer
  have hvalue : (Analyse.value c sc).run h s = some (r, t) := by
    rw [Analyse.value, run_next hrun, toValue_failed hr]
  cases role with
  | analysed => exact hrun
  | value => exact hvalue
  | condition =>
    show (Analyse.condition c sc).run h s = some (r, t)
    rw [Analyse.condition, run_next hvalue]
    exact run_checkLast hr.isError
  | target =>
    show (analyseExpr c sc >>= checkValue).run h s = some (r, t)
    have hkind : (kind r).run h t = some (.error, t) := congrArg (fun k => some (k, t)) hr.1
    unfold checkValue
    rw [run_next hrun, run_next hkind]
    rfl

theorem exprKind_collects (hstops : k.stops = false) (hran : Ran h sc s k.operands xs t)
    (hfirst : xs.find? (t.isError ·) = some r) : (exprKind e k sc).run h s = some (r, t) := by
  have hlast {rest : Analyse ExprId} : [].find? (t.isError ·) = some r →
      rest.run h t = some (r, t) := nofun
  cases k with
  | unary op operand =>
    obtain _ | ⟨hrun, hnil⟩ := hran
    cases hnil
    show (unary e op operand sc).run h s = some (r, t)
    unfold unary
    by_cases hop : op = .addressOf
    · rw [if_pos hop] at hrun
      rw [run_next (x := analyseExpr operand sc) hrun, if_pos hop]
      exact run_check hfirst hlast
    rw [if_neg hop] at hrun
    obtain ⟨o, m, hanalyse, hvalue⟩ := run_bind_inv hrun
    rw [run_next hanalyse, if_neg hop, run_next hvalue]
    exact run_check hfirst hlast
  | binary op lhs rhs =>
    obtain _ | ⟨hl, _ | ⟨hr, hnil⟩⟩ := hran
    cases hnil
    show (binary e op lhs rhs sc).run h s = some (r, t)
    unfold binary
    rw [run_next (x := value lhs sc) hl, run_next (x := value rhs sc) hr]
    exact run_check hfirst fun hfirst => run_check hfirst hlast
  | comma lhs rhs =>
    obtain _ | ⟨hl, _ | ⟨hr, hnil⟩⟩ := hran
    cases hnil
    show (comma e lhs rhs sc).run h s = some (r, t)
    unfold comma
    rw [run_next (x := analyseExpr lhs sc) hl, run_next (x := value rhs sc) hr]
    exact run_check hfirst fun hfirst => run_check hfirst hlast
  | cond test yes no =>
    obtain _ | ⟨htest, _ | ⟨hyes, _ | ⟨hno, hnil⟩⟩⟩ := hran
    cases hnil
    show (Analyse.cond e test yes no sc).run h s = some (r, t)
    unfold Analyse.cond
    rw [run_next (x := condition test sc) htest, run_next (x := value yes sc) hyes,
      run_next (x := value no sc) hno]
    exact run_check hfirst fun hfirst => run_check hfirst fun hfirst => run_check hfirst hlast
  | cast operand target =>
    obtain _ | ⟨hrun, hnil⟩ := hran
    cases hnil
    show (castExpr e operand target sc).run h s = some (r, t)
    unfold castExpr
    rw [run_next (x := span e) rfl, run_next (x := value operand sc) hrun]
    exact run_check hfirst hlast
  | dot base name =>
    obtain _ | ⟨hrun, hnil⟩ := hran
    cases hnil
    show (dot e base name sc).run h s = some (r, t)
    unfold dot
    rw [run_next (x := analyseExpr base sc) hrun]
    exact run_check hfirst hlast
  | member base symbol =>
    obtain _ | ⟨hrun, hnil⟩ := hran
    cases hnil
    show (knownMember e base symbol sc).run h s = some (r, t)
    unfold knownMember
    rw [run_next (x := analyseExpr base sc) hrun]
    exact run_check hfirst hlast
  | array elems | tuple elems | assign op lhs rhs fill => cases hstops
  | _ =>
    cases hran
    cases hfirst

/-! ## Nodes that stop at an error -/

theorem values_stops {before after : List ExprId}
    (hbefore : Processed h sc s (before.map (Role.value, ·)) vs t)
    (hrun : (value c sc).run h t = some (r, u)) (hr : u.isError r = true) :
    (values sc (before ++ c :: after)).run h s = some (.error r, u) := by
  induction before generalizing s vs with
  | nil =>
    cases hbefore
    rw [nil_append, values, run_next hrun]
    show (if u.isError r = true then pure (Except.error r) else _ :
      Analyse (Except ExprId (List ExprId))).run h u = _
    rw [if_pos hr]
    rfl
  | cons b before ih =>
    obtain _ | ⟨hb, -, hv, hrest⟩ := hbefore
    rw [cons_append, values, run_next (x := value b sc) hb, run_unchecked hv, run_next (ih hrest)]
    rfl

theorem fail_errors {place : Span} {problem : Problem}
    (hrun : (fail place problem).run h s = some (r, t)) (hlog : s.log.gagDepth = 0) :
    t.log.errors = s.log.errors + 1 := by
  cases hrun
  exact errors_report rfl hlog

theorem checkValue_silent (hrun : (checkValue e).run h s = some (v, t))
    (herrors : t.log.errors ≤ s.log.errors) (hlog : s.log.gagDepth = 0) : v = e ∧ t = s := by
  have hrefused (hfail : (do fail (← span e) (.noValue (← text e)) : Analyse ExprId).run h s =
      some (v, t)) : v = e ∧ t = s := by
    have hmore : t.log.errors = s.log.errors + 1 := by
      exact fail_errors hfail hlog
    omega
  unfold checkValue at hrun
  rw [run_next (x := kind e) rfl] at hrun
  split at hrun
  · exact hrefused hrun
  · exact hrefused hrun
  · exact hrefused hrun
  · cases hrun
    exact ⟨rfl, rfl⟩

/-- A place that is assigned to without an error is what its analysis gives. -/
theorem Role.target_run (hh : h.IsOblivious) (hrun : (target.process e sc).run h s = some (v, t))
    (herrors : t.log.errors = s.log.errors) (hlog : s.log.gagDepth = 0) :
    (analyseExpr e sc).run h s = some (v, t) ∧ (checkValue v).run h t = some (v, t) := by
  obtain ⟨r, m, hanalyse, hcheck⟩ := run_bind_inv hrun
  obtain ⟨hm, hle⟩ := log_run hh hanalyse hlog
  have hsame := hcheck
  obtain ⟨rfl, rfl⟩ := checkValue_silent hcheck (herrors ▸ hle) hm
  exact ⟨hanalyse, hsame⟩

theorem indexedAssign_none {lhs : ExprId}
    (hindex : ∀ base place var, s.exprs.kind lhs ≠ .index base place var)
    (hslice : ∀ base lower upper var, s.exprs.kind lhs ≠ .slice base lower upper var) :
    (indexedAssign e lhs rhs sc).run h s = some (none, s) := by
  unfold indexedAssign
  rw [run_next (x := tables) rfl]
  cases hkind : s.exprs.kind lhs with
  | index base place var => exact absurd hkind (hindex _ _ _)
  | slice base lower upper var => exact absurd hkind (hslice _ _ _ _)
  | _ => rfl

theorem propertyAssign_none {lhs : ExprId} (hname : s.isFunctionName lhs = false) :
    (propertyAssign e lhs rhs sc).run h s = some (none, s) := by
  unfold propertyAssign
  rw [run_next (x := tables) rfl]
  unfold Tables.isFunctionName at hname
  cases hkind : s.exprs.kind lhs with
  | symbolRef symbol | member base symbol =>
    rw [hkind] at hname
    dsimp only at hname ⊢
    rw [if_neg (Bool.eq_false_iff.mp hname)]
    rfl
  | _ => rfl

section Assignments

variable {e lhs rhs l r : ExprId} {op : AssignOp} {fill : Bool} {sc : ScopeId}
  (hsimple : (Expr.assign op lhs rhs fill).IsSimple s.exprs)
include hsimple

theorem assign_eq_simpleAssign :
    (assign e op lhs rhs sc).run h s = (simpleAssign e op lhs rhs sc).run h s := by
  obtain ⟨-, -, hcomma⟩ := hsimple op lhs rhs fill rfl
  unfold assign
  rw [run_next (x := tables) rfl]
  cases hkind : s.exprs.kind rhs with
  | comma first last => exact absurd hkind (hcomma first last)
  | _ => rfl

theorem indexedAssign_skipped (rest : Option ExprId → Analyse ExprId) :
    (if op = .plain then indexedAssign e lhs rhs sc >>= rest else pure none >>= rest).run h s =
      (rest none).run h s := by
  obtain ⟨hindex, hslice, -⟩ := hsimple op lhs rhs fill rfl
  split
  · rw [run_next (indexedAssign_none hindex hslice)]
  · rfl

variable (hlhs : (analyseExpr lhs sc).run h s = some (l, t))
include hlhs

theorem assign_left (hl : t.isError l = true) : (assign e op lhs rhs sc).run h s = some (l, t) := by
  rw [assign_eq_simpleAssign hsimple]
  unfold simpleAssign
  extract_lets rest
  rw [indexedAssign_skipped hsimple rest, run_next hlhs]
  exact run_checkLast hl

theorem assign_right (hl : t.isError l = false)
    (hvalue : op = .plain → t.isFunctionName l = false)
    (hcheck : (checkValue l).run h t = some (l, t)) (hrhs : (value rhs sc).run h t = some (r, u))
    (hl' : u.isError l = false) (hr : u.isError r = true) :
    (assign e op lhs rhs sc).run h s = some (r, u) := by
  rw [assign_eq_simpleAssign hsimple]
  unfold simpleAssign
  extract_lets rest
  rw [indexedAssign_skipped hsimple rest, run_next hlhs, run_unchecked hl]
  extract_lets finish
  have hfinish : (finish none).run h t = some (r, u) := by
    rw [run_next hcheck, run_next hrhs, run_unchecked hl']
    exact run_checkLast hr
  split
  · rename_i hop
    rw [run_next (propertyAssign_none (hvalue hop))]
    exact hfinish
  · exact hfinish

theorem assign_property (hop : op = .plain) (hl : t.isError l = false)
    (hcall : (propertyAssign e l rhs sc).run h t = some (some r, u)) :
    (assign e op lhs rhs sc).run h s = some (r, u) := by
  rw [assign_eq_simpleAssign hsimple]
  unfold simpleAssign
  extract_lets rest
  rw [indexedAssign_skipped hsimple rest, run_next hlhs, run_unchecked hl]
  rw [if_pos hop, run_next hcall]
  rfl

end Assignments

theorem exprKind_stops (hh : h.IsOblivious) {role : Role} {before after : List (Role × ExprId)}
    (hstops : k.stops = true) (hsimple : k.IsSimple s.exprs)
    (hoperands : k.operands = before ++ (role, c) :: after) (hlog : s.log.gagDepth = 0)
    (hbefore : Processed h sc s before vs t)
    (hvalue : ∀ lhs rhs fill, k = .assign .plain lhs rhs fill →
      ∀ v ∈ vs, t.isFunctionName v = false) (hanswer : h.answer (.expr c sc) t = some (r, u))
    (hr : u.exprs.Failed r) (hvs : ∀ v ∈ vs, u.isError v = false) :
    (exprKind e k sc).run h s = some (r, u) := by
  have hvalues {elems : List ExprId} (helems : elems.map (Role.value, ·) =
      before ++ (role, c) :: after) : (values sc elems).run h s = some (.error r, u) := by
    obtain ⟨before', rest, rfl, rfl, hrest⟩ := map_eq_append_iff.mp helems
    obtain ⟨c', after', rfl, hc, rfl⟩ := map_eq_cons_iff.mp hrest
    cases hc
    have hrun := Role.process_failed .value hanswer hr
    exact values_stops hbefore hrun hr.isError
  cases k with
  | array elems =>
    show (arrayLiteral e elems sc).run h s = some (r, u)
    unfold arrayLiteral
    rw [run_next (hvalues hoperands)]
    rfl
  | tuple elems =>
    show (tupleExpr e elems sc).run h s = some (r, u)
    unfold tupleExpr
    rw [run_next (hvalues hoperands)]
    rfl
  | assign op lhs rhs fill =>
    cases before with
    | nil =>
      cases hbefore
      cases hoperands
      exact assign_left hsimple (analyseExpr_run hanswer) hr.isError
    | cons first before =>
      obtain ⟨rfl, hrest⟩ := cons_eq_cons.mp hoperands
      cases before with
      | nil =>
        cases hrest
        obtain _ | ⟨hrun, herrors, hl, hnil⟩ := hbefore
        cases hnil
        obtain ⟨hlhs, hcheck⟩ := Role.target_run hh hrun herrors hlog
        have hname (hop : op = .plain) := hvalue lhs c fill (by rw [hop]) _ mem_cons_self
        have hrhs := Role.process_failed .value hanswer hr
        exact assign_right hsimple hlhs hl hname hcheck hrhs (hvs _ mem_cons_self) hr.isError
      | cons second before => simp at hrest
  | _ => cases hstops

/-! ## Calls with an error for an argument -/

theorem isError_addExpr (he : s.exprs.Has e) (n : ExprNode) :
    (s.after (.addExpr n)).isError e = s.isError e := by
  have hnode : (s.exprs.addNode n).2.node e = s.exprs.node e :=
    (ExprTable.Extends.addNode n).node e he
  show ((s.exprs.addNode n).2.isError e || s.types.isError
    (((s.exprs.addNode n).2.type? e).getD .error)) = s.isError e
  simp only [Tables.isError, Tables.typeOf, ExprTable.isError, ExprTable.kind, ExprTable.type?,
    hnode]

theorem arguments_fails (hanswer : h.answer (.expr c sc) s = some (r, t)) (hr : t.exprs.Failed r) :
    (arguments [c] sc).run h s = some (none, t) := by
  have hargument : (argument sc c).run h s = some (none, t) := by
    have hkind : (kind r).run h t = some (.error, t) := congrArg (fun k => some (k, t)) hr.1
    unfold argument
    rw [run_next (analyseExpr_run hanswer), run_next hkind]
    rw [run_next (toValue_failed hr)]
    show some (if t.isError r = true then none else some r, t) = some (none, t)
    rw [if_pos hr.isError]
  unfold arguments
  rw [mapM_cons, mapM_nil, bind_assoc, run_next hargument]
  rfl

theorem call_fails {callee : ExprId} (hdepth : s.callDepth < s.options.maxCallDepth)
    (htyped : s.exprs.IsTyped callee) (hcallee : s.isError callee = false)
    (hanswer : (analyser (depth + 1)).answer (.expr c sc) (s.enter .call) = some (r, t))
    (hr : t.exprs.Failed r) :
    ∃ r' t', (call e callee [c] sc).run (analyser (depth + 1)) s = some (r', t') ∧
      t'.exprs.Failed r' ∧ t'.log = t.log := by
  obtain ⟨type, htype⟩ := Option.isSome_iff_exists.mp htyped
  obtain ⟨r', u, hrun, hr', hlog⟩ :=
    errorExpr_run (h := analyser (depth + 1)) (s := t) (t.exprs.span e)
  have hcall : (plainCall e callee [c] sc).run (analyser (depth + 1)) (s.enter .call) =
      some (r', u) := by
    have hsame : (analyseExpr callee sc).run (analyser (depth + 1)) (s.enter .call) =
        some (callee, s.enter .call) :=
      analyseExpr_run (answer_of_typed (s := s.enter .call) htyped depth sc)
    unfold plainCall
    rw [run_next hsame, run_unchecked (s := s.enter .call) hcallee,
      run_next (arguments_fails hanswer hr)]
    exact hrun
  refine ⟨r', u.leave .call, ?_, hr', hlog⟩
  have hbody : (do
      let c' ← context
      if c'.options.maxCallDepth < c'.callDepth then
        fail (← span e) (.recursiveEvaluation (← text e))
      else boundedCall e callee [c] sc : Analyse ExprId).run (analyser (depth + 1))
        (s.enter .call) = some (r', u) := by
    rw [run_next (x := context) rfl, if_neg]
    · unfold boundedCall
      have htype : (s.enter .call).exprs.type? callee = some type := htype
      rw [run_next (x := tables) rfl, htype]
      exact hcall
    · exact Nat.not_lt.mpr hdepth
  unfold call nested
  simp only [run]
  rw [hbody]

theorem propertyAssign_fails {l : ExprId} (hname : s.isFunctionName l = true)
    (hdepth : s.callDepth < s.options.maxCallDepth) (htyped : s.exprs.IsTyped l)
    (hl : s.isError l = false) (hanswer : (analyser (depth + 1)).answer (.expr rhs sc)
      ((s.after (.addExpr ⟨.call l [rhs], s.exprs.span e, none⟩)).enter .call) = some (r, t))
    (hr : t.exprs.Failed r) :
    ∃ r' t', (propertyAssign e l rhs sc).run (analyser (depth + 2)) s = some (some r', t') ∧
      t'.exprs.Failed r' ∧ t'.log = t.log := by
  let n : ExprNode := ⟨.call l [rhs], s.exprs.span e, none⟩
  let made := (s.exprs.addNode n).1
  have hmade : (s.exprs.addNode n).2.node made = n := s.exprs.node_addNode_self n
  obtain ⟨r', t', hcall, hr', hlog⟩ := call_fails (s := s.after (.addExpr n)) (e := made) hdepth
    ((ExprTable.Onward.of_extends (.addNode n)).typed htyped)
      ((isError_addExpr htyped.has n).trans hl) hanswer hr
  have hmadeRun : (analyseExpr made sc).run (analyser (depth + 2)) (s.after (.addExpr n)) =
      some (r', t') := by
    have hkind : (s.after (.addExpr n)).exprs.kind made = .call l [rhs] :=
      congrArg ExprNode.kind hmade
    apply analyseExpr_run
    rw [answer_of_kind hkind nofun (congrArg ExprNode.type hmade)]
    exact hcall
  have hadd : (addExpr (.call l [rhs]) (s.exprs.span e)).run (analyser (depth + 2)) s =
      some (made, s.after (.addExpr n)) := rfl
  have hsome : (do
      return some (← analyseExpr (← addExpr (.call l [rhs]) (s.exprs.span e)) sc) :
        Analyse (Option ExprId)).run (analyser (depth + 2)) s = some (some r', t') := by
    rw [run_next hadd, run_next hmadeRun]
    rfl
  refine ⟨r', t', ?_, hr', hlog⟩
  unfold propertyAssign
  rw [run_next (x := tables) rfl]
  unfold Tables.isFunctionName at hname
  cases hkind : s.exprs.kind l with
  | symbolRef symbol | member base symbol =>
    rw [hkind] at hname
    dsimp only at hname ⊢
    rw [if_pos hname]
    exact hsome
  | _ =>
    rw [hkind] at hname
    cases hname

/-! ## Flawed expressions -/

theorem Role.quiet (role : Role) (e : ExprId) (sc : ScopeId) : Quiet h (role.process e sc) := by
  cases role with
  | analysed => exact .request
  | value => exact value_quiet
  | condition => exact condition_quiet
  | target =>
    intro t
    exact .bind analyseExpr_gives fun _ _ _ he => (checkValue_gives he).imp fun _ _ _ _ => trivial

/-- What operands leave behind that are processed without an error. -/
theorem Processed.leads (hp : Processed (analyser depth) sc s ops vs t) (hs : s.exprs.Coherent)
    (hlog : s.log.gagDepth = 0) :
    s.exprs.Leads t.exprs ∧ t.log.errors = s.log.errors ∧ t.log.gagDepth = 0 := by
  induction hp with
  | nil => exact ⟨.refl, rfl, hlog⟩
  | cons hrun herrors _ _ ih =>
    have hfirst := (Role.quiet _ _ _).leads (analyser_typing depth) hrun hs
    obtain ⟨hrest, herrors', hlog'⟩ :=
      ih (hfirst.coherent hs) (log_run (analyser_oblivious depth) hrun hlog).1
    exact ⟨hfirst.trans hrest, herrors'.trans herrors, hlog'⟩

theorem Flawed.pos (hflawed : Flawed depth s e sc) : ∃ d, depth = d + 1 := by
  cases hflawed with
  | name | operand | property => exact ⟨_, rfl⟩

theorem find?_between {p : ExprId → Bool} (hvs : ∀ v ∈ vs, p v = false) (hr : p r = true) :
    (vs ++ r :: ws).find? p = some r := by
  have hnone : vs.find? p = none := by
    rw [find?_eq_none]
    intro v hv
    rw [hvs v hv]
    exact Bool.false_ne_true
  rw [find?_append, hnone, find?_cons_of_pos hr]
  rfl

/-- The induction follows the way to the name. -/
theorem Flawed.fails (hflawed : Flawed depth s e sc) (hs : s.exprs.Coherent)
    (hlog : s.log.gagDepth = 0) :
    ∃ r t, (analyser depth).answer (.expr e sc) s = some (r, t) ∧ t.exprs.Failed r ∧
      t.log.errors = s.log.errors + 1 := by
  induction hflawed with
  | name hkind htype hname =>
    rw [answer_of_kind hkind nofun htype]
    exact identifier_fails hname hlog
  | @operand depth s t e c sc k role before after vs hkind htype hsimple hoperands hbefore hvalue
      hflawed hafter ih =>
    have hk : k ≠ .error := by
      rintro rfl
      simp [Expr.operands] at hoperands
    obtain ⟨hst, herrors, ht⟩ := hbefore.leads hs hlog
    obtain ⟨r, u, hanswer, hr, hcount⟩ := ih (hst.coherent hs) ht
    obtain ⟨hu, -⟩ := log_run (analyser_oblivious depth) (analyseExpr_run hanswer) ht
    have hcoherent := (analyser_typing depth).coherent _ hanswer (hst.coherent hs)
    obtain ⟨ws, w, hrest, hvs⟩ := hafter r u hanswer
    obtain ⟨huw, hsilent, -⟩ := hrest.leads hcoherent hu
    have hw : w.exprs.Failed r := huw.failed hr
    refine ⟨r, w, ?_, hw, by omega⟩
    rw [answer_of_kind hkind hk htype]
    cases hstops : k.stops with
    | false =>
      rw [hstops, if_neg Bool.false_ne_true] at hrest
      have hran := hbefore.ran.append (.cons (role.process_failed hanswer hr) hrest.ran)
      rw [← hoperands] at hran
      exact exprKind_collects hstops hran (find?_between hvs hw.isError)
    | true =>
      rw [hstops, if_pos rfl] at hrest
      cases hrest
      exact exprKind_stops (analyser_oblivious depth) hstops hsimple hoperands hlog hbefore hvalue
        hanswer hr hvs
  | @property depth s t e lhs rhs l sc fill hkind htype hsimple hlhs hname hdepth hflawed ih =>
    obtain ⟨hst, herrors, ht⟩ := hlhs.leads hs hlog
    obtain ⟨d, rfl⟩ := hflawed.pos
    obtain _ | ⟨hrun, -, hl, hnil⟩ := hlhs
    cases hnil
    have htyped : t.exprs.IsTyped l := (analyseExpr_gives (analyser_typing _) hs s t l rfl hrun).2
    have hcoherent := (hst.coherent hs).addNode (ExprNode.Coherent.of_untyped
      (n := ⟨.call l [rhs], t.exprs.span e, none⟩) rfl)
    obtain ⟨r, u, hanswer, hr, hcount⟩ := ih hcoherent ht
    obtain ⟨r', w, hcall, hr', hw⟩ := propertyAssign_fails hname hdepth htyped hl hanswer hr
    refine ⟨r', w, ?_, hr', ?_⟩
    · rw [answer_of_kind hkind nofun htype]
      exact assign_property hsimple hrun rfl hl hcall
    · rw [hw, hcount]
      exact congrArg (· + 1) herrors

end

/-- In any state of a session in which errors are reported, the analysis of a flawed expression
comes to an end. It reports one error, however deep the name sits, and gives the error
expression. -/
theorem reported_once {depth : Nat} {s : Analysis} {e : ExprId} {sc : ScopeId} (hs : InSession s)
    (hlog : s.log.gagDepth = 0) (hflawed : Flawed depth s e sc) :
    ∃ r t, (analyser depth).answer (.expr e sc) s = some (r, t) ∧
      t.log.errors = s.log.errors + 1 ∧ t.exprs.kind r = .error ∧
      t.exprs.type? r = some .error := by
  obtain ⟨r, t, hanswer, hr, herrors⟩ := hflawed.fails hs.coherent hlog
  exact ⟨r, t, hanswer, herrors, hr.1, hr.2⟩

/-- One scope without names, and `5, -(missing + 1)`. -/
def missingOperand : Analysis :=
  [.identifier "missing", .integer 1 none, .binary .add ⟨0⟩ ⟨1⟩, .unary .neg ⟨2⟩, .integer 5 none,
    .comma ⟨4⟩ ⟨3⟩].foldl (fun s k => s.after (.addExpr ⟨k, ⟨0, 0⟩, none⟩))
    ((Analysis.ofProgram (.empty {})).after (.addScope none))

/-- What is before the name is processed first, and what is behind it afterwards. -/
theorem missingOperand_flawed : Flawed 4 missingOperand ⟨5⟩ ⟨0⟩ := by
  let s := missingOperand.after (.setType ⟨4⟩ (.ofScalar (integerType 5 none)))
  have hname : Flawed 1 s ⟨0⟩ ⟨0⟩ := by
    have hkind : s.exprs.kind ⟨0⟩ = .identifier "missing" := rfl
    exact .name hkind rfl rfl
  have hsum : Flawed 2 s ⟨2⟩ ⟨0⟩ := by
    have hkind : s.exprs.kind ⟨2⟩ = .binary .add ⟨0⟩ ⟨1⟩ := rfl
    have hoperands : (Expr.binary .add ⟨0⟩ ⟨1⟩).operands =
        [] ++ (.value, ⟨0⟩) :: [(.value, ⟨1⟩)] := rfl
    apply Flawed.operand hkind rfl nofun hoperands .nil nofun hname
    intro r u hanswer
    have hbehind : ((analyser 1).answer (.expr ⟨0⟩ ⟨0⟩) s).any (fun x =>
        ((Role.value.process ⟨1⟩ ⟨0⟩).run (analyser 1) x.2).any fun y =>
          decide (y.2.log.errors = x.2.log.errors) && !y.2.isError y.1) := by decide +kernel
    rw [hanswer, Option.any_some] at hbehind
    obtain ⟨⟨v, w⟩, hrun, hv⟩ := (Option.any_eq_true _ _).mp hbehind
    simp only [Bool.and_eq_true, decide_eq_true_eq, Bool.not_eq_true'] at hv
    exact ⟨[v], w, .cons hrun hv.1 hv.2 .nil, nofun⟩
  have hnegation : Flawed 3 s ⟨3⟩ ⟨0⟩ := by
    have hkind : s.exprs.kind ⟨3⟩ = .unary .neg ⟨2⟩ := rfl
    have hoperands : (Expr.unary .neg ⟨2⟩).operands = [] ++ (.value, ⟨2⟩) :: [] := rfl
    apply Flawed.operand hkind rfl nofun hoperands .nil nofun hsum
    intro r u _
    exact ⟨[], u, .nil, nofun⟩
  have hfive : Processed (analyser 3) ⟨0⟩ missingOperand [(.analysed, ⟨4⟩)] [⟨4⟩] s := by
    have hkind : missingOperand.exprs.kind ⟨4⟩ = .integer 5 none := rfl
    have hrun : (analyseExpr ⟨4⟩ ⟨0⟩).run (analyser 3) missingOperand = some (⟨4⟩, s) := by
      apply analyseExpr_run
      rfl
    exact .cons hrun rfl (by decide +kernel) .nil
  have hkind : missingOperand.exprs.kind ⟨5⟩ = .comma ⟨4⟩ ⟨3⟩ := rfl
  have hoperands : (Expr.comma ⟨4⟩ ⟨3⟩).operands =
      [(.analysed, ⟨4⟩)] ++ (.value, ⟨3⟩) :: [] := rfl
  apply Flawed.operand hkind rfl nofun hoperands hfive nofun hnegation
  intro r u hanswer
  have hbefore : ((analyser 3).answer (.expr ⟨3⟩ ⟨0⟩) s).any (fun x => !x.2.isError ⟨4⟩) := by
    decide +kernel
  rw [hanswer, Option.any_some, Bool.not_eq_true'] at hbefore
  exact ⟨[], u, .nil, fun v hv => mem_singleton.mp hv ▸ hbefore⟩

theorem reported_once_missingOperand : InSession missingOperand ∧
    Flawed 4 missingOperand ⟨5⟩ ⟨0⟩ ∧
    ∃ r t, (analyser 4).answer (.expr ⟨5⟩ ⟨0⟩) missingOperand = some (r, t) ∧
      t.log.errors = 1 ∧ t.exprs.kind r = .error ∧ t.exprs.type? r = some .error := by
  have hstart : InSession ((Analysis.ofProgram (.empty {})).after (.addScope none)) :=
    .aside (.start {}) rfl .refl
  have hsession : InSession missingOperand :=
    (((((hstart.add (.of_untyped rfl)).add (.of_untyped rfl)).add (.of_untyped rfl)).add
      (.of_untyped rfl)).add (.of_untyped rfl)).add (.of_untyped rfl)
  exact ⟨hsession, missingOperand_flawed, reported_once hsession rfl missingOperand_flawed⟩

/-- Two constructors with one call each, and one with a name that is not there between the calls. -/
def callsAroundName : String :=
  "class B { this(int x) { } } class C : B " ++
  "{ this(int x) { super(1); } this(long x) { super(2); } this() { super(1), missing, super(2); } }"

/-- Each call is fine on its own. Behind the first one, the second is an error besides the name. -/
theorem reported_twice_callsAroundName : messagesOf callsAroundName =
    ["undefined identifier `missing`", "multiple constructor calls"] := by
  decide +kernel

end DCompiler
