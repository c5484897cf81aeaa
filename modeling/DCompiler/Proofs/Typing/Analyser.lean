import DCompiler.Proofs.Analysis.Reached
import DCompiler.Proofs.Typing.Operators
import DCompiler.Proofs.Typing.Calls

/-!
# Analysis types what it gives

The rules for the kinds of expressions come together here. Rules call each other through requests,
so the induction is on how deep these calls go: the answers at one depth are what the rules at the
next rely on (`analyser_typing`).
-/

namespace DCompiler

open Analyse

variable {h : Analyser} {t : ExprTable} {e : ExprId} {k : Expr} {sc : ScopeId} {s : Analysis}
  {depth : Nat}

/-! ## Rules -/

theorem exprKind_gives (hhas : t.Has e) (hk : t.kind e = k) : GivesTyped h t (exprKind e k sc) := by
  obtain rfl | hne := eq_or_ne k .error
  · exact setType_yields hhas (by rw [hk]; rfl) (.inr rfl)
  have hp : t.Proper e := fun h => hne (hk.symm.trans h)
  cases k with
  | error => contradiction
  | integer | real | complex | null | templateRef | moduleRef =>
    exact setType_gives (by rw [hk]; rfl)
  | string text =>
    refine .bind intern_yields fun _ u htu hu => ?_
    subst hu
    exact setType_gives (by rw [hk]; rfl)
  | funcLiteral s =>
    refine .ask fun p _ => .bind intern_yields fun _ u htu hu => ?_
    subst hu
    exact setType_gives (by rw [hk]; rfl)
  | declaration s => exact .ask fun _ _ => setType_gives (by rw [hk]; rfl)
  | typeRef type | typeid type =>
    exact .ask fun _ _ => .after (Alone.quiet resolveType_alone) fun _ _ htu =>
      settle_gives (htu.proper hp) rfl
  | array elems => exact arrayLiteral_gives hk
  | structValue s elems => exact structValue_gives hp
  | identifier name => exact identifier_gives hp
  | dollar => exact dollar_gives hp
  | thisRef => exact thisExpr_gives hp
  | superRef => exact superExpr_gives hp
  | symbolRef s => exact symbolExpr_gives hp
  | tuple elems => exact tupleExpr_gives hp
  | dot base name => exact dot_gives hp
  | member base s => exact knownMember_gives hp
  | unary op operand => exact unary_gives hp
  | binary op lhs rhs => exact binary_gives hp
  | assign op lhs rhs fill => exact assign_gives hp
  | comma lhs rhs => exact comma_gives hp
  | cond test yes no => exact cond_gives hp
  | call callee args => exact call_gives hp
  | cast operand target => exact castExpr_gives hp
  | slice base lower upper lengthVar => exact slice_gives hp
  | index base place lengthVar => exact index_gives hp
  | length operand => exact arrayLength_gives hp
  | compiles args => exact compiles_gives

theorem expression_gives : GivesTyped h t (expression e sc) := by
  refine .ask fun p hp => ?_
  subst hp
  split
  · exact .endless
  rename_i node hnode
  have hnode' : p.exprs.node e = node := by rw [ExprTable.node, hnode]; rfl
  split
  · rename_i htype
    refine .pure ?_
    rw [ExprTable.IsTyped, ExprTable.type?, hnode', htype]
    rfl
  · refine exprKind_gives ?_ (congrArg ExprNode.kind hnode')
    exact (Array.getElem?_eq_some_iff.mp hnode).1

theorem Pass.arrayOp_exprs (hh : h.Typing) {t : Analysis} {entry : ArrayOpEntry}
    (hs : s.exprs.Coherent) (hrun : Pass.arrayOp h e s = some (entry, t)) :
    s.exprs.Leads t.exprs := by
  rw [arrayOp_run] at hrun
  split at hrun
  · cases hrun
    exact .refl
  rw [Option.bind_eq_some_iff] at hrun
  obtain ⟨⟨_, u⟩, hbuild, hrecord⟩ := hrun
  cases hrecord
  have hu : s.exprs.Leads u.exprs := buildArrayOp_quiet.leads hh hbuild hs
  exact hu

/-! ## Requests -/

theorem analyser_typing_succ (hh : (analyser depth).Typing) : (analyser (depth + 1)).Typing where
  leads := by
    intro β r s t b hrun hs
    cases r with
    | expr e sc => exact (expression_gives hh hs s t b rfl hrun).1
    | stmt stmt sc => exact statement_quiet.leads hh hrun hs
    | signature symbol => exact (Pass.parts_exprs hh).signature hrun hs
    | body symbol => exact (Pass.parts_exprs hh).body hrun hs
    | arrayOp e => exact Pass.arrayOp_exprs hh hs hrun
  typed hs hrun := (expression_gives hh hs _ _ _ rfl hrun).2

theorem analyser_typing (depth : Nat) : (analyser depth).Typing := by
  induction depth with
  | zero =>
    -- nothing is answered
    refine ⟨fun r s t b hrun => ?_, fun _ hrun => ?_⟩ <;> cases hrun
  | succ depth ih => exact analyser_typing_succ ih

theorem nodes_run (he : s.exprs.Has e) :
    (ask (·.exprs.nodes[e.index]?)).run h s = some (some (s.exprs.node e), s) :=
  congrArg (fun node => some (node, s)) (ExprTable.getElem?_node he)

theorem answer_of_typed (he : s.exprs.IsTyped e) (depth : Nat) (sc : ScopeId) :
    (analyser (depth + 1)).answer (.expr e sc) s = some (e, s) := by
  obtain ⟨type, htype⟩ := Option.isSome_iff_exists.mp he
  show (expression e sc).run (analyser depth) s = some (e, s)
  rw [expression, run_next (nodes_run he.has)]
  dsimp only
  rw [show (s.exprs.node e).type = some type from htype]
  rfl

theorem answer_of_kind (hkind : s.exprs.kind e = k) (hk : k ≠ .error)
    (htype : s.exprs.type? e = none) :
    (analyser (depth + 1)).answer (.expr e sc) s = (exprKind e k sc).run (analyser depth) s := by
  show (expression e sc).run (analyser depth) s = (exprKind e k sc).run (analyser depth) s
  rw [expression, run_next (nodes_run (ExprTable.index_lt_of_kind hkind hk))]
  dsimp only
  rw [show (s.exprs.node e).type = none from htype, show (s.exprs.node e).kind = k from hkind]

/-! ## Sessions -/

theorem Grammar.Grown.coherent {s s' : Grammar.State} (h : Grammar.Grown s s')
    (hs : s.exprs.Coherent) : s'.exprs.Coherent := by
  refine hs.step (.of_extends ⟨h.reach.1, fun _ hj => h.node_eq hj⟩) fun j => ?_
  by_cases hold : s.exprs.Has j
  · exact .inl (h.node_eq hold)
  refine .inr (.of_untyped ?_)
  by_cases hnew : s'.exprs.Has j
  · exact (h.node_new (Nat.le_of_not_lt hold) hnew).untyped
  have hnone : s'.exprs.nodes[j.index]? = none := Array.getElem?_eq_none (Nat.le_of_not_lt hnew)
  rw [ExprTable.node, hnone]
  rfl

/-- The states of a session between two calls, whatever the calls were. -/
inductive InSession : Analysis → Prop
  | start (options : Options) : InSession (.ofProgram (.empty options))
  | readModule {p p' : Program} {text name : String} {m : ModuleDecl}
      (hp : InSession (.ofProgram p)) (hread : p.read (·.readModule text name) = .ok (m, p')) :
      InSession (.ofProgram p')
  | readExpr {p p' : Program} {text : String} {e : ExprId} (hp : InSession (.ofProgram p))
      (hread : p.read (·.readExpr text) = .ok (e, p')) : InSession (.ofProgram p')
  /-- An expression that was not read: one of any kind without a type, for instance. -/
  | add {s : Analysis} {n : ExprNode} (hs : InSession s) (hn : n.Coherent s.exprs) :
      InSession (s.after (.addExpr n))
  | analyseModule {s t : Analysis} {m : ModuleDecl} {symbol : SymbolId} {depth : Nat}
      (hs : InSession s)
      (hrun : (analyseModule m).run (analyser depth) s = some (symbol, t)) : InSession t
  /-- Any of the requests: for an expression, a statement, a function or an array operation. -/
  | answer {β : Type} {r : Request β} {s t : Analysis} {b : β} {depth : Nat} (hs : InSession s)
      (hrun : (analyser depth).answer r s = some (b, t)) : InSession t
  /-- Symbols, scopes, statements, messages and the context may change in any way, and types may be
  added. -/
  | aside {s t : Analysis} (hs : InSession s) (hexprs : t.exprs = s.exprs)
      (htypes : s.types.Grows t.types) : InSession t

theorem InSession.types (hs : InSession s) : TypeTable.initial.Grows s.types := by
  induction hs with
  | start options => exact .refl
  | readModule _ hread ih =>
    obtain ⟨t, hrun, rfl⟩ := Program.read_inv hread
    exact ih.trans (SyntaxTables.readModule_grown ih hrun).1.types
  | readExpr _ hread ih =>
    obtain ⟨t, hrun, rfl⟩ := Program.read_inv hread
    exact ih.trans (SyntaxTables.readExpr_grown ih hrun).1.types
  | add _ _ ih => exact ih
  | analyseModule _ hrun ih => exact ih.trans (run_lasting _ hrun).types
  | answer _ hrun ih => exact ih.trans (analyser_lasting _ _ hrun).types
  | aside _ _ htypes ih => exact ih.trans htypes

theorem InSession.coherent (hs : InSession s) : s.exprs.Coherent := by
  induction hs with
  | start options => exact .empty
  | readModule hp hread ih =>
    obtain ⟨t, hrun, rfl⟩ := Program.read_inv hread
    exact (SyntaxTables.readModule_grown hp.types hrun).1.coherent ih
  | readExpr hp hread ih =>
    obtain ⟨t, hrun, rfl⟩ := Program.read_inv hread
    exact (SyntaxTables.readExpr_grown hp.types hrun).1.coherent ih
  | add _ hn ih => exact ih.addNode hn
  | analyseModule _ hrun ih =>
    exact (analyseModule_quiet.leads (analyser_typing _) hrun ih).coherent ih
  | answer _ hrun ih => exact (analyser_typing _).coherent _ hrun ih
  | aside _ hexprs _ ih => rwa [hexprs]

/-- The table is coherent throughout a session. From a coherent one, every analysis that ends gives
an expression that has a type, and leaves a coherent one. To analyse that expression again, in any
scope, gives it back and changes nothing. -/
theorem analysis_idempotent :
    (∀ s, InSession s → s.exprs.Coherent) ∧
    ∀ {depth : Nat} {s t : Analysis} {e r : ExprId} {sc : ScopeId}, s.exprs.Coherent →
      (analyser depth).answer (.expr e sc) s = some (r, t) →
      t.exprs.Coherent ∧ (t.exprs.type? r).isSome ∧
      ∀ depth' sc', (analyser (depth' + 1)).answer (.expr r sc') t = some (r, t) := by
  refine ⟨fun s hs => hs.coherent, fun {depth s t e r sc} hs hrun => ?_⟩
  have hr : t.exprs.IsTyped r := (analyser_typing depth).typed hs hrun
  exact ⟨(analyser_typing depth).coherent _ hrun hs, hr, answer_of_typed hr⟩

/-- One scope, and an index into a tuple whose only element is the index itself. -/
def tupleElement : Analysis :=
  ((((Analysis.ofProgram (.empty {})).after (.addScope none)).after
    (.addExpr ⟨.integer 0 none, ⟨0, 0⟩, none⟩)).after
    (.addExpr ⟨.tuple [⟨0⟩], ⟨0, 0⟩, none⟩)).after
    (.addExpr ⟨.index ⟨1⟩ ⟨0⟩ none, ⟨0, 0⟩, none⟩)

/-- What is analysed is the index, and what comes back is the element. -/
theorem analysis_idempotent_element : InSession tupleElement ∧ ∃ t : Analysis,
    (analyser 4).answer (.expr ⟨2⟩ ⟨0⟩) tupleElement = some (⟨0⟩, t) ∧
    (t.exprs.type? ⟨0⟩).isSome ∧ (analyser 1).answer (.expr ⟨0⟩ ⟨0⟩) t = some (⟨0⟩, t) := by
  have hstart : InSession ((Analysis.ofProgram (.empty {})).after (.addScope none)) :=
    .aside (.start {}) rfl .refl
  have hsession : InSession tupleElement :=
    ((hstart.add (.of_untyped rfl)).add (.of_untyped rfl)).add (.of_untyped rfl)
  have hrun : ((analyser 4).answer (.expr ⟨2⟩ ⟨0⟩) tupleElement).any (fun r => r.1 == ⟨0⟩) := by
    decide +kernel
  obtain ⟨⟨r, t⟩, hrt, hr⟩ := (Option.any_eq_true _ _).mp hrun
  obtain rfl : r = ⟨0⟩ := by simpa using hr
  obtain ⟨hcoherent, hanalysis⟩ := analysis_idempotent
  obtain ⟨-, htype, hagain⟩ := hanalysis (hcoherent _ hsession) hrt
  exact ⟨hsession, t, hrt, htype, hagain 0 ⟨0⟩⟩

end DCompiler
