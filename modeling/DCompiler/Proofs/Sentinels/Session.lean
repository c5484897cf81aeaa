import DCompiler.Proofs.Sentinels.Declarations

/-!
# Programs that pass the check

The rules for all kinds of expressions together report, up to gaps (`expression_answers`). The
guarded analyser has no answers in gaps, so by induction over the depth all its answers come from
rules that report (`guarded_sound`).

The check of a session lets a program through when no error was reported. The error expression and
the error type stand for errors, so a program that passes should have none of them.
-/

namespace DCompiler

open Analyse List Program

section

variable {h : Analyser} {G : Gaps} {p : Tables} (hh : h.Sound) (hG : ¬ G.declaring) {e : ExprId}
  {sc : ScopeId}
include hh hG

theorem exprKind_answers {k : Expr} (he : e.In p.reach) (hk : p.exprs.kind e = k)
    (hpending : k.isPending = true) (hfits : k.Fits p.reach) :
    Answers h G p e (exprKind e k sc) := by
  have hone {c : ExprId} (hc : k.children = [c]) : c.In p.reach := hfits.children c (by simp [hc])
  have htwo {a b : ExprId} (hab : k.children = [a, b]) : a.In p.reach ∧ b.In p.reach :=
    ⟨hfits.children a (by simp [hab]), hfits.children b (by simp [hab])⟩
  have hleaf {t : TypeId} (hchildren : k.children = []) (hbacks : ∀ (q : Tables) t, q.Backs k t)
      (ht : t.Known p.reach) : Answers h G p e (setType e t) := by
    refine .of (finish_ok ⟨he, ?_, ?_⟩ ht)
    · simp [hk, hchildren]
    · rw [hk]
      exact hbacks
  cases k with
  | error | complex _ _ | symbolRef _ | templateRef _ | moduleRef _ | tuple _ | member _ _
  | funcLiteral _ | declaration _ => cases hpending
  | integer value suffix => exact hleaf rfl (fun _ _ => trivial) TypeId.known_ofScalar
  | real value suffix => exact hleaf rfl (fun _ _ => trivial) TypeId.known_ofScalar
  | null => exact hleaf rfl (fun _ _ => trivial) (known_null _)
  | string text =>
    refine .of (.bind stringType_ok fun t q hpq _ ht => finish_ok ⟨hpq.inside he, ?_, ?_⟩ ht.1)
    · simp [ht.2, hk, Expr.children]
    · simp [ht.2, hk, Tables.Backs]
  | array elems => exact .of (arrayLiteral_ok hh hG he hk)
  | structValue s elems => exact .of (structValue_ok hh hG he hfits.children)
  | identifier name => exact identifier_answers hh hG he
  | dollar => exact dollar_answers hh hG he
  | thisRef => exact .of (thisExpr_ok he)
  | superRef => exact .of (superExpr_ok hG he)
  | typeRef type =>
    refine .ask (.bind (resolveType_known hG (hfits.types type mem_cons_self))
      fun t q hpq _ ht => .of (typeRef_ok (hpq.inside he) ht.1))
  | dot base name => exact dot_answers hh hG he (hone rfl)
  | unary op operand => exact .of (unary_ok hh hG he (hone rfl))
  | binary op lhs rhs => exact .of (binary_ok hh hG he (htwo rfl).1 (htwo rfl).2)
  | assign op lhs rhs fill => exact assign_ok hh hG he (htwo rfl).1 (htwo rfl).2
  | comma lhs rhs => exact .of (comma_ok hh hG he (htwo rfl).1 (htwo rfl).2)
  | cond test yes no =>
    have hparts := hfits.children
    simp only [Expr.children, forall_mem_cons] at hparts
    exact .of (cond_ok hh hG he hparts.1 hparts.2.1 hparts.2.2.1)
  | call callee args =>
    obtain ⟨hcallee, hargs⟩ := forall_mem_cons.mp hfits.children
    exact .of (call_ok hh hG he hcallee hargs)
  | cast operand target =>
    exact .of (castExpr_ok hh hG he (hone rfl) (hfits.types target mem_cons_self))
  | slice base lower upper var => exact .of (slice_ok hh hG he hfits.children)
  | index base place var => exact .of (index_ok hh hG he (htwo rfl).1 (htwo rfl).2)
  | length operand => exact .of (arrayLength_ok hh hG he (hone rfl))
  | compiles args => exact .of (compiles_ok hh hG hfits.children)
  | typeid type =>
    refine .ask (.bind (resolveType_known hG (hfits.types type mem_cons_self))
      fun t q hpq _ ht => .of (settle_ok (hpq.inside he)
        ⟨forall_mem_nil _, ?_, known_typeInfo _, trivial⟩))
    exact forall_mem_singleton.mpr ht.1

theorem expression_answers (he : e.In p.reach) : Answers h G p e (expression e sc) := by
  refine .intro fun hp => .ask ?_
  have hn := hp.nodes e he
  have hlookup : p.exprs.nodes[e.index]? = some (p.exprs.node e) := ExprTable.getElem?_node he
  rw [hlookup]
  dsimp only
  split
  · rename_i t ht
    exact .pure (Option.isSome_iff_exists.mpr ⟨t, ht⟩)
  · rename_i hnone
    exact exprKind_answers hh hG he rfl (hn.pending hnone) hn.fits

end

/-! ## Requests -/

theorem request_ok {h : Analyser} {G : Gaps} {p : Tables} {α : Type} {r : Request α}
    {Q : Tables → α → Prop}
    (hr : ∀ (s t : Analysis) (a : α), s.toTables = p → s.toTables.Sound G →
      h.answer r s = some (a, t) → t.Clean → s.LeadsTo t G ∧ Q t.toTables a) :
    Reports h G p (request r done) Q := by
  intro _ hp s t a hs hrun ht
  have hanswer : h.answer r s = some (a, t) := by
    simp only [run] at hrun
    split at hrun
    · cases hrun
      assumption
    · cases hrun
  obtain ⟨hleads, ha⟩ := hr s t a hs (hs ▸ hp) hanswer ht
  exact .inl ⟨hs ▸ hleads.onward, hleads.sound, ha⟩

/-- The guarded analyser has no silent failures. -/
theorem guarded_sound (depth : Nat) : (guarded depth).Sound := by
  induction depth with
  | zero =>
    refine ⟨fun _ _ => ?_, fun _ => ?_, fun _ => ?_, fun _ => ?_, fun _ _ => ?_⟩ <;>
      exact request_ok fun _ _ _ _ _ hrun => nomatch hrun
  | succ depth ih =>
    have hkeeps : (guarded depth).Keeps Later := guarded_keeps kept_later depth
    refine ⟨fun hG he => ?_, fun hG => ?_, fun hG => ?_, fun hG => ?_, fun hG he => ?_⟩
    · rename_i G p e sc
      refine request_ok fun s t r hs hsound hrun ht => ?_
      have hrun : ((expression e sc).run (guarded depth) s).filter _ = some (r, t) := hrun
      rw [Option.filter_eq_some_iff] at hrun
      obtain ⟨hrun, hgap⟩ := hrun
      have hexpr : Answers (guarded depth) G p e (expression e sc) := expression_answers ih hG he
      rcases hexpr hkeeps (hs ▸ hsound) s t r hs hrun ht with ⟨honward, hsound', htyped⟩ | hin
      · exact ⟨⟨hs ▸ honward, hsound'⟩, htyped⟩
      · simp [hin] at hgap
    · exact request_ok fun s t r hs hsound hrun ht =>
        Analysis.LeadsTo.of_run (statement_ok ih hG) hkeeps hsound hrun ht
    · exact request_ok fun s t r hs hsound hrun ht =>
        ⟨((Pass.parts_lead ih hkeeps hG).signature hrun).2 hsound ht, trivial⟩
    · exact request_ok fun s t r hs hsound hrun ht =>
        ⟨((Pass.parts_lead ih hkeeps hG).body hrun).2 hsound ht, trivial⟩
    · exact request_ok fun s t r hs hsound hrun ht =>
        Pass.arrayOp_leads ih hkeeps hG hsound (hs ▸ he) hrun ht

/-! ## Programs -/

namespace Tables

variable {p : Tables}

/-- An expression of a statement, an initial value, a default argument, or a part of one of them. -/
inductive Occurs (p : Tables) : ExprId → Prop
  | stmt {s : StmtId} {e : ExprId} (he : e ∈ (p.stmts.kind s).exprs) : Occurs p e
  | init {s : SymbolId} {v : Variable} {e : ExprId} (hv : p.symbols.var? s = some v)
      (he : v.init = some e) : Occurs p e
  | default {t : TypeId} {sig : Signature} {param : Param} {e : ExprId}
      (ht : p.types.signature? t = some sig) (hparam : param ∈ sig.params)
      (he : param.default = some e) : Occurs p e
  | part {e c : ExprId} (he : Occurs p e) (hc : c ∈ (p.exprs.kind e).children) : Occurs p c

/-- Nothing in the tables stands for an error. -/
structure NoSentinels (p : Tables) : Prop where
  kind : ∀ {e}, p.Occurs e → p.exprs.kind e ≠ .error
  type : ∀ {e}, p.Occurs e → p.exprs.type? e ≠ some .error
  var : ∀ {s v}, p.symbols.var? s = some v → v.type ≠ .error

theorem Occurs.inside {G : Gaps} {e : ExprId} (he : p.Occurs e) (hp : p.Sound G) :
    e.In p.reach := by
  induction he with
  | stmt he => exact (hp.stmts _).exprs _ he
  | init hv he => exact (hp.var hv).init _ he
  | default ht hparam he => exact ((hp.known_signature ht).2 _ hparam).2 _ he
  | part _ hc ih => exact (hp.fits ih).children _ hc

theorem Sound.noSentinels (hp : p.Sound .none) : p.NoSentinels where
  kind he := hp.kind_ne (he.inside hp)
  type he htype := ((hp.nodes _ (he.inside hp)).known htype).2 rfl
  var hv := ((hp.var hv).known.known id).2

end Tables

/-! ## Tables of sessions -/

theorem Expr.isPending_of_isWritten {k : Expr} (hk : k.isWritten = true) : k.isPending = true := by
  cases k with
  | structValue _ _ | length _ => rfl
  | _ => exact hk

theorem ExprNode.Written.sound {n : ExprNode} {p : Tables} (hn : n.Written p.reach) :
    n.Sound p where
  fits := hn.fits
  pending _ := Expr.isPending_of_isWritten hn.kind
  known ht := nomatch hn.untyped.symm.trans ht
  children ht := nomatch hn.untyped ▸ ht
  backs ht := nomatch hn.untyped.symm.trans ht

theorem Program.sound_empty (options : Options) : (empty options).Sound .none where
  types := TypeTable.initial_wellFormed
  nodes e he := absurd he (Nat.not_lt_zero _)
  symbols s := by
    trivial
  stmts s := ⟨nofun, nofun, nofun⟩
  arrayOps hentry := nomatch hentry

section

variable {p : Tables} {x : SyntaxTables}
  (hgrown : Grammar.Grown (SyntaxTables.mk p.exprs p.stmts p.types).state x.state)
include hgrown

theorem Tables.Onward.read :
    p.Onward { p with exprs := x.exprs, stmts := x.stmts, types := x.types } := by
  refine .of_symbols rfl hgrown.reach.1 (fun e he => ?_) hgrown.types
  have hsame : x.exprs.node e = p.exprs.node e := hgrown.node_eq he.inside
  rw [Typed, ExprTable.type?, hsame]
  exact he

theorem Tables.Sound.read (hp : p.Sound .none) :
    Sound { p with exprs := x.exprs, stmts := x.stmts, types := x.types } .none := by
  refine hp.step (.read hgrown) (hgrown.wellFormed hp.types) (fun e he => ?_) (fun _ => .inl rfl)
    hgrown.stmt_eq_or_new rfl
  by_cases hold : e.index < p.exprs.size
  · exact .inl ⟨hold, hgrown.node_eq hold⟩
  · have hwritten := hgrown.node_new (Nat.le_of_not_lt hold) he
    exact .inr hwritten.sound

end

/-! ## Sessions that meet no gap -/

/-- Whether the analysis of a source text meets a gap: it has a result, and the guarded analyser has
none. -/
def Session.meetsGap (s : Session) (file text : String) : Bool :=
  match s.program.read (·.readModule text (moduleName file)) with
  | .error _ => false
  | .ok (m, p) => (p.analyseModule m).isSome &&
    ((Analyse.analyseModule m).run (guarded analysisDepth) (.ofProgram p)).isNone

/-- A session whose analyses met no gap. -/
inductive Session.Watched : Session → Prop
  | new (options : Options) : Watched (.new options)
  | analyse {s : Session} {file text : String} (hs : Watched s)
      (hgap : s.meetsGap file text = false) : Watched (s.analyse file text).2

variable {p q : Program} {text : String} {m : ModuleDecl} {symbol : SymbolId} {s : Session}

theorem Program.sound_readModule {name : String} (hp : p.Sound .none)
    (hread : p.read (·.readModule text name) = .ok (m, q)) :
    q.Sound .none ∧ ∀ d ∈ m.decls, d.Fits q.reach := by
  obtain ⟨x, hx, rfl⟩ := read_inv hread
  obtain ⟨hgrown, hm⟩ := SyntaxTables.readModule_grown hp.types.fromInitial hx
  exact ⟨hp.read hgrown, hm⟩

theorem Program.sound_analyseModule (hp : p.Sound .none) (hm : ∀ d ∈ m.decls, d.Fits p.reach)
    (hrun : p.analyseModule m = some (symbol, q))
    (hguarded : ((Analyse.analyseModule m).run (guarded analysisDepth) (.ofProgram p)).isSome)
    (hq : (Analysis.ofProgram q).Clean) : q.Sound .none := by
  obtain ⟨⟨found, t⟩, hx, hdone⟩ := Option.bind_eq_some_iff.mp hrun
  cases hdone
  obtain ⟨r, hr⟩ := Option.isSome_iff_exists.mp hguarded
  have hsame := run_below (guarded_below analysisDepth) _ hr
  rw [hx] at hsame
  cases hsame
  have hkeeps : (guarded analysisDepth).Keeps Later := guarded_keeps kept_later _
  have ht : t.Clean := ⟨hq.errors, hq.gagged, hq.types⟩
  have hreports := analyseModule_ok (guarded_sound analysisDepth) hm
  exact (Analysis.LeadsTo.of_run hreports hkeeps hp hr ht).1.sound

theorem Program.later_analyseModule (hrun : p.analyseModule m = some (symbol, q)) :
    Later (.ofProgram p) (.ofProgram q) := by
  obtain ⟨⟨found, t⟩, hx, hdone⟩ := Option.bind_eq_some_iff.mp hrun
  cases hdone
  have hlater : Later (.ofProgram p) t :=
    run_stable stable_later (analyser_keeps kept_later analysisDepth) _ hx
  exact hlater.trans (.of_same rfl rfl)

theorem Program.later_readModule {name : String} (hp : TypeTable.initial.Grows p.types)
    (hread : p.read (·.readModule text name) = .ok (m, q)) :
    Later (.ofProgram p) (.ofProgram q) := by
  obtain ⟨x, hx, rfl⟩ := read_inv hread
  exact ⟨.refl, .refl, (SyntaxTables.readModule_grown hp hx).1.types⟩

theorem Session.program_analyse (s : Session) (file text : String) :
    (s.analyse file text).2.program = s.program ∨ ∃ m p symbol,
      s.program.read (·.readModule text (moduleName file)) = .ok (m, p) ∧
      p.analyseModule m = some (symbol, (s.analyse file text).2.program) := by
  unfold analyse
  dsimp only
  split
  · exact .inl rfl
  rename_i m p hread
  split
  · exact .inl rfl
  · rename_i symbol q hrun
    exact .inr ⟨m, p, symbol, hread, hrun⟩

theorem Session.Watched.sound (hs : s.Watched) : TypeTable.initial.Grows s.program.types ∧
      ((Analysis.ofProgram s.program).Clean → s.program.Sound .none) := by
  induction hs with
  | new options => exact ⟨.refl, fun _ => sound_empty options⟩
  | @analyse s file text _ hgap ih =>
    rcases s.program_analyse file text with hsame | ⟨m, p, symbol, hread, hrun⟩
    · rw [hsame]
      exact ih
    have hlater := (later_readModule ih.1 hread).trans (later_analyseModule hrun)
    refine ⟨ih.1.trans hlater.types, fun hclean => ?_⟩
    obtain ⟨hp, hm⟩ := sound_readModule (ih.2 (hlater.clean hclean)) hread
    refine sound_analyseModule hp hm hrun ?_ hclean
    simpa [meetsGap, hread, hrun] using hgap

theorem Session.check_eq_ok : s.check = .ok () ↔ s.program.log.errors = 0 := by
  unfold check
  split
  · exact ⟨fun _ => ‹_›, fun _ => rfl⟩
  · exact ⟨nofun, fun h => absurd h ‹_›⟩

/-- **No silent failure.** A program that passes the check has no error expression, no expression of
the error type and no variable of the error type, if no error was dropped, no type is hollow, and
the analyses met no gap. -/
theorem checked_noSentinels {s : Session} (hs : s.Watched) (hcheck : s.check = .ok ())
    (hdropped : s.program.log.gagged = 0)
    (htypes : ∀ k ∈ s.program.types.kinds, k.isHollow = false) : s.program.NoSentinels :=
  (hs.sound.2 ⟨Session.check_eq_ok.mp hcheck, hdropped, htypes⟩).noSentinels

/-- A module with an array, a call and a compound assignment. -/
def squares : String :=
  "int[] a = [1]; int sq(int x) { return x * x; } void f() { int y = sq(3); y += a[0]; }"

theorem checked_noSentinels_squares : (sessionOf squares).Watched ∧
    (sessionOf squares).check = .ok () ∧ (sessionOf squares).program.log.gagged = 0 ∧
    (sessionOf squares).program.NoSentinels := by
  have hrun : (Session.new {}).meetsGap "test.d" squares = false ∧
      (sessionOf squares).program.log.errors = 0 ∧ (sessionOf squares).program.log.gagged = 0 ∧
      ∀ k ∈ (sessionOf squares).program.types.kinds, k.isHollow = false := by
    decide +kernel
  obtain ⟨hgap, herrors, hdropped, htypes⟩ := hrun
  have hwatched : (sessionOf squares).Watched := .analyse (.new {}) hgap
  have hcheck := Session.check_eq_ok.mpr herrors
  exact ⟨hwatched, hcheck, hdropped, checked_noSentinels hwatched hcheck hdropped htypes⟩

/-- A `void` value is added to a variable. -/
def voidOperand : Program :=
  (sessionOf "module m; void v() {} void f() { int x; x += v(); }").program

/-- Nothing is reported or dropped, and the body of `f` has an error expression as a statement. -/
theorem void_operand_passes_check : voidOperand.log.errors = 0 ∧ voidOperand.log.gagged = 0 ∧
    (voidOperand.symbols.func? ⟨2⟩).bind (·.body) = some ⟨5⟩ ∧
    voidOperand.stmts.kind ⟨5⟩ = .scope ⟨4⟩ ∧ voidOperand.stmts.kind ⟨4⟩ = .block [⟨2⟩, ⟨3⟩] ∧
    voidOperand.stmts.kind ⟨3⟩ = .expr ⟨4⟩ ∧ voidOperand.exprs.kind ⟨4⟩ = .error := by
  decide +kernel

end DCompiler
