import DCompiler.Proofs.Analysis.Run
import DCompiler.Session

/-!
# Members that lead back to themselves

The name of an enumeration member is analysed by analysing a copy of the member's value where the
name stands. Nothing notes that this was begun, and calls are the only rules that count how deep
they are. So a member whose value leads back to it, by itself or through other members, is copied
again and again: its name has no analysis at any depth.
-/

namespace DCompiler

open Option ExprTable Analyse

namespace ExprTable

/-- Whether an expression that was not analysed is a name that `names` knows, below any number of
prefix operators. Parts come before the whole, and what stands before a dot not before `low`. -/
def leads (t : ExprTable) (names : String → String → Bool) (low : Nat) : Nat → ExprId → Bool
  | 0, _ => false
  | high + 1, e => e.index ≤ high &&
    match t.node e with
    | ⟨.unary _ operand, _, none⟩ => t.leads names low high operand
    | ⟨.dot base name, _, none⟩ => low ≤ base.index && base.index < high &&
      match t.node base with
      | ⟨.identifier enum, _, none⟩ => names enum name
      | _ => false
    | _ => false

variable {t u : ExprTable} {names : String → String → Bool} {low high : Nat} {e : ExprId}

theorem leads_succ : t.leads names low (high + 1) e = true ↔ e.index ≤ high ∧
    ((∃ op operand span, t.node e = ⟨.unary op operand, span, none⟩ ∧
      t.leads names low high operand = true) ∨
    ∃ base name span enum span', t.node e = ⟨.dot base name, span, none⟩ ∧
      t.node base = ⟨.identifier enum, span', none⟩ ∧ low ≤ base.index ∧ base.index < high ∧
      names enum name = true) := by
  rw [leads, Bool.and_eq_true, decide_eq_true_eq]
  refine and_congr_right fun _ => ⟨fun h => ?_, fun h => ?_⟩
  · split at h
    · exact .inl ⟨_, _, _, ‹_›, h⟩
    · rw [Bool.and_eq_true, Bool.and_eq_true, decide_eq_true_eq, decide_eq_true_eq] at h
      obtain ⟨⟨hlow, hhigh⟩, h⟩ := h
      split at h
      · exact .inr ⟨_, _, _, _, _, ‹_›, ‹_›, hlow, hhigh, h⟩
      · cases h
    · cases h
  · rcases h with ⟨op, operand, span, hnode, h⟩ | ⟨base, name, span, enum, span', hnode, hbase, h⟩
    · rw [hnode]
      exact h
    · simp [hnode, hbase, h]

theorem leads_of_keeps (hkeep : ∀ i : ExprId, i.index < high → u.node i = t.node i)
    (h : t.leads names low high e = true) : u.leads names low high e = true := by
  induction high generalizing e with
  | zero => cases h
  | succ high ih =>
    rw [leads_succ] at h ⊢
    obtain ⟨he, h⟩ := h
    rw [hkeep e (Nat.lt_succ_of_le he)]
    refine ⟨he, h.imp ?_ ?_⟩
    · rintro ⟨op, operand, span, hnode, h⟩
      exact ⟨op, operand, span, hnode, ih (fun i hi => hkeep i (Nat.lt_succ_of_lt hi)) h⟩
    · rintro ⟨base, name, span, enum, span', hnode, hbase, hlow, hhigh, h⟩
      exact ⟨base, name, span, enum, span', hnode, by rw [hkeep base (by omega), hbase], hlow,
        hhigh, h⟩

theorem run_copyTo (depth : Nat) (t : ExprTable) (e : ExprId) : (copyTo (depth + 1) e).run t =
    let r := ((t.node e).kind.mapChildren (copyTo depth)).run t
    r.2.addNode { t.node e with kind := r.1 } := rfl

theorem leads_copyTo {depth bound : Nat} (hdepth : high ≤ depth) (hbound : bound ≤ t.size)
    (h : t.leads names low high e = true) : let copied := (copyTo depth e).run t
    t.Extends copied.2 ∧ copied.2.leads names bound copied.2.size copied.1 = true := by
  induction high generalizing e depth with
  | zero => cases h
  | succ high ih =>
    obtain ⟨depth, rfl⟩ : ∃ d, depth = d + 1 := ⟨depth - 1, by omega⟩
    obtain ⟨-, ⟨op, operand, span, hnode, hop⟩ | ⟨base, name, span, enum, span', hnode, hbase, -,
      hhigh, hnames⟩⟩ := leads_succ.mp h
    · obtain ⟨hextends, hleads⟩ := ih (Nat.le_of_succ_le_succ hdepth) hop
      have hcopied : (copyTo (depth + 1) e).run t = ((copyTo depth operand).run t).2.addNode
          ⟨.unary op ((copyTo depth operand).run t).1, span, none⟩ := by
        rw [run_copyTo, hnode]
        rfl
      rw [hcopied]
      refine ⟨hextends.trans (.addNode _), ?_⟩
      rw [size_addNode, leads_succ]
      refine ⟨.refl, .inl ⟨_, _, _, node_addNode_self _ _, ?_⟩⟩
      exact leads_of_keeps (fun i hi => (Extends.addNode _).node i hi) hleads
    · obtain ⟨depth, rfl⟩ : ∃ d, depth = d + 1 := ⟨depth - 1, by omega⟩
      have hcopied : (copyTo (depth + 2) e).run t =
          (t.addNode ⟨.identifier enum, span', none⟩).2.addNode
            ⟨.dot (t.addNode ⟨.identifier enum, span', none⟩).1 name, span, none⟩ := by
        rw [run_copyTo, hnode]
        show ((copyTo (depth + 1) base).run t).2.addNode
          ⟨.dot ((copyTo (depth + 1) base).run t).1 name, span, none⟩ = _
        rw [run_copyTo, hbase]
        rfl
      rw [hcopied]
      refine ⟨(Extends.addNode _).trans (.addNode _), ?_⟩
      rw [size_addNode, size_addNode, leads_succ]
      refine ⟨by simp [addNode, size], .inr ⟨_, name, _, enum, span', node_addNode_self _ _,
        ?_, hbound, Nat.lt_succ_self _, hnames⟩⟩
      rw [(Extends.addNode _).node _ (by simp [addNode, size]), node_addNode_self]

end ExprTable

/-- Whether the name of an enumeration and a name behind it stand for one of some members. -/
def Tables.names (p : Tables) (sc : ScopeId) (members : List SymbolId) (enum name : String) :
    Bool :=
  match p.scopes.search sc enum with
  | some (s, _) =>
    match p.symbols.kind s with
    | .enumeration n => !p.types.isError n.type && name != "sizeof" && name != "init" &&
        (typeMember? p n.type name).any (· ∈ members)
    | _ => false
  | none => false

/-- Whether the values of some members, all before `bound`, lead to one of them. -/
def Tables.circular (p : Tables) (sc : ScopeId) (members : List SymbolId) (bound : Nat) : Bool :=
  bound ≤ p.exprs.size && members.all fun s =>
    match p.symbols.kind s with
    | .enumMember value _ => p.exprs.leads (p.names sc members) 0 bound value
    | _ => false

namespace Analyse

variable {h : Analyser} {a : Analysis} {sc : ScopeId} {e : ExprId} {type : TypeId} {name : String}
  {member : SymbolId}

theorem run_analyseExpr : (analyseExpr e sc).run h a = h.answer (.expr e sc) a := by
  simp only [analyseExpr, run]
  cases h.answer (.expr e sc) a <;> rfl

theorem expression_run {k : Expr} {span : Span} (he : e.index < a.exprs.size)
    (hnode : a.exprs.node e = ⟨k, span, none⟩) :
    (expression e sc).run h a = (exprKind e k sc).run h a := by
  rw [expression, run_bind, ask_run, getElem?_node he, hnode]
  rfl

theorem typeProperty_run (hsizeof : name ≠ "sizeof") (hinit : name ≠ "init")
    (hmember : typeMember? a.toTables type name = some member) :
    (typeProperty e type name sc).run h a = (symbolExpr e member sc).run h a := by
  have htype : (typeMember e type name sc).run h a = (symbolExpr e member sc).run h a := by
    rw [typeMember, run_next (x := tables) rfl, hmember]
  show (if name == "sizeof" then _ else _ : Analyse ExprId).run h a = _
  rw [if_neg (by simpa using hsizeof), if_neg (by simpa using hinit), htype]

/-- A name behind an enumeration has no analysis if a copy of the member's value has none. -/
theorem dot_unanswered {b : Analysis} {base r value : ExprId} {memberType : TypeId}
    (hbase : h.answer (.expr base sc) a = some (r, b)) (herror : b.isError r = false)
    (hkind : b.exprs.kind r = .typeRef type) (hsizeof : name ≠ "sizeof") (hinit : name ≠ "init")
    (hmember : typeMember? b.toTables type name = some member)
    (hvalue : b.symbols.kind member = .enumMember value memberType)
    (hcopy : h.answer (.expr ((copy value).run b.exprs).1 sc)
      { b with exprs := ((copy value).run b.exprs).2 } = none) :
    (dot e base name sc).run h a = none := by
  rw [dot, run_bind, run_analyseExpr, hbase, bind_some, run_bind, isError, ask_run,
    bind_some, herror]
  show (kind r >>= _).run h b = _
  rw [run_bind, kind, ask_run, bind_some, hkind]
  rw [typeProperty_run hsizeof hinit hmember, symbolExpr, run_bind, ask_run, bind_some, hvalue]
  show (analyseExpr _ sc >>= _).run h { b with exprs := ((copy value).run b.exprs).2 } =
    none
  rw [run_bind, run_analyseExpr]
  exact congrArg (Option.bind · _) hcopy

end Analyse

variable {sc : ScopeId} {members : List SymbolId} {enum : String} {a : Analysis} {e : ExprId}

theorem Tables.names_eq_true {p : Tables} {name : String}
    (h : p.names sc members enum name = true) :
    ∃ s scope n member, p.scopes.search sc enum = some (s, scope) ∧
      p.symbols.kind s = .enumeration n ∧ p.types.isError n.type = false ∧ name ≠ "sizeof" ∧
      name ≠ "init" ∧ typeMember? p n.type name = some member ∧ member ∈ members := by
  unfold names at h
  split at h
  · split at h
    · simp only [Bool.and_eq_true, Bool.not_eq_true', bne_iff_ne, any_eq_true,
        decide_eq_true_eq] at h
      obtain ⟨⟨⟨herror, hsizeof⟩, hinit⟩, member, hmember, hmem⟩ := h
      exact ⟨_, _, _, member, ‹_›, ‹_›, herror, hsizeof, hinit, hmember, hmem⟩
    · cases h
  · cases h

open Analyse in
theorem enumName_answer {base : ExprId} {span : Span} {s : SymbolId} {scope : ScopeId}
    {n : Enumeration} (depth : Nat) (hbase : base.index < a.exprs.size)
    (hnode : a.exprs.node base = ⟨.identifier enum, span, none⟩)
    (hsearch : a.scopes.search sc enum = some (s, scope))
    (hkind : a.symbols.kind s = .enumeration n) :
    (analyser (depth + 1)).answer (.expr base sc) a = some (base,
      { a with exprs := (a.exprs.setKind base (.typeRef n.type)).setType base n.type }) := by
  show (expression base sc).run (analyser depth) a = _
  rw [expression_run hbase hnode]
  show (match a.scopes.search sc enum with
    | some (s, _) => symbolExpr base s sc
    | none => _ : Analyse ExprId).run _ a = _
  rw [hsearch]
  show (symbolExpr base s sc).run _ a = _
  rw [symbolExpr, run_bind, ask_run, bind_some, hkind]
  rfl

open Analyse in
/-- Each copy of a value leads to a member again, so no depth is enough. -/
theorem unanswered_of_leads {bound : Nat} (hcircular : a.circular sc members bound = true)
    (depth : Nat) {t : ExprTable} {high : Nat} (hbound : bound ≤ t.size) (hhigh : high ≤ t.size)
    (hkeep : ∀ i : ExprId, i.index < bound → t.node i = a.exprs.node i)
    (he : t.leads (a.names sc members) bound high e = true) :
    (analyser depth).answer (.expr e sc) { a with exprs := t } = none := by
  induction depth generalizing t e high with
  | zero => rfl
  | succ depth ih =>
    obtain _ | high := high
    · cases he
    obtain ⟨hindex, ⟨op, operand, span, hnode, hop⟩ | ⟨base, name, span, enum, span', hnode, hbase,
      hlow, hbefore, hnames⟩⟩ := leads_succ.mp he
    all_goals have hin : e.index < t.size := Nat.lt_of_le_of_lt hindex hhigh
    · show (expression e sc).run (analyser depth) _ = none
      rw [expression_run (a := { a with exprs := t }) hin hnode]
      show (unary e op operand sc).run _ _ = none
      rw [unary, run_bind, run_analyseExpr, ih hbound (Nat.le_of_lt hhigh) hkeep hop]
      rfl
    · obtain ⟨s, scope, n, member, hsearch, hkind, herror, hsizeof, hinit, hmember, hmem⟩ :=
        Tables.names_eq_true hnames
      show (expression e sc).run (analyser depth) _ = none
      rw [expression_run (a := { a with exprs := t }) hin hnode]
      show (dot e base name sc).run _ _ = none
      obtain _ | depth := depth
      · rw [dot, run_bind, run_analyseExpr]
        rfl
      have hin' : base.index < t.size := by omega
      -- The name of the enumeration becomes a type; its entry is not before the bound.
      let u := (t.setKind base (.typeRef n.type)).setType base n.type
      have hreplaces := t.replaces_settle base (.typeRef n.type) n.type
      have husize : u.size = t.size := hreplaces.size
      have hukeep (i : ExprId) (hi : i.index < bound) : u.node i = a.exprs.node i := by
        have hne : ¬(i = base ∧ base.index < t.size) := by
          rintro ⟨rfl, -⟩
          omega
        rw [hreplaces.node, if_neg hne, hkeep i hi]
      have hubase : u.node base = ⟨.typeRef n.type, span', some n.type⟩ := by
        rw [hreplaces.self hin', hbase]
      have huerror : Tables.isError { a with exprs := u } base = false := by
        simp [Tables.isError, ExprTable.isError, ExprTable.kind, Tables.typeOf, type?,
          hubase, herror]
      obtain ⟨-, hmembers⟩ := Bool.and_eq_true_iff.mp hcircular
      have hvalue := List.all_eq_true.mp hmembers member hmem
      split at hvalue
      · next value type hmemberKind =>
        obtain ⟨hextends, hcopied⟩ := leads_copyTo (show bound ≤ u.size + 1 by omega)
          (husize ▸ hbound) (leads_of_keeps hukeep hvalue)
        refine dot_unanswered (enumName_answer (a := { a with exprs := t }) depth hin' hbase hsearch
          hkind) huerror (congrArg ExprNode.kind hubase) hsizeof hinit hmember hmemberKind
          (ih (Nat.le_trans (by omega) hextends.size) .refl (fun i hi => ?_) hcopied)
        exact (hextends.node i (by omega)).trans (hukeep i hi)
      · cases hvalue

/-- **Circular members have no analysis.** If the values of some enumeration members lead to one of
them, an expression that leads to one of them is never analysed, whatever the depth of calls. -/
theorem circular_member_endless {a : Analysis} {sc : ScopeId} {members : List SymbolId}
    {bound : Nat} (hcircular : a.circular sc members bound = true) {e : ExprId}
    (he : a.exprs.leads (a.names sc members) bound a.exprs.size e = true) (depth : Nat) :
    (analyser depth).answer (.expr e sc) a = none :=
  unanswered_of_leads hcircular depth (of_decide_eq_true (Bool.and_eq_true_iff.mp hcircular).1)
    .refl (fun _ _ => rfl) he

/-! ## A module without an end -/

/-- The first request of a rule, if it is for an expression, and the state in which it is made. -/
def Analyse.firstExpr {α : Type} : Analyse α → Analysis → Option (ExprId × ScopeId × Analysis)
  | act x next, a => (next (x.exec a.toContext).1).firstExpr
    { a with toContext := (x.exec a.toContext).2 }
  | log d next, a => next.firstExpr (a.report d)
  | request (.expr e sc) _, a => some (e, sc, a)
  | muted x _, a => x.firstExpr a.gag
  | within n x _, a => x.firstExpr (a.enter n)
  | _, _ => none

theorem Analyse.run_eq_none {α : Type} {h : Analyser} {x : Analyse α} {b : Analysis}
    (hfirst : x.firstExpr a = some (e, sc, b)) (hanswer : h.answer (.expr e sc) b = none) :
    x.run h a = none := by
  induction x generalizing a with
  | done _ | endless => cases hfirst
  | act x next ih => exact ih _ hfirst
  | log d next ih => exact ih hfirst
  | request r next =>
    cases r with
    | expr e sc =>
      cases hfirst
      simp only [run, hanswer]
    | stmt | signature | body | arrayOp => cases hfirst
  | muted x next ihx => simp only [run, ihx hfirst]
  | within n x next ihx => simp only [run, ihx hfirst]

def circularText : String :=
  "enum E { a = -~-~-~-~-~-~-~-~-~-~-~-~-~-~-~-~-~-~-~-~-~-~-~-~E.a } int x = E.a;"

/-- The first request of its analysis is for the initial value of the variable. -/
def circularStart : Option (ModuleDecl × Program × ExprId × ScopeId × Analysis) :=
  match (Program.empty {}).read (·.readModule circularText "test") with
  | .ok (m, p) => ((analyseModule m).firstExpr (.ofProgram p)).map (m, p, ·)
  | .error _ => none

/-- That value leads to the member, which is symbol 2, and so does the value of the member, which
has the first 50 places. -/
theorem circularStart_leads : ∃ m p e sc a, circularStart = some (m, p, e, sc, a) ∧
    a.circular sc [⟨2⟩] 50 = true ∧
    a.exprs.leads (a.names sc [⟨2⟩]) 50 a.exprs.size e = true := by
  have h : (circularStart.any fun (_, _, e, sc, a) => a.circular sc [⟨2⟩] 50 &&
    a.exprs.leads (a.names sc [⟨2⟩]) 50 a.exprs.size e) = true := by decide +kernel
  rw [any_eq_true] at h
  obtain ⟨⟨m, p, e, sc, a⟩, hstart, h⟩ := h
  exact ⟨m, p, e, sc, a, hstart, Bool.and_eq_true_iff.mp h⟩

theorem circular_member_selfNamed : ∃ m p e sc a, circularStart = some (m, p, e, sc, a) ∧
    ∀ depth, (analyser depth).answer (.expr e sc) a = none := by
  obtain ⟨m, p, e, sc, a, hstart, hcircular, hleads⟩ := circularStart_leads
  exact ⟨m, p, e, sc, a, hstart, circular_member_endless hcircular hleads⟩

/-- The text is read, and the analysis of its module has no result at any depth. -/
theorem analysis_of_circularText : ∃ m p,
    (Program.empty {}).read (·.readModule circularText "test") = .ok (m, p) ∧
    ∀ depth, (analyseModule m).run (analyser depth) (.ofProgram p) = none := by
  obtain ⟨m, p, e, sc, a, hstart, hcircular, hleads⟩ := circularStart_leads
  unfold circularStart at hstart
  split at hstart
  · next m' p' hread =>
    rw [map_eq_some_iff] at hstart
    obtain ⟨⟨e', sc', a'⟩, hfirst, hstart⟩ := hstart
    cases hstart
    exact ⟨m, p, hread, fun depth => run_eq_none hfirst (unanswered_of_leads hcircular depth
      (of_decide_eq_true (Bool.and_eq_true_iff.mp hcircular).1) .refl (fun _ _ => rfl) hleads)⟩
  · cases hstart

end DCompiler
