import DCompiler.Proofs.Tables.Copies
import DCompiler.Proofs.Analysis.Passes

/-!
# Rules that keep tables coherent

Analysis gives an entry its type and never takes it away (`Onward`). Most rules give such an entry
and do not look at its parts. An index or a slice of a tuple does: it gives elements of the tuple as
they are. So a tuple must not get its type before its elements have theirs (`Coherent`). An error
expression is made as one and stays one (`Forward`).

A rule *yields* `Q` if a run from a coherent table leads to a coherent table, with a result for
which `Q` holds (`Yields`). Rules for expressions yield expressions that have types (`GivesTyped`);
of most other rules it is enough that they keep the table coherent (`Quiet`).

A rule relies on the answers to its requests (`Analyser.Typing`). It is gone through one step after
the other (`Yields.bind`, `Yields.after`). Only few actions could do harm: to give a tuple its type,
to add or copy a tuple that has one, and to replace an error expression.
-/

namespace DCompiler

open List ExprTable

variable {k : Expr} {n : ExprNode} {type : TypeId} {t : ExprTable}

/-! ## Kinds of entries -/

def Expr.isProper : Expr → Bool
  | .error => false
  | _ => true

def Expr.isTuple : Expr → Bool
  | .tuple _ => true
  | _ => false

/-- Neither a tuple nor an error expression: what an entry becomes without a look at others. -/
def Expr.isPlain (k : Expr) : Bool := k.isProper && !k.isTuple

theorem Expr.ne_error (hk : k.isProper) : k ≠ .error := by
  rintro rfl
  cases hk

theorem Expr.plain_iff : k.isPlain ↔ k.isProper ∧ k.isTuple = false := by
  rw [isPlain, Bool.and_eq_true, Bool.not_eq_true']

/-! ## Later tables -/

namespace ExprTable

def IsTyped (t : ExprTable) (e : ExprId) : Prop := (t.type? e).isSome

def Has (t : ExprTable) (e : ExprId) : Prop := e.index < t.size

/-- The expression in the place of one whose error was reported. -/
def Failed (t : ExprTable) (e : ExprId) : Prop := t.kind e = .error ∧ t.type? e = some .error

/-- An entry that is no error expression, analysed or not. -/
def Proper (t : ExprTable) (e : ExprId) : Prop := t.kind e ≠ .error

/-- A later table: there are no fewer entries, and what has a type keeps one. -/
structure Onward (t u : ExprTable) : Prop where
  size : t.size ≤ u.size
  typed : ∀ {e}, t.IsTyped e → u.IsTyped e

/-- A later table in which the error expressions are what they were, and no other entry became
one. -/
structure Forward (t u : ExprTable) : Prop extends Onward t u where
  failed : ∀ {e}, t.Failed e → u.Failed e
  proper : ∀ {e}, t.Proper e → u.Proper e

variable {u v : ExprTable} {e : ExprId}

theorem IsTyped.has (h : t.IsTyped e) : t.Has e := by
  refine Nat.lt_of_not_le fun hout => ?_
  have hnone : t.nodes[e.index]? = none := Array.getElem?_eq_none hout
  simp [IsTyped, type?, node, hnone] at h

theorem Failed.isTyped (h : t.Failed e) : t.IsTyped e := by
  rw [IsTyped, h.2]
  rfl

theorem Proper.of_kind (h : t.kind e = k) (hk : k.isProper) : t.Proper e := by
  rw [Proper, h]
  exact k.ne_error hk

theorem Proper.of_plain (h : (t.kind e).isPlain) : t.Proper e :=
  .of_kind rfl (Expr.plain_iff.mp h).1

theorem Proper.has (h : t.Proper e) : t.Has e := index_lt_of_kind rfl h

theorem isTyped_addNode (hn : n.type.isSome) : (t.addNode n).2.IsTyped (t.addNode n).1 := by
  rw [IsTyped, type?, node_addNode_self]
  exact hn

theorem isTyped_setType (he : t.Has e) : (t.setType e type).IsTyped e := by
  rw [IsTyped, type?, (t.replaces_setType e type).self he]
  rfl

theorem kind_setKind (he : t.Has e) : (t.setKind e k).kind e = k := by
  rw [kind, (t.replaces_setKind e k).self he]

namespace Onward

theorem refl : t.Onward t := ⟨.refl, id⟩

theorem trans (h : t.Onward u) (h' : u.Onward v) : t.Onward v :=
  ⟨Nat.le_trans h.size h'.size, fun he => h'.typed (h.typed he)⟩

theorem of_extends (h : t.Extends u) : t.Onward u := by
  refine ⟨h.size, fun {e} he => ?_⟩
  rw [IsTyped, type?, h.node e he.has]
  exact he

theorem replace (h : t.Replaces e n u) (hn : t.IsTyped e → n.type.isSome) : t.Onward u := by
  refine ⟨Nat.le_of_eq h.size.symm, fun {j} hj => ?_⟩
  rw [IsTyped, type?, h.node]
  split
  · rename_i heq
    exact hn (heq.1 ▸ hj)
  · exact hj

end Onward

namespace Forward

theorem refl : t.Forward t := ⟨.refl, id, id⟩

theorem trans (h : t.Forward u) (h' : u.Forward v) : t.Forward v :=
  ⟨h.toOnward.trans h'.toOnward, fun he => h'.failed (h.failed he),
    fun he => h'.proper (h.proper he)⟩

theorem of_extends (h : t.Extends u) : t.Forward u := by
  refine ⟨.of_extends h, fun {j} hj => ?_, fun {j} hj => ?_⟩
  · rw [Failed, kind, type?, h.node j hj.isTyped.has]
    exact hj
  · rw [Proper, kind, h.node j hj.has]
    exact hj

theorem replace (h : t.Replaces e n u) (hn : t.IsTyped e → n.type.isSome)
    (hfailed : t.Failed e → n.kind = .error ∧ n.type = some .error)
    (hproper : t.Proper e → n.kind ≠ .error) : t.Forward u := by
  refine ⟨.replace h hn, fun {j} hj => ?_, fun {j} hj => ?_⟩
  · rw [Failed, kind, type?, h.node]
    split
    · rename_i heq
      exact hfailed (heq.1 ▸ hj)
    · exact hj
  · rw [Proper, kind, h.node]
    split
    · rename_i heq
      exact hproper (heq.1 ▸ hj)
    · exact hj

end Forward

end ExprTable

/-! ## Coherent tables -/

/-- If the entry is a tuple that has a type, then its elements have types. -/
def ExprNode.Coherent (n : ExprNode) (t : ExprTable) : Prop :=
  n.type.isSome → ∀ elems, n.kind = .tuple elems → ∀ c ∈ elems, t.IsTyped c

/-- The elements of every tuple that has a type have types. -/
def ExprTable.Coherent (t : ExprTable) : Prop := ∀ e, (t.node e).Coherent t

theorem ExprNode.Coherent.mono {u : ExprTable} (hn : n.Coherent t) (h : t.Onward u) :
    n.Coherent u :=
  fun htype elems hkind c hc => h.typed (hn htype elems hkind c hc)

theorem ExprNode.Coherent.of_kind (hn : n.kind.isTuple = false) : n.Coherent t := by
  intro _ elems hkind
  rw [hkind] at hn
  cases hn

theorem ExprNode.Coherent.of_untyped (hn : n.type = none) : n.Coherent t := by
  intro htype
  rw [hn] at htype
  cases htype

namespace ExprTable.Coherent

variable {u : ExprTable} {e : ExprId}

theorem elems (ht : t.Coherent) (he : t.IsTyped e) {elems : List ExprId}
    (hkind : t.kind e = .tuple elems) : ∀ c ∈ elems, t.IsTyped c :=
  ht e he elems hkind

/-- Every entry is the one it was, or one that is coherent. -/
theorem step (ht : t.Coherent) (h : t.Onward u)
    (hnode : ∀ j, u.node j = t.node j ∨ (u.node j).Coherent t) : u.Coherent := by
  intro j
  rcases hnode j with hsame | hnew
  · rw [hsame]
    exact (ht j).mono h
  · exact hnew.mono h

theorem empty : empty.Coherent := fun _ => .of_untyped rfl

theorem addNode (ht : t.Coherent) (hn : n.Coherent t) : (t.addNode n).2.Coherent := by
  refine ht.step (.of_extends (.addNode n)) fun j => ?_
  rw [node_addNode]
  split
  · exact .inr hn
  · exact .inl rfl

end ExprTable.Coherent

/-! ## Copies -/

/-- A later table that is coherent if the earlier one is. -/
structure ExprTable.Leads (t u : ExprTable) : Prop extends Forward t u where
  coherent : t.Coherent → u.Coherent

theorem ExprTable.Leads.refl : t.Leads t := ⟨.refl, id⟩

theorem ExprTable.Leads.trans {u v : ExprTable} (h : t.Leads u) (h' : u.Leads v) : t.Leads v :=
  ⟨h.toForward.trans h'.toForward, fun ht => h'.coherent (h.coherent ht)⟩

theorem ExprTable.Leads.addNode (hn : t.Coherent → n.Coherent t) : t.Leads (t.addNode n).2 :=
  ⟨.of_extends (.addNode n), fun ht => ht.addNode (hn ht)⟩

/-- An entry may change as long as an error expression stays one and no other becomes one. -/
theorem ExprTable.Leads.replace {u : ExprTable} (h : t.Replaces e n u)
    (htype : t.IsTyped e → n.type.isSome)
    (hfailed : t.Failed e → n.kind = .error ∧ n.type = some .error)
    (hproper : t.Proper e → n.kind ≠ .error) (hn : t.Coherent → n.Coherent t) : t.Leads u := by
  refine ⟨.replace h htype hfailed hproper, fun ht => ht.step (.replace h htype) fun j => ?_⟩
  rw [h.node]
  split
  · exact .inr (hn ht)
  · exact .inl rfl

namespace ExprTable

/-- A way to copy entries, where the copy has a type if the entry has one. -/
structure KeepsTypes (f : ExprId → StateM ExprTable ExprId) : Prop where
  leads : ∀ c (t : ExprTable), t.Leads ((f c).run t).2
  typed : ∀ {t c}, t.IsTyped c → ((f c).run t).2.IsTyped ((f c).run t).1

section

variable {f : ExprId → StateM ExprTable ExprId} (hf : KeepsTypes f) {u : ExprTable}
  {es rs : List ExprId}
include hf

theorem KeepsTypes.sweeps (h : Sweeps f t es u rs) : t.Leads u :=
  h.rel (fun _ => .refl) .trans hf.leads

theorem KeepsTypes.list (h : Sweeps f t es u rs) (hes : ∀ c ∈ es, t.IsTyped c) :
    ∀ c ∈ rs, u.IsTyped c := by
  induction h with
  | nil => exact nofun
  | @cons t u e es rs hrest ih =>
    have hfirst := hf.leads e t
    rintro c (_ | ⟨_, hc⟩)
    · exact (hf.sweeps hrest).typed (hf.typed (hes e mem_cons_self))
    · exact ih (fun c hc => hfirst.typed (hes c (mem_cons_of_mem e hc))) c hc

end

/-- Only a tuple is copied to a tuple. -/
theorem mapChildren_tuple {f : ExprId → StateM ExprTable ExprId} {t : ExprTable}
    {elems : List ExprId} (h : ((k.mapChildren f).run t).1 = .tuple elems) :
    ∃ es, k = .tuple es ∧ ((es.mapM f).run t).1 = elems ∧
      ((k.mapChildren f).run t).2 = ((es.mapM f).run t).2 := by
  cases k with
  | tuple es =>
    injection h with h
    exact ⟨es, rfl, h, rfl⟩
  | _ => cases h

theorem copyTo_keepsTypes (depth : Nat) : KeepsTypes (copyTo depth) := by
  induction depth with
  | zero => exact ⟨fun _ _ => .refl, id⟩
  | succ depth ih =>
    refine ⟨fun e t => ?_, fun {t e} he => ?_⟩
    · have hchildren := ih.sweeps ((t.node e).kind.sweeps_mapChildren _ t)
      refine ⟨hchildren.toForward.trans (.of_extends (.addNode _)), fun ht => ?_⟩
      refine (hchildren.coherent ht).addNode fun htype elems hkind => ?_
      obtain ⟨es, hes, helems, htable⟩ := mapChildren_tuple hkind
      have hcopies := ih.list (.mapM (x := t) es) (ht e htype es hes)
      rw [helems, ← htable] at hcopies
      exact hcopies
    · exact isTyped_addNode he

theorem copy_keepsTypes : KeepsTypes copy :=
  ⟨fun c t => (copyTo_keepsTypes (t.size + 1)).leads c t,
    fun {t _} => (copyTo_keepsTypes (t.size + 1)).typed⟩

end ExprTable

namespace NodeTables

variable {x y : NodeTables}

theorem leads_of_sweeps {f : StmtId → StateM NodeTables StmtId} {as bs : List Node}
    (hf : ∀ s (x : NodeTables), x.exprs.Leads ((f s).run x).2.exprs)
    (h : Sweeps (copyNode f) x as y bs) : x.exprs.Leads y.exprs := by
  refine h.rel (R := fun x y => x.exprs.Leads y.exprs) (fun _ => .refl) .trans fun a x => ?_
  cases a with
  | expr e => exact copy_keepsTypes.leads e x.exprs
  | stmt s => exact hf s x

theorem copyStmtTo_leads (depth : Nat) (s : StmtId) (x : NodeTables) :
    x.exprs.Leads ((copyStmtTo depth s).run x).2.exprs := by
  induction depth generalizing s x with
  | zero => exact .refl
  | succ depth ih =>
    have hkind := leads_of_sweeps ih (sweeps_copyKindWith _ (x.stmts.node s).kind x)
    exact hkind

theorem copyFunction_leads (d : FunctionDecl) (x : NodeTables) :
    x.exprs.Leads ((copyFunction d).run x).2.exprs :=
  leads_of_sweeps (fun s x => copyStmtTo_leads (x.stmts.size + 1) s x)
    (sweeps_copyFunctionWith _ d x)

end NodeTables

/-! ## Runs -/

theorem Nesting.exprs_enter (n : Nesting) (s : Analysis) : (s.enter n).exprs = s.exprs := by
  cases n <;> rfl

theorem Nesting.exprs_leave (n : Nesting) (s : Analysis) : (s.leave n).exprs = s.exprs := by
  cases n <;> rfl

/-! ## Rules -/

/-- What rules rely on in the answers of an analyser. -/
structure Analyser.Typing (h : Analyser) : Prop where
  leads : h.Keeps fun s t => s.exprs.Coherent → s.exprs.Leads t.exprs
  typed : ∀ {e : ExprId} {sc : ScopeId} {s t : Analysis} {r : ExprId}, s.exprs.Coherent →
    h.answer (.expr e sc) s = some (r, t) → t.exprs.IsTyped r

theorem Analyser.Typing.coherent {h : Analyser} (hh : h.Typing) :
    h.Keeps fun s t => s.exprs.Coherent → t.exprs.Coherent :=
  fun r _ _ _ hrun hs => (hh.leads r hrun hs).coherent hs

/-- A run from a coherent table leads to a coherent one and to a result with `Q`. -/
def Yields {α : Type} (h : Analyser) (t : ExprTable) (x : Analyse α) (Q : ExprTable → α → Prop) :
    Prop :=
  h.Typing → t.Coherent → ∀ (s s' : Analysis) (a : α), s.exprs = t →
    x.run h s = some (a, s') → t.Leads s'.exprs ∧ Q s'.exprs a

abbrev GivesTyped (h : Analyser) (t : ExprTable) (x : Analyse ExprId) : Prop :=
  Yields h t x fun u r => u.IsTyped r

abbrev MayGive (h : Analyser) (t : ExprTable) (x : Analyse (Option ExprId)) : Prop :=
  Yields h t x fun u r => ∀ c ∈ r, u.IsTyped c

/-- A rule that keeps tables coherent, whatever it gives. -/
def Quiet {α : Type} (h : Analyser) (x : Analyse α) : Prop :=
  ∀ t, Yields h t x fun _ _ => True

/-- Expressions that have types, or one for the first error, which has a type as well. -/
def ExprTable.AllTyped (t : ExprTable) : Except ExprId (List ExprId) → Prop
  | .error fault => t.IsTyped fault
  | .ok es => ∀ e ∈ es, t.IsTyped e

open Analyse

variable {α β : Type} {h : Analyser}
variable {x : Analyse β} {f : α → Analyse β} {e : ExprId} {span : Span} {sc : ScopeId}
  {s : SymbolId} {name : String} {problem : Problem}

namespace Yields

/-! ## Steps -/

section

variable {R : ExprTable → β → Prop}

theorem pure {b : β} (hb : R t b) : Yields h t (Pure.pure b) R := by
  intro _ _ s s' a hs hrun
  cases hrun
  subst hs
  exact ⟨.refl, hb⟩

theorem none : MayGive h t (Pure.pure none) := .pure (by simp)

theorem bind {x : Analyse α} {Q : ExprTable → α → Prop} (hx : Yields h t x Q)
    (hf : ∀ a u, t.Forward u → Q u a → Yields h u (f a) R) : Yields h t (x >>= f) R := by
  intro hh ht s s' b hs hrun
  subst hs
  obtain ⟨a, m, hxrun, hfrun⟩ := run_bind_inv hrun
  obtain ⟨hm, ha⟩ := hx hh ht s m a rfl hxrun
  obtain ⟨hs', hb⟩ := hf a m.exprs hm.toForward ha hh (hm.coherent ht) m s' b rfl hfrun
  exact ⟨hm.trans hs', hb⟩

theorem after {x : Analyse α} (hx : Quiet h x) (hf : ∀ a u, t.Forward u → Yields h u (f a) R) :
    Yields h t (x >>= f) R :=
  .bind (hx t) fun a u htu _ => hf a u htu

theorem given {a : α} (hf : Yields h t (f a) R) : Yields h t (Pure.pure a >>= f) R := hf

theorem intro (hx : t.Coherent → Yields h t x R) : Yields h t x R := fun hh ht => hx ht hh ht

theorem imp {Q : ExprTable → β → Prop} (hx : Yields h t x Q)
    (himp : ∀ u b, t.Forward u → Q u b → R u b) : Yields h t x R := by
  intro hh ht s s' b hs hrun
  obtain ⟨hs', hb⟩ := hx hh ht s s' b hs hrun
  exact ⟨hs', himp _ b hs'.toForward hb⟩

theorem quiet {Q : ExprTable → ExprTable → β → Prop} (hx : ∀ t, Yields h t x (Q t)) : Quiet h x :=
  fun t => (hx t).imp fun _ _ _ _ => trivial

theorem endless : Yields h t (endless : Analyse β) R := by
  rintro _ _ s s' b _ ⟨⟩

/-! ## Questions -/

theorem tables {f : Tables → Analyse β}
    (hf : ∀ p : Tables, p.exprs = t → Yields h t (f p) R) :
    Yields h t (tables >>= f) R := by
  intro hh ht s s' b hs hrun
  exact hf s.toTables hs hh ht s s' b hs hrun

theorem ask {g : Tables → α} (hf : ∀ p : Tables, p.exprs = t → Yields h t (f (g p)) R) :
    Yields h t (Analyse.ask g >>= f) R := by
  intro hh ht s s' b hs hrun
  exact hf s.toTables hs hh ht s s' b hs hrun

theorem kind {f : Expr → Analyse β} (hf : Yields h t (f (t.kind e)) R) :
    Yields h t (Analyse.kind e >>= f) R :=
  .ask fun p hp => by rw [hp]; exact hf

theorem context {f : Context → Analyse β} (hf : ∀ c : Context, Yields h t (f c) R) :
    Yields h t (context >>= f) R := by
  intro hh ht s s' b hs hrun
  exact hf s.toContext hh ht s s' b hs hrun

theorem unlessError {y rest : Analyse β} (hy : Yields h t y R) (hrest : Yields h t rest R) :
    Yields h t (isError e >>= fun b => if b = true then y else rest) R := by
  refine .ask fun p _ => ?_
  split
  · exact hy
  · exact hrest

end

/-! ## Actions -/

theorem act {x : Action α} {Q : ExprTable → α → Prop}
    (hx : ∀ c : Context, c.exprs = t →
      t.Leads (x.exec c).2.exprs ∧ Q (x.exec c).2.exprs (x.exec c).1) :
    Yields h t (.act x .done) Q := by
  intro _ _ s s' a hs hrun
  cases hrun
  exact hx s.toContext hs

theorem aside {x : Action α} (hx : ∀ c : Context, (x.exec c).2.exprs = c.exprs) :
    Yields h t (.act x .done) fun u _ => u = t := by
  refine .act fun c hc => ?_
  rw [hx, hc]
  exact ⟨.refl, rfl⟩

/-! ## Gags and nesting -/

variable {R : ExprTable → β → Prop}

theorem gagged (hx : Yields h t x R) : Yields h t (Analyse.gagged x) fun u r => R u r.1 := by
  intro hh ht s s' a hs hrun
  simp only [Analyse.gagged, run] at hrun
  split at hrun
  · rename_i b m hrun'
    cases hrun
    exact hx hh ht s.gag m b hs hrun'
  · cases hrun

theorem nested {n : Nesting} (hx : Yields h t x R) : Yields h t (Analyse.nested n x) R := by
  intro hh ht s s' a hs hrun
  simp only [Analyse.nested, run] at hrun
  split at hrun
  · rename_i b m hrun'
    cases hrun
    rw [n.exprs_leave]
    exact hx hh ht (s.enter n) m _ ((n.exprs_enter s).trans hs) hrun'
  · cases hrun

end Yields

/-! ## Quiet rules -/

namespace Quiet

@[grind ←] theorem pure {b : β} : Quiet h (Pure.pure b) := fun _ => .pure trivial

@[grind ←] theorem bind {x : Analyse α} (hx : Quiet h x) (hf : ∀ a, Quiet h (f a)) :
    Quiet h (x >>= f) :=
  fun _ => .after hx fun a u _ => hf a u

@[grind ←] theorem ask {g : Tables → α} : Quiet h (Analyse.ask g) := by
  rw [← bind_pure (Analyse.ask g)]
  exact fun _ => .ask fun _ _ => .pure trivial

@[grind ←] theorem tables : Quiet h tables := ask (g := id)

@[grind ←] theorem context : Quiet h context := by
  exact fun _ => .context fun _ => .pure trivial

@[grind ←] theorem endless : Quiet h (endless : Analyse β) := fun _ => .endless

@[grind ←] theorem aside {x : Action α} (hx : ∀ c : Context, (x.exec c).2.exprs = c.exprs) :
    Quiet h (.act x .done) :=
  Yields.quiet fun _ => .aside hx

@[grind ←] theorem report (d : Diagnostic) : Quiet h (report d) := by
  intro t _ _ s s' a hs hrun
  cases hrun
  subst hs
  exact ⟨.refl, trivial⟩

@[grind ←] theorem error {problem : Problem} : Quiet h (error span problem) := .report _

@[grind ←] theorem request {r : Request β} : Quiet h (.request r .done) := by
  intro t hh ht s s' a hs hrun
  simp only [Analyse.run] at hrun
  split at hrun
  · rename_i hanswer
    cases hrun
    subst hs
    exact ⟨hh.leads r hanswer ht, trivial⟩
  · cases hrun

@[grind ←] theorem nested {n : Nesting} (hx : Quiet h x) : Quiet h (Analyse.nested n x) :=
  fun t => .nested (hx t)

@[grind ←] theorem gagged (hx : Quiet h x) : Quiet h (Analyse.gagged x) := fun t => .gagged (hx t)

@[grind ←] theorem mapM (hf : ∀ a, Quiet h (f a)) (as : List α) : Quiet h (as.mapM f) := by
  induction as with
  | nil => exact .pure
  | cons a as ih =>
    rw [mapM_cons]
    exact .bind (hf a) fun _ => .bind ih fun _ => .pure

@[grind ←] theorem forM {f : α → Analyse PUnit} (hf : ∀ a, Quiet h (f a)) (as : List α) :
    Quiet h (as.forM f) := by
  induction as with
  | nil => exact .pure
  | cons a as ih => exact .bind (hf a) fun _ => ih

@[grind ←] theorem option (hf : ∀ a, Quiet h (f a)) (a : Option α) : Quiet h (a.mapM f) := by
  cases a with
  | none => exact .pure
  | some a => exact .bind (hf a) fun _ => .pure

@[grind ←] theorem forOption {f : α → Analyse PUnit} (hf : ∀ a, Quiet h (f a)) (a : Option α) :
    Quiet h (a.forM f) := by
  cases a with
  | none => exact .pure
  | some a => exact hf a

@[grind ←] theorem mapUntilNone {f : α → Analyse (Option β)} (hf : ∀ a, Quiet h (f a))
    (as : List α) : Quiet h (mapUntilNone f as) := by
  induction as with
  | nil => exact .pure
  | cons a as ih =>
    refine .bind (hf a) fun b => ?_
    cases b with
    | none => exact .pure
    | some b => exact .bind ih fun _ => .pure

variable {c : Prop}

theorem whenever [Decidable c] {x y : Analyse α} (hx : Quiet h x) (hy : Quiet h y) :
    Quiet h (if c then x else y) := by
  split
  · exact hx
  · exact hy

attribute [grind =] Expr.isTuple.eq_def Action.exec Analyse.kind Analyse.span typeOf Analyse.isError
  Analyse.text typeText sizeType analyseStmt analyseSignature analyseBody stringType

end Quiet

/-! ## Expressions -/

theorem addExpr_yields : Yields h t (addExpr k span) fun u r => u.kind r = k := by
  refine .act fun c hc => ?_
  subst hc
  refine ⟨.addNode fun _ => .of_untyped rfl, ?_⟩
  exact congrArg ExprNode.kind (c.exprs.node_addNode_self ⟨k, span, none⟩)

@[grind ←] theorem addExpr_quiet : Quiet h (addExpr k span) := Yields.quiet fun _ => addExpr_yields

theorem typed_gives (hk : k.isTuple = false) : GivesTyped h t (typed k span type) := by
  refine .act fun c hc => ?_
  subst hc
  exact ⟨.addNode fun _ => .of_kind hk, isTyped_addNode rfl⟩

@[grind ←] theorem typed_quiet (hk : k.isTuple = false) : Quiet h (typed k span type) :=
  Yields.quiet fun _ => typed_gives hk

theorem errorExpr_gives : GivesTyped h t (errorExpr span) := typed_gives rfl

@[grind ←] theorem errorExpr_quiet : Quiet h (errorExpr span) :=
  Yields.quiet fun _ => errorExpr_gives

theorem fail_gives : GivesTyped h t (fail span problem) :=
  .after .error fun _ _ _ => errorExpr_gives

@[grind ←] theorem fail_quiet : Quiet h (fail span problem) := Yields.quiet fun _ => fail_gives

theorem integer_gives {value : UInt64} : GivesTyped h t (integer value type span) :=
  .ask fun _ _ => typed_gives rfl

theorem setKind_yields (he : t.Proper e) (hk : k.isPlain) :
    Yields h t (setKind e k) fun u _ => u.kind e = k := by
  refine .act fun c hc => ?_
  subst hc
  exact ⟨.replace (c.exprs.replaces_setKind e k) id (fun hfailed => absurd hfailed.1 he)
    (fun _ => k.ne_error (Expr.plain_iff.mp hk).1) fun _ => .of_kind (Expr.plain_iff.mp hk).2,
    kind_setKind he.has⟩

theorem setType_yields (he : t.Has e) (hk : (t.kind e).isTuple = false)
    (hkind : t.Proper e ∨ type = .error) : GivesTyped h t (setType e type) := by
  show GivesTyped h t (act (.setType e type) done >>= fun _ => pure e)
  refine .bind (.act (Q := fun u _ => u.IsTyped e) fun c hc => ?_) fun _ _ _ hu => .pure hu
  subst hc
  refine ⟨.replace (c.exprs.replaces_setType e type) (fun _ => rfl) (fun hfailed => ?_) id
    fun _ => .of_kind hk, isTyped_setType he⟩
  rcases hkind with hproper | rfl
  · exact absurd hfailed.1 hproper
  · exact ⟨hfailed.1, rfl⟩

theorem setType_gives (hk : (t.kind e).isPlain) : GivesTyped h t (setType e type) :=
  setType_yields (Proper.of_plain hk).has (Expr.plain_iff.mp hk).2 (.inl (.of_plain hk))

/-- Replace an entry and give it its type. Of a tuple the elements come first. -/
theorem settle_coherent (he : t.Proper e)
    (hk : ∀ elems, k = .tuple elems → ∀ c ∈ elems, t.IsTyped c) (hkind : k.isProper) :
    GivesTyped h t (settle e k type) := by
  show GivesTyped h t (act (.settle e k type) done >>= fun _ => pure e)
  refine .bind (.act (Q := fun u _ => u.IsTyped e) fun c hc => ?_) fun _ _ _ hu => .pure hu
  subst hc
  have hreplaces := c.exprs.replaces_settle e k type
  refine ⟨.replace hreplaces (fun _ => rfl) (fun hfailed => absurd hfailed.1 he) (fun _ =>
    k.ne_error hkind)     fun _ _ => hk, isTyped_setType ?_⟩
  rw [Has, (c.exprs.replaces_setKind e k).size]
  exact he.has

theorem settle_gives (he : t.Proper e) (hk : k.isPlain) : GivesTyped h t (settle e k type) := by
  refine settle_coherent he ?_ (Expr.plain_iff.mp hk).1
  rintro elems rfl
  cases hk

theorem copyExpr_yields : Yields h t (copyExpr e) fun u r => t.IsTyped e → u.IsTyped r := by
  refine .act fun c hc => ?_
  subst hc
  exact ⟨copy_keepsTypes.leads e c.exprs, fun he => copy_keepsTypes.typed he⟩

@[grind ←] theorem copyExpr_quiet : Quiet h (copyExpr e) := Yields.quiet fun _ => copyExpr_yields

theorem setSpan_yields {r : ExprId} (hr : t.IsTyped r) :
    Yields h t (act (.setSpan e span) done) fun u _ => u.IsTyped r := by
  refine .act fun c hc => ?_
  subst hc
  have hleads : c.exprs.Leads (c.exprs.setNode e { c.exprs.node e with span := span }) :=
    .replace (c.exprs.replaces_setNode e _) id id id fun ht => ht e
  exact ⟨hleads, hleads.typed hr⟩

@[grind ←] theorem copyFunction_quiet {d : FunctionDecl} : Quiet h (copyFunction d) := by
  refine fun t => .act fun c hc => ?_
  subst hc
  exact ⟨NodeTables.copyFunction_leads d ⟨c.exprs, c.stmts⟩, trivial⟩

theorem analyseExpr_gives : GivesTyped h t (analyseExpr e sc) := by
  intro hh ht s s' r hs hrun
  simp only [analyseExpr, run] at hrun
  split at hrun
  · rename_i hanswer
    cases hrun
    subst hs
    exact ⟨hh.leads _ hanswer ht, hh.typed ht hanswer⟩
  · cases hrun

theorem made_gives : GivesTyped h t (do analyseExpr (← addExpr k span) sc) :=
  .after addExpr_quiet fun _ _ _ => analyseExpr_gives

theorem some_yields {x : Analyse ExprId} (hx : GivesTyped h t x) :
    MayGive h t (do return some (← x)) := by
  refine .bind hx fun r u _ hr => .pure ?_
  rintro _ ⟨⟩
  exact hr

theorem Analyse.Alone.quiet {types : Prop} (hx : x.Alone types) : Quiet h x := by
  intro t _ ht s s' a hs hrun
  subst hs
  have hleads : s.exprs.Leads s'.exprs := by
    refine run_tame (R := fun s t => s.exprs.Leads t.exprs) ?_ (fun s hx => ?_) hx hrun
    · refine ⟨fun _ => .refl, .trans, fun _ _ => .refl, id, fun n s t h => ?_⟩
      rwa [n.exprs_enter, ← n.exprs_leave t] at h
    rename_i x
    cases x with
    | addExpr n => exact .addNode fun _ => .of_untyped hx
    | setKind | setType | settle | setSpan | copyExpr | copyFunction => exact hx.elim
    | _ => exact .refl
  exact ⟨hleads, trivial⟩

/-! ## Symbols, scopes and types -/

theorem intern_yields {k : TypeKind} : Yields h t (intern k) fun u _ => u = t := .aside fun _ => rfl

@[grind ←] theorem intern_quiet {k : TypeKind} : Quiet h (intern k) := .aside fun _ => rfl

@[grind ←] theorem sizeOf_quiet : Quiet h (sizeOf type) := by
  grind [Analyse.sizeOf]

@[grind ←] theorem noteVar_quiet {n : VariableNote} : Quiet h (noteVar s n) := .aside fun _ => rfl

@[grind ←] theorem noteFunc_quiet {n : FunctionNote} : Quiet h (noteFunc s n) := .aside fun _ => rfl

@[grind ←] theorem addSymbol_quiet {kind : SymbolKind} {parent : Option SymbolId} :
    Quiet h (addSymbol name span kind parent) :=
  .aside fun _ => rfl

@[grind ←] theorem addStmt_quiet {s : Stmt} : Quiet h (addStmt s span) := .aside fun _ => rfl

@[grind ←] theorem pushScope_quiet {parent : ScopeId} : Quiet h (pushScope parent) :=
  .aside fun _ => rfl

@[grind ←] theorem noteScope_quiet {n : ScopeNote} : Quiet h (noteScope sc n) := .aside fun _ => rfl

@[grind ←] theorem overwrite_quiet : Quiet h (overwrite sc name s) := .aside fun _ => rfl

@[grind ←] theorem bindName_quiet {clash : Problem} : Quiet h (bindName sc name s span clash) := by
  grind [bindName]

@[grind ←] theorem enclosing_quiet : Quiet h (enclosing sc) := by
  grind [enclosing]

@[grind ←] theorem declareTemp_quiet {storage : StorageClass} :
    Quiet h (declareTemp name type storage sc span) := by
  grind [declareTemp]

@[grind ←] theorem undefinedIdentifier_quiet : Quiet h (undefinedIdentifier name sc span) := by
  grind [undefinedIdentifier]

end DCompiler
