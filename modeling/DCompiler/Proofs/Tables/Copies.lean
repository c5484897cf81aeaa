import Mathlib.Data.List.Basic
import DCompiler.Proofs.Expr.Tree

/-!
# Deep copies

The tables of expressions and of statements are one graph, where each node has its parts. To copy a
node is to copy its parts from left to right (`Sweeps`) and to put the copies in their places. All
else about the node stays (`shape`), but for the symbol of a statement, which the copy does not
have.

A copy of a node has the same tree below it. It is made of new nodes only, and none is in two places
(`Copied`), so a copy can be changed without the original.
-/

namespace DCompiler

open List ExprTable

/-! ## Parts one after the other -/

/-- Steps for the elements of a list, from left to right, lead to a state and to results. -/
inductive Sweeps {σ α β : Type} (f : α → StateM σ β) : σ → List α → σ → List β → Prop
  | nil {x : σ} : Sweeps f x [] x []
  | cons {x y : σ} {a : α} {as : List α} {bs : List β} :
    Sweeps f ((f a).run x).2 as y bs → Sweeps f x (a :: as) y (((f a).run x).1 :: bs)

namespace Sweeps

variable {σ α β γ δ : Type} {f : α → StateM σ β} {g : γ → StateM σ δ} {x y z : σ} {as as' : List α}
  {bs bs' : List β}

theorem mapM (as : List α) : Sweeps f x as ((as.mapM f).run x).2 ((as.mapM f).run x).1 := by
  induction as generalizing x with
  | nil => exact .nil
  | cons a as ih =>
    rw [mapM_cons]
    exact .cons ih

theorem option (a : Option α) :
    Sweeps f x a.toList ((a.mapM f).run x).2 ((a.mapM f).run x).1.toList := by
  cases a with
  | none => exact .nil
  | some a => exact .cons .nil

theorem append (h : Sweeps f x as y bs) (h' : Sweeps f y as' z bs') :
    Sweeps f x (as ++ as') z (bs ++ bs') := by
  induction h with
  | nil => exact h'
  | cons _ ih => exact .cons (ih h')

theorem flatMap {u : α → List γ} {v : β → List δ}
    (hg : ∀ a x, Sweeps g x (u a) ((f a).run x).2 (v ((f a).run x).1)) (h : Sweeps f x as y bs) :
    Sweeps g x (as.flatMap u) y (bs.flatMap v) := by
  induction h with
  | nil => exact .nil
  | cons _ ih => exact (hg _ _).append ih

theorem map {u : α → γ} {v : β → δ}
    (hg : ∀ a x, (g (u a)).run x = (v ((f a).run x).1, ((f a).run x).2)) (h : Sweeps f x as y bs) :
    Sweeps g x (as.map u) y (bs.map v) := by
  rw [map_eq_flatMap, map_eq_flatMap]
  refine h.flatMap fun a x => ?_
  have hstep := Sweeps.cons (f := g) (x := x) (a := u a) .nil
  rwa [hg] at hstep

theorem map_eq {u : α → γ} {v : β → γ} (hv : ∀ a x, v ((f a).run x).1 = u a)
    (h : Sweeps f x as y bs) : bs.map v = as.map u := by
  induction h with
  | nil => rfl
  | cons _ ih => rw [map_cons, map_cons, hv, ih]

theorem exists_of_mem (h : Sweeps f x as y bs) {b : β} (hb : b ∈ bs) :
    ∃ a ∈ as, ∃ z, ((f a).run z).1 = b := by
  induction h with
  | nil => exact nomatch hb
  | @cons x _ a _ _ _ ih =>
    rcases mem_cons.mp hb with rfl | hb
    · exact ⟨a, mem_cons_self, x, rfl⟩
    · obtain ⟨c, hc, hz⟩ := ih hb
      exact ⟨c, mem_cons_of_mem a hc, hz⟩

theorem rel {R : σ → σ → Prop} (hrefl : ∀ x, R x x) (htrans : ∀ {x y z}, R x y → R y z → R x z)
    (hf : ∀ a x, R x ((f a).run x).2) (h : Sweeps f x as y bs) : R x y := by
  induction h with
  | nil => exact hrefl _
  | cons _ ih => exact htrans (hf _ _) ih

end Sweeps

theorem const_mapM {σ α β γ : Type} {f : α → StateM σ β} (c : γ) (a : Option α) (x : σ) :
    ((a.mapM f).run x).1.map (fun _ => c) = a.map fun _ => c := by
  cases a <;> rfl

/-! ## Nodes -/

inductive Node where
  | expr (e : ExprId)
  | stmt (s : StmtId)
  deriving DecidableEq

/-- An expression without its parts. -/
def Expr.shape (k : Expr) : Expr := Id.run (k.mapChildren fun _ => pure ⟨0⟩)

def FunctionDecl.parts (d : FunctionDecl) : List Node :=
  (d.params.flatMap fun p => p.default.toList.map .expr) ++ d.requires.map .stmt ++
    (d.ensures.map fun e => .stmt e.body) ++ d.body.toList.map .stmt

def FunctionDecl.shape (d : FunctionDecl) : FunctionDecl :=
  { d with
    params := d.params.map fun p => { p with default := p.default.map fun _ => ⟨0⟩ }
    requires := d.requires.map fun _ => ⟨0⟩
    ensures := d.ensures.map fun e => { e with body := ⟨0⟩ }
    body := d.body.map fun _ => ⟨0⟩ }

namespace Stmt

def parts : Stmt → List Node
  | expr value => [.expr value]
  | varDecl _ _ init _ _ => init.toList.map .expr
  | funcDecl d _ => d.parts
  | block stmts => stmts.map .stmt
  | scope body | label _ body => [.stmt body]
  | ifElse test yes no => .expr test :: .stmt yes :: no.toList.map .stmt
  | whileLoop test body => [.expr test, .stmt body]
  | forLoop init test incr body =>
    init.toList.map .stmt ++ test.toList.map .expr ++ incr.toList.map .expr ++ [.stmt body]
  | foreachRange _ lower upper body _ => [.expr lower, .expr upper, .stmt body]
  | ret value => value.toList.map .expr
  | breakLoop | continueLoop => []

def inner (k : Stmt) : List StmtId :=
  k.parts.filterMap fun | .stmt s => some s | .expr _ => none

def symbol : Stmt → Option SymbolId
  | varDecl _ _ _ _ symbol | funcDecl _ symbol | foreachRange _ _ _ _ symbol => symbol
  | _ => none

/-- A statement without its parts and its symbol. -/
def shape : Stmt → Stmt
  | expr _ => expr ⟨0⟩
  | varDecl name type init storage _ => varDecl name type (init.map fun _ => ⟨0⟩) storage none
  | funcDecl d _ => funcDecl d.shape none
  | block stmts => block (stmts.map fun _ => ⟨0⟩)
  | scope _ => scope ⟨0⟩
  | ifElse _ _ no => ifElse ⟨0⟩ ⟨0⟩ (no.map fun _ => ⟨0⟩)
  | whileLoop _ _ => whileLoop ⟨0⟩ ⟨0⟩
  | forLoop init test incr _ =>
    forLoop (init.map fun _ => ⟨0⟩) (test.map fun _ => ⟨0⟩) (incr.map fun _ => ⟨0⟩) ⟨0⟩
  | foreachRange name _ _ _ _ => foreachRange name ⟨0⟩ ⟨0⟩ ⟨0⟩ none
  | ret value => ret (value.map fun _ => ⟨0⟩)
  | breakLoop => breakLoop
  | continueLoop => continueLoop
  | label name _ => label name ⟨0⟩

end Stmt

theorem FunctionDecl.expr_mem_parts {d : FunctionDecl} {e : ExprId} :
    .expr e ∈ d.parts ↔ ∃ p ∈ d.params, e ∈ p.default := by
  simp [parts]

theorem Stmt.expr_mem_parts {k : Stmt} {e : ExprId} :
    .expr e ∈ k.parts ↔ e ∈ k.exprs ∨ ∃ d s, k = funcDecl d s ∧ .expr e ∈ d.parts := by
  cases k <;> simp [parts, exprs]

section

variable {σ : Type} (f : ExprId → StateM σ ExprId) (k : Expr) (x : σ)

theorem Expr.sweeps_mapChildren :
    Sweeps f x k.children ((k.mapChildren f).run x).2 ((k.mapChildren f).run x).1.children := by
  cases k with
  | array elems | structValue _ elems | tuple elems | compiles elems => exact .mapM elems
  | dot | member | unary | cast | length => exact .cons .nil
  | binary | assign | comma | index => exact .cons (.cons .nil)
  | cond => exact .cons (.cons (.cons .nil))
  | call _ args => exact .cons (.mapM args)
  | slice _ lower upper => exact .cons ((Sweeps.option lower).append (.option upper))
  | _ => exact .nil

theorem Expr.shape_mapChildren : ((k.mapChildren f).run x).1.shape = k.shape := by
  have hlist (es : List ExprId) (y : σ) : ((es.mapM f).run y).1.mapM (m := Id)
      (fun _ => pure (ExprId.mk 0)) = es.mapM (m := Id) fun _ => pure (ExprId.mk 0) := by
    rw [mapM_pure, mapM_pure, (Sweeps.mapM es).map_eq fun _ _ => rfl]
  cases k with
  | array elems => exact congrArg array (hlist elems x)
  | structValue symbol elems => exact congrArg (structValue symbol) (hlist elems x)
  | tuple elems => exact congrArg tuple (hlist elems x)
  | compiles elems => exact congrArg compiles (hlist elems x)
  | call callee args => exact congrArg (call ⟨0⟩) (hlist args _)
  | slice _ lower upper => cases lower <;> cases upper <;> rfl
  | _ => rfl

end

namespace NodeTables

variable {x : NodeTables}

/-- Copy a node, given how to copy a statement. -/
def copyNode (f : StmtId → StateM NodeTables StmtId) : Node → StateM NodeTables Node
  | .expr e => .expr <$> copyExpr e
  | .stmt s => .stmt <$> f s

section

variable (f : StmtId → StateM NodeTables StmtId)

theorem sweeps_expr? (e : Option ExprId) : Sweeps (copyNode f) x (e.toList.map .expr)
    ((e.mapM copyExpr).run x).2 (((e.mapM copyExpr).run x).1.toList.map .expr) :=
  (Sweeps.option e).map fun _ _ => rfl

theorem sweeps_stmt? (s : Option StmtId) : Sweeps (copyNode f) x (s.toList.map .stmt)
    ((s.mapM f).run x).2 (((s.mapM f).run x).1.toList.map .stmt) :=
  (Sweeps.option s).map fun _ _ => rfl

theorem sweeps_copyFunctionWith (d : FunctionDecl) (x : NodeTables) :
    Sweeps (copyNode f) x d.parts ((copyFunctionWith f d).run x).2
      ((copyFunctionWith f d).run x).1.parts :=
  ((((Sweeps.mapM d.params).flatMap fun p _ => sweeps_expr? f p.default).append
    ((Sweeps.mapM d.requires).map fun _ _ => rfl)).append
      ((Sweeps.mapM d.ensures).map fun _ _ => rfl)).append (sweeps_stmt? f d.body)

theorem shape_copyFunctionWith (d : FunctionDecl) (x : NodeTables) :
    ((copyFunctionWith f d).run x).1.shape = d.shape := by
  simp only [FunctionDecl.shape]
  congr 1
  · refine (Sweeps.mapM d.params).map_eq fun p y => ?_
    exact congrArg (ParamDecl.mk p.name p.type p.storage · p.span) (const_mapM _ p.default y)
  · exact (Sweeps.mapM d.requires).map_eq fun _ _ => rfl
  · exact (Sweeps.mapM d.ensures).map_eq fun _ _ => rfl
  · exact const_mapM _ d.body _

theorem sweeps_copyKindWith (s : Stmt) (x : NodeTables) :
    Sweeps (copyNode f) x s.parts ((copyKindWith f s).run x).2
      ((copyKindWith f s).run x).1.parts := by
  cases s with
  | varDecl _ _ init => exact sweeps_expr? f init
  | funcDecl d => exact sweeps_copyFunctionWith f d x
  | block stmts => exact (Sweeps.mapM stmts).map fun _ _ => rfl
  | expr | scope | label => exact .cons .nil
  | ifElse _ _ no => exact .cons (.cons (sweeps_stmt? f no))
  | whileLoop => exact .cons (.cons .nil)
  | forLoop init test incr =>
    exact (((sweeps_stmt? f init).append (sweeps_expr? f test)).append (sweeps_expr? f incr)).append
      (.cons .nil)
  | foreachRange => exact .cons (.cons (.cons .nil))
  | ret value => exact sweeps_expr? f value
  | breakLoop | continueLoop => exact .nil

theorem shape_copyKindWith (s : Stmt) (x : NodeTables) :
    ((copyKindWith f s).run x).1.shape = s.shape ∧ ((copyKindWith f s).run x).1.symbol = none := by
  refine ⟨?_, by cases s <;> rfl⟩
  cases s with
  | varDecl name type init storage =>
    exact congrArg (Stmt.varDecl name type · storage none) (const_mapM _ init x)
  | funcDecl d => exact congrArg (Stmt.funcDecl · none) (shape_copyFunctionWith f d x)
  | block stmts => exact congrArg Stmt.block ((Sweeps.mapM stmts).map_eq fun _ _ => rfl)
  | ifElse _ _ no => exact congrArg (Stmt.ifElse ⟨0⟩ ⟨0⟩) (const_mapM _ no _)
  | forLoop init test incr => cases init <;> cases test <;> cases incr <;> rfl
  | ret value => exact congrArg Stmt.ret (const_mapM _ value x)
  | _ => rfl

end

end NodeTables

/-! ## Lists in step -/

theorem forall₂_imp_of_mem {α β : Type} {R S : α → β → Prop} {as : List α} {bs : List β}
    (h : Forall₂ R as bs) (hRS : ∀ a ∈ as, ∀ b ∈ bs, R a b → S a b) : Forall₂ S as bs := by
  obtain ⟨hlength, hzip⟩ := forall₂_iff_zip.mp h
  refine forall₂_iff_zip.mpr ⟨hlength, fun hab => ?_⟩
  exact hRS _ (of_mem_zip hab).1 _ (of_mem_zip hab).2 (hzip hab)

/-! ## Trees -/

inductive Entry where
  | expr (n : ExprNode)
  | stmt (n : StmtNode)

namespace Entry

def parts : Entry → List Node
  | expr n => n.kind.children.map .expr
  | stmt n => n.kind.parts

/-- The parts in the same table. -/
def peers : Entry → List Node
  | expr n => n.kind.children.map .expr
  | stmt n => n.kind.inner.map .stmt

def shape : Entry → Entry
  | expr n => expr { n with kind := n.kind.shape }
  | stmt n => stmt { n with kind := n.kind.shape }

def symbol : Entry → Option SymbolId
  | expr _ => none
  | stmt n => n.kind.symbol

theorem mem_parts_of_peers {x : Entry} {a : Node} (h : a ∈ x.peers) : a ∈ x.parts := by
  cases x with
  | expr n => exact h
  | stmt n =>
    obtain ⟨s, hs, rfl⟩ := mem_map.mp h
    obtain ⟨c, hc, hcs⟩ := mem_filterMap.mp hs
    cases c with
    | expr e => cases hcs
    | stmt s' =>
      cases hcs
      exact hc

end Entry

namespace NodeTables

def Has (x : NodeTables) : Node → Prop
  | .expr e => e.index < x.exprs.size
  | .stmt s => s.index < x.stmts.size

def entry (x : NodeTables) : Node → Entry
  | .expr e => .expr (x.exprs.node e)
  | .stmt s => .stmt (x.stmts.node s)

/-- The nodes below a node are a finite tree in the tables, with at most so many on each way
down. -/
def Whole (x : NodeTables) : Nat → Node → Prop
  | 0, _ => False
  | n + 1, a => x.Has a ∧ ∀ c ∈ (x.entry a).parts, x.Whole n c

/-- A node and all below it down to a depth, parents first. -/
def walkTo (x : NodeTables) : Nat → Node → List Node
  | 0, _ => []
  | n + 1, a => a :: (x.entry a).parts.flatMap (x.walkTo n)

/-- Down to a depth, the tree of the second node is that of the first one without symbols. -/
def Mirrors (x y : NodeTables) : Nat → Node → Node → Prop
  | 0, _, _ => True
  | n + 1, a, b =>
    (y.entry b).shape = (x.entry a).shape ∧ (y.entry b).symbol = none ∧
      Forall₂ (x.Mirrors y n) (x.entry a).parts (y.entry b).parts

/-- All nodes are as they were, and there may be more. -/
def Extends (x y : NodeTables) : Prop := ∀ a, x.Has a → y.Has a ∧ y.entry a = x.entry a

variable {x y z : NodeTables} {a b c : Node} {as bs : List Node} {m n : Nat}

theorem Extends.refl : x.Extends x := fun _ ha => ⟨ha, rfl⟩

theorem Extends.trans (hxy : x.Extends y) (hyz : y.Extends z) : x.Extends z := fun a ha =>
  ⟨(hyz a (hxy a ha).1).1, (hyz a (hxy a ha).1).2.trans (hxy a ha).2⟩

namespace Whole

theorem frame (h : x.Whole n a) (hxy : x.Extends y) : y.Whole n a := by
  induction n generalizing a with
  | zero => exact h
  | succ n ih =>
    obtain ⟨hhas, hentry⟩ := hxy a h.1
    refine ⟨hhas, fun c hc => ih (h.2 c ?_)⟩
    rwa [hentry] at hc

theorem walkTo_eq (h : x.Whole n a) (hxy : x.Extends y) : y.walkTo n a = x.walkTo n a := by
  induction n generalizing a with
  | zero => rfl
  | succ n ih =>
    rw [walkTo, walkTo, (hxy a h.1).2]
    exact congrArg (a :: ·) (flatMap_congr fun c hc => ih (h.2 c hc))

theorem ends (h : x.Whole n a) : Ends (fun a => (x.entry a).peers) n a := by
  induction n generalizing a with
  | zero => exact h
  | succ n ih => exact fun c hc => ih (h.2 c (Entry.mem_parts_of_peers hc))

theorem ends_frame (h : x.Whole n a) (hxy : x.Extends y)
    (hends : Ends (fun a => (x.entry a).peers) m a) : Ends (fun a => (y.entry a).peers) m a := by
  induction m generalizing n a with
  | zero => exact hends
  | succ m ih =>
    obtain _ | n := n
    · exact h.elim
    intro c hc
    have hpeer : c ∈ (x.entry a).peers := (hxy a h.1).2 ▸ hc
    exact ih (h.2 c (Entry.mem_parts_of_peers hpeer)) (hends c hpeer)

theorem mirrors {x' y' : NodeTables} (ha : x.Whole m a) (hb : y.Whole m b) (hx : x.Extends x')
    (hy : y.Extends y') (hab : x'.Mirrors y n a b) : x.Mirrors y' n a b := by
  induction n generalizing m a b with
  | zero => trivial
  | succ n ih =>
    obtain _ | m := m
    · exact ha.elim
    rw [Mirrors, (hx a ha.1).2] at hab
    rw [Mirrors, (hy b hb.1).2]
    refine ⟨hab.1, hab.2.1, forall₂_imp_of_mem hab.2.2 fun c hc d hd => ?_⟩
    exact ih (ha.2 c hc) (hb.2 d hd)

end Whole

structure Adds (x : NodeTables) (b : Node) (n : Entry) (y : NodeTables) : Prop where
  kept : x.Extends y
  new : ∀ c, ¬ x.Has c ∧ y.Has c ↔ c = b
  entry : y.entry b = n

theorem adds_expr (x : NodeTables) (n : ExprNode) :
    x.Adds (.expr (x.exprs.addNode n).1) (.expr n) { x with exprs := (x.exprs.addNode n).2 } where
  kept c hc := by
    have hgrown := Extends.addNode (t := x.exprs) n
    cases c with
    | expr e => exact ⟨Nat.lt_of_lt_of_le hc hgrown.size, congrArg Entry.expr (hgrown.node e hc)⟩
    | stmt s => exact ⟨hc, rfl⟩
  new c := by
    cases c with
    | expr e =>
      obtain ⟨i⟩ := e
      simp only [Has, size, addNode, Array.size_push, Node.expr.injEq, ExprId.mk.injEq]
      omega
    | stmt s => simp [Has]
  entry := congrArg Entry.expr (x.exprs.node_addNode_self n)

theorem adds_stmt (x : NodeTables) (k : Stmt) (span : Span) :
    x.Adds (.stmt (x.stmts.add k span).1) (.stmt ⟨k, span⟩)
      { x with stmts := (x.stmts.add k span).2 } where
  kept c hc := by
    have hgrown := StmtTable.Extends.add (t := x.stmts) k span
    cases c with
    | expr e => exact ⟨hc, rfl⟩
    | stmt s => exact ⟨Nat.lt_of_lt_of_le hc hgrown.size, congrArg Entry.stmt (hgrown.node s hc)⟩
  new c := by
    cases c with
    | expr e => simp [Has]
    | stmt s =>
      obtain ⟨i⟩ := s
      simp only [Has, StmtTable.size, StmtTable.add, Array.size_push, Node.stmt.injEq,
        StmtId.mk.injEq]
      omega
  entry := by simp [NodeTables.entry, StmtTable.node, StmtTable.add]

/-! ## Copies -/

/-- The second tables are the first ones with copies of the nodes of a list. -/
structure Copied (x : NodeTables) (n : Nat) (as : List Node) (y : NodeTables) (bs : List Node) :
    Prop where
  kept : x.Extends y
  mirrors : ∀ m, Forall₂ (x.Mirrors y m) as bs
  whole : ∀ b ∈ bs, y.Whole n b
  nodup : (bs.flatMap (y.walkTo n)).Nodup
  new : ∀ c, c ∈ bs.flatMap (y.walkTo n) ↔ ¬ x.Has c ∧ y.Has c

theorem Copied.cons (hwhole : ∀ c ∈ a :: as, x.Whole n c) (h : x.Copied n [a] y [b])
    (h' : y.Copied n as z bs) : x.Copied n (a :: as) z (b :: bs) := by
  have hb := h.whole b mem_cons_self
  have hwalk := hb.walkTo_eq h'.kept
  have hnodup := h.nodup
  have hnew := h.new
  rw [flatMap_singleton] at hnodup hnew
  constructor
  case kept => exact h.kept.trans h'.kept
  case mirrors =>
    intro m
    obtain - | ⟨hab, -⟩ := h.mirrors m
    refine .cons ((hwhole a mem_cons_self).mirrors hb .refl h'.kept hab) ?_
    refine forall₂_imp_of_mem (h'.mirrors m) fun c hc d hd => ?_
    exact (hwhole c (mem_cons_of_mem a hc)).mirrors (h'.whole d hd) h.kept .refl
  case whole => exact forall_mem_cons.mpr ⟨hb.frame h'.kept, h'.whole⟩
  case nodup =>
    rw [flatMap_cons, hwalk]
    refine nodup_append.mpr ⟨hnodup, h'.nodup, fun c hc d hd hcd => ?_⟩
    subst hcd
    exact ((h'.new c).mp hd).1 ((hnew c).mp hc).2
  case new =>
    intro c
    rw [flatMap_cons, hwalk, mem_append, hnew, h'.new]
    have hxy : x.Has c → y.Has c := fun hc => (h.kept c hc).1
    have hyz : y.Has c → z.Has c := fun hc => (h'.kept c hc).1
    tauto

/-- A node is copied by copying its parts and adding one that has them as its parts. -/
theorem Copied.root (node : Entry) (h : x.Copied n (x.entry a).parts y node.parts)
    (hadds : y.Adds b node z) (hshape : node.shape = (x.entry a).shape)
    (hsymbol : node.symbol = none) (hwhole : ∀ c ∈ (x.entry a).parts, x.Whole n c) :
    x.Copied (n + 1) [a] z [b] := by
  obtain ⟨hkept, hadded, rfl⟩ := hadds
  have hb := (hadded b).mpr rfl
  have hwalk : (z.entry b).parts.flatMap (z.walkTo n) = (z.entry b).parts.flatMap (y.walkTo n) :=
    flatMap_congr fun c hc => (h.whole c hc).walkTo_eq hkept
  constructor
  case kept => exact h.kept.trans hkept
  case mirrors =>
    intro m
    obtain _ | m := m
    · exact .cons trivial .nil
    · refine .cons ⟨hshape, hsymbol, forall₂_imp_of_mem (h.mirrors m) fun c hc d hd => ?_⟩ .nil
      exact (hwhole c hc).mirrors (h.whole d hd) .refl hkept
  case whole =>
    refine forall_mem_singleton.mpr ⟨hb.2, fun c hc => ?_⟩
    exact (h.whole c hc).frame hkept
  case nodup =>
    rw [flatMap_singleton, walkTo, hwalk]
    exact nodup_cons.mpr ⟨fun hmem => hb.1 ((h.new b).mp hmem).2, h.nodup⟩
  case new =>
    intro c
    rw [flatMap_singleton, walkTo, hwalk, mem_cons, h.new, ← hadded]
    have hxy : x.Has c → y.Has c := fun hc => (h.kept c hc).1
    have hyz : y.Has c → z.Has c := fun hc => (hkept c hc).1
    tauto

theorem Copied.sweeps {σ α : Type} {v : σ → NodeTables} {g : α → Node} {f : α → StateM σ α}
    {s t : σ} {as bs : List α} (h : Sweeps f s as t bs)
    (hwhole : ∀ a ∈ as, (v s).Whole n (g a))
    (hf : ∀ a ∈ as, ∀ t, (v s).Extends (v t) →
      (v t).Copied n [g a] (v ((f a).run t).2) [g ((f a).run t).1]) :
    (v s).Copied n (as.map g) (v t) (bs.map g) := by
  induction h with
  | nil =>
    exact ⟨.refl, fun _ => .nil, fun _ hb => (nomatch hb), .nil, fun c => by simp⟩
  | @cons s t a as bs _ ih =>
    have hfirst := hf a mem_cons_self s .refl
    refine hfirst.cons (forall_mem_map.mpr hwhole) (ih (fun c hc => ?_) fun c hc t ht => ?_)
    · exact (hwhole c (mem_cons_of_mem a hc)).frame hfirst.kept
    · exact hf c (mem_cons_of_mem a hc) t (hfirst.kept.trans ht)

theorem copied_copyTo {t : ExprTable} {stmts : StmtTable} {e : ExprId} {depth : Nat}
    (h : Whole ⟨t, stmts⟩ n (.expr e))
    (hends : Ends (fun a => (entry ⟨t, stmts⟩ a).peers) depth (.expr e)) :
    Copied ⟨t, stmts⟩ n [.expr e] ⟨((copyTo depth e).run t).2, stmts⟩
      [.expr ((copyTo depth e).run t).1] := by
  induction depth generalizing t n e with
  | zero => exact hends.elim
  | succ depth ih =>
    obtain _ | n := n
    · exact h.elim
    have hsweeps := (t.kind e).sweeps_mapChildren (copyTo depth) t
    have hwhole (c : ExprId) (hc : c ∈ (t.kind e).children) := h.2 (.expr c) (mem_map_of_mem hc)
    have hparts := Copied.sweeps (v := (⟨·, stmts⟩)) hsweeps hwhole fun c hc u htu =>
      ih ((hwhole c hc).frame htu) ((hwhole c hc).ends_frame htu (hends _ (mem_map_of_mem hc)))
    refine Copied.root (.expr ⟨_, _, _⟩) hparts (adds_expr _ _) ?_ rfl h.2
    exact congrArg (fun k => Entry.expr { t.node e with kind := k })
      ((t.kind e).shape_mapChildren (copyTo depth) t)

theorem ends_iff {α : Type} {parts : α → List α} {peers : Node → List Node} {g : α → Node}
    (h : ∀ a, peers (g a) = (parts a).map g) (a : α) : Ends peers n (g a) ↔ Ends parts n a := by
  induction n generalizing a with
  | zero => rfl
  | succ n ih =>
    rw [Ends, Ends, h, forall_mem_map]
    exact forall₂_congr fun c _ => ih c

theorem copied_copyExpr {e : ExprId} (h : x.Whole n (.expr e)) :
    x.Copied n [.expr e] ((copyExpr e).run x).2 [.expr ((copyExpr e).run x).1] := by
  have hiff (n : Nat) : Ends (fun a => (x.entry a).peers) n (.expr e) ↔ Ends x.exprs.children n e :=
    ends_iff (fun _ => rfl) e
  have hends := ends_size (fun _ _ => congrArg ExprId.mk) index_lt_of_child
    ((hiff n).mp h.ends)
  exact copied_copyTo h ((hiff _).mpr hends)

theorem copied_of_sweeps {f : StmtId → StateM NodeTables StmtId} (hwhole : ∀ a ∈ as, x.Whole n a)
    (h : Sweeps (copyNode f) x as y bs) (hf : ∀ s, .stmt s ∈ as → ∀ y, x.Extends y →
      y.Copied n [.stmt s] ((f s).run y).2 [.stmt ((f s).run y).1]) : x.Copied n as y bs := by
  have hcopied := Copied.sweeps (v := id) (g := id) h hwhole fun c hc y hxy => by
    cases c with
    | expr e => exact copied_copyExpr ((hwhole _ hc).frame hxy)
    | stmt s => exact hf s hc y hxy
  rwa [map_id, map_id] at hcopied

theorem copied_copyStmtTo {s : StmtId} {depth : Nat} (h : x.Whole n (.stmt s))
    (hends : Ends (fun a => (x.entry a).peers) depth (.stmt s)) :
    x.Copied n [.stmt s] ((copyStmtTo depth s).run x).2 [.stmt ((copyStmtTo depth s).run x).1] := by
  induction depth generalizing x n s with
  | zero => exact hends.elim
  | succ depth ih =>
    obtain _ | n := n
    · exact h.elim
    have hparts := copied_of_sweeps h.2 (sweeps_copyKindWith (copyStmtTo depth) (x.stmts.kind s) x)
      fun s' hs' y hxy => by
        refine ih ((h.2 _ hs').frame hxy) ((h.2 _ hs').ends_frame hxy (hends _ ?_))
        exact mem_map_of_mem (mem_filterMap.mpr ⟨_, hs', rfl⟩)
    obtain ⟨hshape, hsymbol⟩ := shape_copyKindWith (copyStmtTo depth) (x.stmts.kind s) x
    refine Copied.root (.stmt ⟨_, _⟩) hparts (adds_stmt _ _ _) ?_ hsymbol h.2
    exact congrArg (fun k => Entry.stmt { x.stmts.node s with kind := k }) hshape

theorem index_lt_of_inner {s c : StmtId} (hc : c ∈ (x.stmts.kind s).inner) :
    s.index < x.stmts.size := by
  refine StmtTable.index_lt_of_kind fun hempty => ?_
  rw [hempty] at hc
  cases hc

theorem copied_copyStmt {s : StmtId} (h : x.Whole n (.stmt s)) :
    x.Copied n [.stmt s] ((copyStmt s).run x).2 [.stmt ((copyStmt s).run x).1] := by
  have hiff (n : Nat) : Ends (fun a => (x.entry a).peers) n (.stmt s) ↔
      Ends (fun s => (x.stmts.kind s).inner) n s :=
    ends_iff (fun _ => rfl) s
  have hends := ends_size (fun _ _ => congrArg StmtId.mk) index_lt_of_inner ((hiff n).mp h.ends)
  exact copied_copyStmtTo h ((hiff _).mpr hends)

theorem copied_copyFunction {d : FunctionDecl} (h : ∀ a ∈ d.parts, x.Whole n a) :
    x.Copied n d.parts ((copyFunction d).run x).2 ((copyFunction d).run x).1.parts :=
  copied_of_sweeps h (sweeps_copyFunctionWith copyStmt d x) fun _ hs _ hxy =>
    copied_copyStmt ((h _ hs).frame hxy)

/-- A copy has the tree of the original, and each node of it is new and in one place. Later changes
to the nodes of the copy do not reach the nodes that were there before. -/
theorem copies_are_faithful (x : NodeTables) (n : Nat) :
    (∀ e, x.Whole n (.expr e) →
      x.Copied n [.expr e] ((copyExpr e).run x).2 [.expr ((copyExpr e).run x).1]) ∧
    (∀ s, x.Whole n (.stmt s) →
      x.Copied n [.stmt s] ((copyStmt s).run x).2 [.stmt ((copyStmt s).run x).1]) ∧
    (∀ d, (∀ a ∈ d.parts, x.Whole n a) → ((copyFunction d).run x).1.shape = d.shape ∧
      x.Copied n d.parts ((copyFunction d).run x).2 ((copyFunction d).run x).1.parts) ∧
    ∀ as y bs, x.Copied n as y bs →
      ∀ z : NodeTables, (∀ c, c ∉ bs.flatMap (y.walkTo n) → z.entry c = y.entry c) →
        ∀ c, x.Has c → z.entry c = x.entry c := by
  refine ⟨fun _ => copied_copyExpr, fun _ => copied_copyStmt, fun d hd => ?_, ?_⟩
  · exact ⟨shape_copyFunctionWith copyStmt d x, copied_copyFunction hd⟩
  · intro as y bs h z hz c hc
    rw [hz c fun hmem => ((h.new c).mp hmem).1 hc]
    exact (h.kept c hc).2

instance decidableHas (x : NodeTables) : (a : Node) → Decidable (x.Has a)
  | .expr e => inferInstanceAs (Decidable (e.index < x.exprs.size))
  | .stmt s => inferInstanceAs (Decidable (s.index < x.stmts.size))

instance decidableWhole (x : NodeTables) : (n : Nat) → (a : Node) → Decidable (x.Whole n a)
  | 0, _ => .isFalse id
  | n + 1, a =>
    have := x.decidableWhole n
    inferInstanceAs (Decidable (x.Has a ∧ ∀ c ∈ (x.entry a).parts, x.Whole n c))

/-- The tables of `int next(int n = 1) { return n + 1; }`. -/
def nextTables : NodeTables where
  exprs := ⟨#[⟨.integer 1 none, .synthetic, none⟩, ⟨.identifier "n", .synthetic, none⟩,
    ⟨.integer 1 none, .synthetic, none⟩, ⟨.binary .add ⟨1⟩ ⟨2⟩, .synthetic, none⟩]⟩
  stmts := ⟨#[⟨.ret (some ⟨3⟩), .synthetic⟩, ⟨.block [⟨0⟩], .synthetic⟩]⟩

theorem copies_are_faithful_next : nextTables.Whole 4 (.stmt ⟨1⟩) ∧
    nextTables.Copied 4 [.stmt ⟨1⟩] ((copyStmt ⟨1⟩).run nextTables).2 [.stmt ⟨3⟩] :=
  ⟨by decide, (copies_are_faithful nextTables 4).2.1 ⟨1⟩ (by decide)⟩

end NodeTables

end DCompiler
