import Mathlib.Data.List.Nodup
import Mathlib.Data.List.Perm.Subperm
import DCompiler.Symbol.Table

/-!
# Changes to tables, and walks through them

Walks through a table go from an entry to its parts, down to a bounded depth. An entry that comes to
an end on every way is not below itself, so the number of entries is depth enough (`ends_size`).

What an entry of a table is after one was added or another one was changed. A table that only had
entries added (`Extends`) has all it had before. A place behind the end of the table of symbols
stands for an empty module, so it is neither a variable nor a function. Walks from base to base have
a bound, which does not cut them short where no class is among its own bases.
-/

namespace DCompiler

open List

variable {α : Type} {parts : α → List α} {a : α} {m n : Nat}

/-- There are at most so many entries on each way down from an entry, with itself. -/
def Ends (parts : α → List α) : Nat → α → Prop
  | 0, _ => False
  | n + 1, a => ∀ c ∈ parts a, Ends parts n c

theorem Ends.mono (h : Ends parts m a) (hmn : m ≤ n) : Ends parts n a := by
  induction m generalizing n a with
  | zero => exact h.elim
  | succ m ih =>
    obtain ⟨n, rfl⟩ := Nat.exists_eq_add_of_le' (Nat.le_trans (Nat.le_add_left 1 m) hmn)
    exact fun c hc => ih (h c hc) (Nat.le_of_succ_le_succ hmn)

theorem exists_ends (h : ∀ c ∈ parts a, ∃ n, Ends parts n c) : ∃ n, Ends parts n a := by
  suffices hcs : ∀ cs : List α, (∀ c ∈ cs, ∃ n, Ends parts n c) → ∃ n, ∀ c ∈ cs, Ends parts n c by
    obtain ⟨n, hn⟩ := hcs _ h
    exact ⟨n + 1, hn⟩
  intro cs hcs
  induction cs with
  | nil => exact ⟨0, by simp⟩
  | cons c cs ih =>
    obtain ⟨⟨m, hm⟩, hcs⟩ := forall_mem_cons.mp hcs
    obtain ⟨n, hn⟩ := ih hcs
    refine ⟨max m n, forall_mem_cons.mpr ⟨hm.mono (Nat.le_max_left m n), fun c hc => ?_⟩⟩
    exact (hn c hc).mono (Nat.le_max_right m n)

/-- The longest way down has one entry more than `n`. -/
def Deep (parts : α → List α) (n : Nat) (a : α) : Prop := Ends parts (n + 1) a ∧ ¬ Ends parts n a

theorem Deep.eq (hm : Deep parts m a) (hn : Deep parts n a) : m = n := by
  rcases Nat.lt_trichotomy m n with h | h | h
  · exact absurd (hm.1.mono h) hn.2
  · exact h
  · exact absurd (hn.1.mono h) hm.2

theorem Deep.child (h : Deep parts (n + 1) a) : ∃ c ∈ parts a, Deep parts n c := by
  obtain ⟨hends, hnot⟩ := h
  by_contra hall
  exact hnot fun c hc => by
    by_contra hc'
    exact hall ⟨c, hc, hends c hc, hc'⟩

/-- The entries of a longest way are different, as each is less deep than the one before. -/
theorem Deep.way (h : Deep parts n a) :
    ∃ as : List α, as.Nodup ∧ as.length = n ∧
      ∀ x ∈ as, (∃ c, c ∈ parts x) ∧ ∃ m ≤ n, Deep parts m x := by
  induction n generalizing a with
  | zero => exact ⟨[], .nil, rfl, by simp⟩
  | succ n ih =>
    obtain ⟨c, hc, hdeep⟩ := h.child
    obtain ⟨as, hnodup, hlength, has⟩ := ih hdeep
    refine ⟨a :: as, nodup_cons.mpr ⟨fun hmem => ?_, hnodup⟩, by rw [length_cons, hlength],
      forall_mem_cons.mpr ⟨⟨⟨c, hc⟩, n + 1, .refl, h⟩, fun x hx => ?_⟩⟩
    · obtain ⟨-, m, hm, hdeep'⟩ := has a hmem
      have := h.eq hdeep'
      omega
    · obtain ⟨hparts, m, hm, hdeep'⟩ := has x hx
      exact ⟨hparts, m, Nat.le_succ_of_le hm, hdeep'⟩

variable {index : α → Nat} {size : Nat} (hindex : index.Injective)
  (hsize : ∀ {a c}, c ∈ parts a → index a < size)
include hindex hsize

theorem Deep.le_size (h : Deep parts n a) : n ≤ size := by
  obtain ⟨as, hnodup, hlength, has⟩ := h.way
  have hrange : as.map index ⊆ List.range size := by
    intro i hi
    obtain ⟨x, hx, rfl⟩ := mem_map.mp hi
    obtain ⟨c, hc⟩ := (has x hx).1
    exact mem_range.mpr (hsize hc)
  simpa [hlength] using ((hnodup.map hindex).subperm hrange).length_le

/-- An entry is no deeper than the table is long. -/
theorem ends_size (h : Ends parts n a) : Ends parts (size + 1) a := by
  induction n with
  | zero => exact h.elim
  | succ n ih =>
    by_cases hn : Ends parts n a
    · exact ih hn
    · exact h.mono (Nat.succ_le_succ (Deep.le_size hindex hsize ⟨h, hn⟩))

end DCompiler

namespace DCompiler.ExprTable

variable (t : ExprTable) {e : ExprId} {u : ExprTable} {k : Expr}

theorem getElem?_node {t : ExprTable} (he : e.index < t.size) :
    t.nodes[e.index]? = some (t.node e) := by
  have hlt : e.index < t.nodes.size := he
  rw [node, Array.getElem?_eq_getElem hlt, Option.getD_some]

theorem node_addNode (n : ExprNode) (j : ExprId) :
    (t.addNode n).2.node j = if j.index = t.size then n else t.node j := by
  simp only [node, addNode, Array.getElem?_push, size]
  split <;> simp_all

@[simp] theorem node_addNode_self (n : ExprNode) : (t.addNode n).2.node (t.addNode n).1 = n := by
  rw [node_addNode]
  exact if_pos rfl

@[simp] theorem size_addNode (n : ExprNode) : (t.addNode n).2.size = t.size + 1 := by
  simp [addNode, size]

/-! ## Entries that are replaced -/

theorem node_modify (id j : ExprId) (f : ExprNode → ExprNode) :
    node ⟨t.nodes.modify id.index f⟩ j =
      if j = id ∧ id.index < t.size then f (t.node id) else t.node j := by
  obtain ⟨i⟩ := id
  obtain ⟨k⟩ := j
  simp only [node, Array.getElem?_modify, size, ExprId.mk.injEq]
  grind

theorem node_setNode (id j : ExprId) (n : ExprNode) : (t.setNode id n).node j =
    if j = id ∧ id.index < t.size then n else t.node j := by
  obtain ⟨i⟩ := id
  obtain ⟨k⟩ := j
  simp only [node, setNode, Array.getElem?_setIfInBounds, size, ExprId.mk.injEq]
  grind

/-- Table `u` is `t` with `n` in the place of `e`, if `t` has that place. -/
structure Replaces (t : ExprTable) (e : ExprId) (n : ExprNode) (u : ExprTable) : Prop where
  size : u.size = t.size
  node : ∀ j, u.node j = if j = e ∧ e.index < t.size then n else t.node j

theorem Replaces.self {t : ExprTable} {n : ExprNode} (h : t.Replaces e n u)
    (he : e.index < t.size) : u.node e = n := by
  rw [h.node, if_pos ⟨rfl, he⟩]

variable (e : ExprId) (k : Expr) (type : TypeId) (n : ExprNode)

theorem replaces_setKind : t.Replaces e { t.node e with kind := k } (t.setKind e k) :=
  ⟨by simp [setKind, size], fun j => t.node_modify e j _⟩

theorem replaces_setType : t.Replaces e { t.node e with type := some type } (t.setType e type) :=
  ⟨by simp [setType, size], fun j => t.node_modify e j _⟩

theorem replaces_setNode : t.Replaces e n (t.setNode e n) :=
  ⟨by simp [setNode, size], fun j => t.node_setNode e j n⟩

theorem replaces_settle :
    t.Replaces e ⟨k, (t.node e).span, some type⟩ ((t.setKind e k).setType e type) := by
  have hkind := t.replaces_setKind e k
  have htype := (t.setKind e k).replaces_setType e type
  refine ⟨htype.size.trans hkind.size, fun j => ?_⟩
  rw [htype.node, hkind.size, hkind.node j]
  split
  · rename_i hj
    rw [hkind.self hj.2]
  · rfl

variable {e k}

/-! ## Tables that grow -/

/-- A table has the entries of another one, and maybe more. -/
structure Extends (t u : ExprTable) : Prop where
  size : t.size ≤ u.size
  node : ∀ e : ExprId, e.index < t.size → u.node e = t.node e

variable {t}

theorem Extends.refl : t.Extends t := ⟨.refl, fun _ _ => rfl⟩

theorem Extends.trans {v : ExprTable} (h : t.Extends u) (h' : u.Extends v) : t.Extends v where
  size := Nat.le_trans h.size h'.size
  node e he := by rw [h'.node e (Nat.lt_of_lt_of_le he h.size), h.node e he]

theorem Extends.addNode (n : ExprNode) : t.Extends (t.addNode n).2 where
  size := by simp
  node e he := by rw [node_addNode, if_neg (Nat.ne_of_lt he)]

theorem index_lt_of_kind (h : t.kind e = k) (hk : k ≠ .error) : e.index < t.size := by
  refine Nat.lt_of_not_le fun hout => hk ?_
  have hnone : t.nodes[e.index]? = none := Array.getElem?_eq_none hout
  rw [← h, kind, node, hnone]
  rfl

theorem Extends.kind (h : t.Extends u) (he : t.kind e = k) (hk : k ≠ .error) : u.kind e = k := by
  rw [ExprTable.kind, h.node e (index_lt_of_kind he hk)]
  exact he

end DCompiler.ExprTable

namespace DCompiler

/-- A table has the statements of another one, and maybe more. -/
structure StmtTable.Extends (t u : StmtTable) : Prop where
  size : t.size ≤ u.size
  node : ∀ b : StmtId, b.index < t.size → u.node b = t.node b

namespace StmtTable

variable {t u v : StmtTable}

theorem Extends.refl : t.Extends t := ⟨.refl, fun _ _ => rfl⟩

theorem Extends.trans (h : t.Extends u) (h' : u.Extends v) : t.Extends v where
  size := Nat.le_trans h.size h'.size
  node b hb := by rw [h'.node b (Nat.lt_of_lt_of_le hb h.size), h.node b hb]

theorem Extends.add (k : Stmt) (span : Span) : t.Extends (t.add k span).2 where
  size := by simp [StmtTable.size, StmtTable.add]
  node b hb := by
    have hne : b.index ≠ t.nodes.size := Nat.ne_of_lt hb
    simp only [StmtTable.node, StmtTable.add, Array.getElem?_push, if_neg hne]

theorem kind_add (k : Stmt) (span : Span) : (t.add k span).2.kind (t.add k span).1 = k := by
  simp [kind, node, StmtTable.add]

theorem kind_add_other (k : Stmt) (span : Span) (b : StmtId) :
    (t.add k span).2.kind b = if b.index = t.size then k else t.kind b := by
  simp only [kind, node, add, Array.getElem?_push, StmtTable.size]
  split <;> simp_all

theorem node_settle (id b : StmtId) (k : Stmt) : (t.settle id k).node b =
    if b = id ∧ id.index < t.size then { t.node id with kind := (t.kind id).settle k }
    else t.node b := by
  obtain ⟨i⟩ := id
  obtain ⟨j⟩ := b
  simp only [kind, node, settle, Array.getElem?_modify, StmtTable.size, StmtId.mk.injEq]
  grind

theorem index_lt_of_kind {b : StmtId} (hb : t.kind b ≠ .block []) : b.index < t.size := by
  refine Nat.lt_of_not_le fun hout => hb ?_
  have hnone : t.nodes[b.index]? = none := Array.getElem?_eq_none hout
  rw [kind, node, hnone]
  rfl

theorem Extends.kind (h : t.Extends u) {b : StmtId} {k : Stmt} (hb : t.kind b = k)
    (hk : k ≠ .block []) : u.kind b = k := by
  rw [StmtTable.kind, h.node b (index_lt_of_kind (hb ▸ hk))]
  exact hb

end StmtTable

end DCompiler

namespace DCompiler.SymbolTable

variable (t : SymbolTable) (id j : SymbolId)

theorem kind_of_size_le {t : SymbolTable} {id : SymbolId} (h : t.size ≤ id.index) :
    t.kind id = .module [] := by
  have hnone : t.symbols[id.index]? = none := Array.getElem?_eq_none h
  simp only [kind, symbol, hnone, Option.getD_none]
  rfl

theorem func?_eq_some {t : SymbolTable} {id : SymbolId} {f : Function} :
    t.func? id = some f ↔ t.kind id = .func f := by
  unfold func? Symbol.func? kind
  cases (t.symbol id).kind <;> simp

theorem var?_eq_some {t : SymbolTable} {id : SymbolId} {v : Variable} :
    t.var? id = some v ↔ t.kind id = .var v := by
  unfold var? Symbol.var? kind
  cases (t.symbol id).kind <;> simp

theorem aggregate?_eq_some {t : SymbolTable} {id : SymbolId} {a : Aggregate} :
    t.aggregate? id = some a ↔ t.kind id = .aggregate a := by
  unfold aggregate? Symbol.aggregate? kind
  cases (t.symbol id).kind <;> simp

theorem lt_size_of_func? {t : SymbolTable} {id : SymbolId} {f : Function}
    (h : t.func? id = some f) : id.index < t.size := by
  refine Nat.lt_of_not_le fun hle => ?_
  rw [func?_eq_some, kind_of_size_le hle] at h
  cases h

/-! ## Kinds -/

theorem symbol_modify (f : Symbol → Symbol) :
    (t.modify id f).symbol j =
      if j = id ∧ id.index < t.size then f (t.symbol j) else t.symbol j := by
  obtain ⟨i⟩ := id
  obtain ⟨k⟩ := j
  simp only [symbol, modify, Array.getElem?_modify, size, SymbolId.mk.injEq]
  grind

@[simp] theorem kind_setParent (p : Option SymbolId) : (t.setParent id p).kind j = t.kind j := by
  simp only [kind, setParent, symbol_modify]
  split <;> rfl

theorem kind_modifyKind (f : SymbolKind → SymbolKind) :
    (t.modifyKind id f).kind j =
      if j = id ∧ id.index < t.size then f (t.kind j) else t.kind j := by
  simp only [kind, modifyKind, symbol_modify]
  split <;> rfl

theorem kind_add (name : String) (span : Span) (k : SymbolKind) :
    (t.add name span k).2.kind j = if j.index = t.size then k else t.kind j := by
  simp only [kind, symbol, add, Array.getElem?_push, size]
  split <;> simp_all

/-- A change that keeps empty modules need not ask whether the symbol exists. -/
theorem kind_modifyKind_self {f : SymbolKind → SymbolKind} (hf : f (.module []) = .module []) :
    (t.modifyKind id f).kind id = f (t.kind id) := by
  rw [kind_modifyKind]
  by_cases h : id.index < t.size
  · simp [h]
  · simp [h, kind_of_size_le (Nat.le_of_not_lt h), hf]

theorem func?_modifyFunc (f : Function → Function) :
    (t.modifyFunc id f).func? j = if j = id then (t.func? j).map f else t.func? j := by
  by_cases hj : j = id
  · subst hj
    have hk : (t.modifyFunc j f).kind j = _ := kind_modifyKind_self t j rfl
    unfold func? Symbol.func? kind at *
    rw [hk]
    cases (t.symbol j).kind <;> simp
  · have hk : (t.modifyFunc id f).kind j = t.kind j := by
      simp [modifyFunc, kind_modifyKind, hj]
    unfold func? Symbol.func? kind at *
    rw [hk]
    simp [hj]

/-! ## Base classes -/

section

def base? (t : SymbolTable) (id : SymbolId) : Option SymbolId := (t.aggregate? id).bind (·.base)

/-- From each symbol, the way from base to base comes to an end. -/
def Acyclic (t : SymbolTable) : Prop := WellFounded fun b a => t.base? a = some b

variable {t : SymbolTable} {id : SymbolId}

theorem index_lt_of_base? {b : SymbolId} (h : t.base? id = some b) : id.index < t.size := by
  refine Nat.lt_of_not_le fun hle => ?_
  obtain ⟨a, ha, -⟩ := Option.bind_eq_some_iff.mp h
  rw [aggregate?_eq_some, kind_of_size_le hle] at ha
  cases ha

theorem Acyclic.ends (ht : t.Acyclic) (id : SymbolId) :
    Ends (fun a => (t.base? a).toList) (t.size + 1) id := by
  have hends : ∃ n, Ends (fun a => (t.base? a).toList) n id := by
    induction id using ht.induction with
    | _ id ih => exact exists_ends fun b hb => ih b (Option.mem_toList.mp hb)
  obtain ⟨n, hn⟩ := hends
  exact ends_size (fun _ _ => congrArg SymbolId.mk)
    (fun hb => index_lt_of_base? (Option.mem_toList.mp hb)) hn

variable {β : Type} {walk : Nat → Option SymbolId → β} {stop : β} {step : SymbolId → β → β}
  (hnone : ∀ n, walk n none = stop)
  (hsome : ∀ n id, walk (n + 1) (some id) = step id (walk n (t.base? id)))
include hnone hsome

end

end DCompiler.SymbolTable
