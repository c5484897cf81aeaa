import DCompiler.Program
import DCompiler.Proofs.Tables.Reach

/-!
# Sound tables

What the tables of a program are like when no error was met on the way.

The types of some symbols may be unknown for a while (`Gaps`): those of variables between their
declaration and their initial value, and those of structs, classes and enumerations while names are
declared.
-/

namespace DCompiler

open Option SymbolTable

variable {id c : TypeId} {k : TypeKind} {m : Nat} {e : ExprId} {s : SymbolId} {gap : Prop}
  {t : TypeId} {r : Reach}

/-! ## Types of later tables -/

namespace TypeTable

variable {t u : TypeTable} {n : Nat}

section

variable (h : t.Grows u) (hid : id.index < t.size)
include h hid

theorem Grows.base_eq : u.base id = t.base id ∧ (t.base id).index < t.size := by
  induction hi : id.index using Nat.strongRecOn generalizing id with
  | ind i ih =>
    unfold base
    rw [h.kind_eq hid]
    split
    · split
      · rename_i hlt
        exact ih _ (hi ▸ hlt) (Nat.lt_trans hlt hid) rfl
      · exact ⟨rfl, hid⟩
    · exact ⟨rfl, hid⟩

theorem Grows.baseKind_eq : u.baseKind id = t.baseKind id := by
  obtain ⟨hbase, hlt⟩ := h.base_eq hid
  rw [baseKind, baseKind, hbase, h.kind_eq hlt]

theorem Grows.next?_eq : u.next? id = t.next? id := by
  rw [next?, next?, h.baseKind_eq hid]

end

/-- A delegate, which is what a lazy parameter is behind its name. -/
def IsDelegate (t : TypeTable) (id : TypeId) : Prop :=
  ∃ f, t.kinds[id.index]? = some (.delegate f)

theorem IsDelegate.grows (h : t.IsDelegate id) (hu : t.Grows u) : u.IsDelegate id := by
  obtain ⟨f, hf⟩ := h
  exact ⟨f, hu.kinds_eq hf⟩

section

variable (h : t.WellFormed n)
include h

theorem WellFormed.kind_error : t.kind .error = .error := by
  have herror : t.kinds[TypeId.error.index]? = some .error := h.kinds_fixed (by decide)
  rw [kind, herror, getD_some]

theorem WellFormed.known_iff : id.Known ⟨m, t.size⟩ ↔ t.kind id ≠ .error := by
  have hsize := h.fromInitial.size_le
  constructor
  · rintro hid hk
    have hlt : id.index < t.size := hid.lt hsize
    have hkind : t.kinds[id.index]? = some .error := by
      have : t.kinds[id.index]? = some t.kinds[id.index] := Array.getElem?_eq_getElem hlt
      rw [kind, this] at hk
      rw [this]
      exact congrArg some hk
    have herror : t.kinds[TypeId.error.index]? = some .error := h.kinds_fixed (by decide)
    have hindex := h.fromInitial.unique initial_unique hkind herror
    exact hid.2 (by cases id; exact congrArg TypeId.mk hindex)
  · intro hk
    refine ⟨?_, fun herror => hk (herror ▸ h.kind_error)⟩
    have hlt := (Array.getElem?_eq_some_iff.mp (kinds_of_kind rfl hk)).1
    exact Nat.lt_of_lt_of_le hlt (Nat.le_max_right _ _)

theorem WellFormed.known_of_kind (hk : t.kind id = k) (hne : k ≠ .error) : id.Known ⟨m, t.size⟩ :=
  h.known_iff.mpr (hk ▸ hne)

theorem WellFormed.isError_eq (hid : id.Known ⟨m, t.size⟩) : t.isError id = false := by
  simpa [isError] using h.known_iff.mp hid

theorem WellFormed.known_component (hk : t.kind id = k) (hc : c ∈ k.components) :
    c.Known ⟨m, t.size⟩ := by
  have hne : k ≠ .error := by
    rintro rfl
    simp [TypeKind.components] at hc
  have hkinds := kinds_of_kind hk hne
  have hlt := (Array.getElem?_eq_some_iff.mp hkinds).1
  obtain ⟨hc, herror⟩ := h.ordered hkinds c hc
  exact ⟨Nat.lt_of_lt_of_le (Nat.lt_trans hc hlt) (Nat.le_max_right _ _), herror⟩

theorem WellFormed.known_next (hc : t.next? id = some c) : c.Known ⟨m, t.size⟩ := by
  unfold next? baseKind at hc
  split at hc <;> cases hc <;>
    exact h.known_component ‹_› (by simp [TypeKind.components])

theorem WellFormed.known_element (hc : t.element? id = some c) : c.Known ⟨m, t.size⟩ := by
  unfold element? baseKind at hc
  split at hc <;> cases hc <;>
    exact h.known_component ‹_› (by simp [TypeKind.components])

end

theorem IsFunction.signature (h : t.IsFunction id) : ∃ sig, t.signature? id = some sig := by
  obtain ⟨sig, hsig⟩ := h
  exact ⟨sig, by simp [signature?, kind, hsig]⟩

theorem IsFunction.known (hid : t.IsFunction id) (h : t.WellFormed n) : id.Known ⟨m, t.size⟩ := by
  obtain ⟨sig, hsig⟩ := hid
  exact h.known_of_kind (k := .function sig) (by simp [kind, hsig]) (by simp)

theorem IsDelegate.known (hid : t.IsDelegate id) (h : t.WellFormed n) : id.Known ⟨m, t.size⟩ := by
  obtain ⟨f, hf⟩ := hid
  exact h.known_of_kind (k := .delegate f) (by simp [kind, hf]) (by simp)

end TypeTable

/-! ## Later tables -/

/-- How many expressions and types the tables have. -/
def Tables.reach (p : Tables) : Reach := ⟨p.exprs.size, p.types.size⟩

def Tables.Typed (p : Tables) (e : ExprId) : Prop := (p.exprs.type? e).isSome

def Tables.IsAggregate (p : Tables) (s : SymbolId) : Prop := (p.symbols.aggregate? s).isSome

/-- Tables that came from others without an error on the way. -/
structure Tables.Onward (p q : Tables) : Prop where
  exprs : p.exprs.size ≤ q.exprs.size
  typed : ∀ {e}, p.Typed e → q.Typed e
  types : p.types.Grows q.types
  vars : ∀ {s v}, p.symbols.var? s = some v → ∃ w, q.symbols.var? s = some w ∧
    w.storage = v.storage ∧ (v.type.Known p.reach → w.type.Known q.reach)
  functions : ∀ {s}, p.isFunction s = true → q.isFunction s = true
  templates : ∀ {s t}, p.symbols.kind s = .template t → ∃ t', q.symbols.kind s = .template t'
  aggregates : ∀ {s}, p.IsAggregate s → q.IsAggregate s
  enumerations : ∀ {s e}, p.symbols.kind s = .enumeration e →
    ∃ e', q.symbols.kind s = .enumeration e'

namespace Tables.Onward

variable {p q r : Tables}

theorem refl : p.Onward p :=
  ⟨.refl, id, .refl, fun hv => ⟨_, hv, rfl, id⟩, id, fun ht => ⟨_, ht⟩, id, fun he => ⟨_, he⟩⟩

theorem trans (h : p.Onward q) (h' : q.Onward r) : p.Onward r where
  exprs := Nat.le_trans h.exprs h'.exprs
  typed he := h'.typed (h.typed he)
  types := h.types.trans h'.types
  vars hv := by
    obtain ⟨w, hw, hstorage, hknown⟩ := h.vars hv
    obtain ⟨x, hx, hstorage', hknown'⟩ := h'.vars hw
    exact ⟨x, hx, hstorage'.trans hstorage, hknown' ∘ hknown⟩
  functions hf := h'.functions (h.functions hf)
  templates ht := by
    obtain ⟨_, ht'⟩ := h.templates ht
    exact h'.templates ht'
  aggregates hs := h'.aggregates (h.aggregates hs)
  enumerations he := by
    obtain ⟨_, he'⟩ := h.enumerations he
    exact h'.enumerations he'

theorem reach (h : p.Onward q) : p.reach ≤ q.reach := ⟨h.exprs, h.types.size_le⟩

theorem inside (h : p.Onward q) (he : e.In p.reach) : e.In q.reach := he.mono h.reach

theorem known (h : p.Onward q) {t : TypeId} (ht : t.Known p.reach) : t.Known q.reach :=
  ht.mono h.reach

end Tables.Onward

theorem Tables.Typed.inside {p : Tables} (h : p.Typed e) : e.In p.reach := by
  refine Nat.lt_of_not_le fun hout => ?_
  have hnone : p.exprs.nodes[e.index]? = none := Array.getElem?_eq_none hout
  simp [Typed, ExprTable.type?, ExprTable.node, hnone] at h

/-! ## Expressions -/

/-- An expression that analysis has a rule for: one of a source text, a struct value, or a
length. -/
def Expr.isPending : Expr → Bool
  | structValue _ _ | length _ => true
  | k => k.isWritten

namespace Tables

/-- A type for the name of a variable or a function. -/
def Names (p : Tables) (s : SymbolId) (t : TypeId) : Prop :=
  (∃ v, p.symbols.var? s = some v ∧ (v.storage.contains .lazy = true → p.types.IsDelegate t)) ∨
    (p.isFunction s = true ∧ p.types.IsFunction t)

theorem Names.isFunction {p : Tables} {t : TypeId} (h : p.Names s t) (hs : p.isFunction s = true) :
    p.types.IsFunction t := by
  rcases h with ⟨v, hv, -⟩ | ⟨-, ht⟩
  · obtain ⟨f, hf⟩ := isSome_iff_exists.mp hs
    rw [func?_eq_some, var?_eq_some.mp hv] at hf
    cases hf
  · exact ht

/-- What there is behind an expression of a type. -/
def Backs (p : Tables) (k : Expr) (t : TypeId) : Prop :=
  match k with
  | .error => False
  | .symbolRef s | .member _ s => p.Names s t
  | .slice _ _ _ _ => (p.types.next? t).isSome
  | .templateRef s => ∃ t, p.symbols.kind s = .template t
  | _ => True

end Tables

/-- An entry of the expression table as analysis leaves it without errors. -/
structure ExprNode.Sound (n : ExprNode) (p : Tables) : Prop where
  fits : n.kind.Fits p.reach
  pending : n.type = none → n.kind.isPending = true
  known : ∀ {t}, n.type = some t → t.Known p.reach
  children : n.type.isSome → ∀ c ∈ n.kind.children, p.Typed c
  backs : ∀ {t}, n.type = some t → p.Backs n.kind t

section

variable {p q : Tables} (h : p.Onward q) {t : TypeId}
include h

theorem Tables.Names.mono (hs : p.Names s t) : q.Names s t := by
  rcases hs with ⟨v, hv, hlazy⟩ | ⟨hs, ht⟩
  · obtain ⟨w, hw, hstorage, -⟩ := h.vars hv
    exact .inl ⟨w, hw, fun hl => (hlazy (hstorage ▸ hl)).grows h.types⟩
  · exact .inr ⟨h.functions hs, ht.grows h.types⟩

theorem Tables.Backs.mono {k : Expr} (hk : p.Backs k t) (ht : t.index < p.types.size) :
    q.Backs k t := by
  cases k with
  | symbolRef s => exact Names.mono h hk
  | member base s => exact Names.mono h hk
  | slice base lower upper var =>
    show (q.types.next? t).isSome
    rw [h.types.next?_eq ht]
    exact hk
  | templateRef s => exact let ⟨_, ht⟩ := hk; h.templates ht
  | error => exact hk
  | _ => trivial

theorem ExprNode.Sound.mono {n : ExprNode} (hn : n.Sound p)
    (hp : TypeTable.initial.size ≤ p.types.size) :
    n.Sound q where
  fits := hn.fits.mono h.reach
  pending := hn.pending
  known ht := h.known (hn.known ht)
  children ht c hc := h.typed (hn.children ht c hc)
  backs ht := (hn.backs ht).mono h ((hn.known ht).lt hp)

end

/-! ## Symbols -/

/-- What may be unknown for a while. -/
structure Gaps where
  /-- Variables without a type. -/
  vars : SymbolId → Prop
  /-- Structs, classes and enumerations without a type. -/
  types : SymbolId → Prop

/-- Some struct, class or enumeration is still without a type. -/
def Gaps.declaring (G : Gaps) : Prop := ∃ s, G.types s

/-- A type that is known or, in a gap, the error type. -/
def TypeId.KnownOr (t : TypeId) (r : Reach) (gap : Prop) : Prop :=
  t.Known r ∨ t = .error ∧ gap

theorem TypeId.KnownOr.mono {a b : Reach} (ht : t.KnownOr a gap) (h : a ≤ b) : t.KnownOr b gap :=
  Or.imp_left (·.mono h) ht

theorem TypeId.KnownOr.weaken {gap' : Prop} (ht : t.KnownOr r gap) (h : gap → gap') :
    t.KnownOr r gap' :=
  Or.imp_right (And.imp_right h) ht

theorem TypeId.KnownOr.close {s' : SymbolId} (ht : t.KnownOr r (gap ∨ s' = s))
    (h : s' = s → t.Known r) : t.KnownOr r gap := by
  rcases ht with hknown | ⟨herror, hgap | heq⟩
  · exact .inl hknown
  · exact .inr ⟨herror, hgap⟩
  · exact .inl (h heq)

theorem TypeId.KnownOr.known (ht : t.KnownOr r gap) (h : ¬ gap) : t.Known r :=
  Or.resolve_right ht fun hgap => h hgap.2

def Tables.HasVariable (p : Tables) (s : SymbolId) : Prop :=
  ∃ v, p.symbols.var? s = some v ∧ v.type.Known p.reach

structure Variable.Sound (v : Variable) (G : Gaps) (p : Tables) (s : SymbolId) : Prop where
  known : v.type.KnownOr p.reach (G.vars s)
  init : ∀ e ∈ v.init, e.In p.reach
  delegate : v.storage.contains .lazy = true → p.types.IsDelegate v.type

structure Function.Sound (f : Function) (p : Tables) : Prop where
  type : p.types.IsFunction f.type
  this : ∀ v ∈ f.thisVar, p.HasVariable v

structure FunctionTemplate.Sound (t : FunctionTemplate) (p : Tables) : Prop where
  pattern : t.pattern.Fits p.reach
  instances : ∀ i ∈ t.instances, p.isFunction i.function = true

structure Aggregate.Sound (a : Aggregate) (G : Gaps) (p : Tables) (s : SymbolId) : Prop where
  known : a.type.KnownOr p.reach (G.types s)
  base : ∀ b ∈ a.base, p.IsAggregate b
  constructor : ∀ c ∈ a.constructor, p.isFunction c = true

def SymbolKind.Sound (k : SymbolKind) (G : Gaps) (p : Tables) (s : SymbolId) : Prop :=
  match k with
  | .var v => v.Sound G p s
  | .func f => f.Sound p
  | .template t => t.Sound p
  | .aggregate a => a.Sound G p s
  | .enumeration e => e.type.KnownOr p.reach (G.types s)
  | .enumMember value type => value.In p.reach ∧ type.Known p.reach
  | .typeAlias type => type.Known p.reach
  | .module _ | .importModule _ => True

section

variable {p q : Tables} (h : p.Onward q)
include h

theorem Tables.HasVariable.mono (hs : p.HasVariable s) : q.HasVariable s := by
  obtain ⟨v, hv, hknown⟩ := hs
  obtain ⟨w, hw, -, hw'⟩ := h.vars hv
  exact ⟨w, hw, hw' hknown⟩

theorem SymbolKind.Sound.mono {k : SymbolKind} {G : Gaps} (hk : k.Sound G p s) : k.Sound G q s := by
  cases k with
  | var v =>
    exact ⟨hk.known.mono h.reach, fun e he => h.inside (hk.init e he),
      fun hl => (hk.delegate hl).grows h.types⟩
  | func f => exact ⟨hk.type.grows h.types, fun v hv => (hk.this v hv).mono h⟩
  | template t => exact ⟨hk.pattern.mono h.reach, fun i hi => h.functions (hk.instances i hi)⟩
  | aggregate a =>
    exact ⟨hk.known.mono h.reach, fun b hb => h.aggregates (hk.base b hb),
      fun c hc => h.functions (hk.constructor c hc)⟩
  | enumeration e => exact TypeId.KnownOr.mono hk h.reach
  | enumMember value type => exact ⟨h.inside hk.1, h.known hk.2⟩
  | typeAlias type => exact h.known hk
  | module _ | importModule _ => trivial

end

/-! ## All tables -/

/-- Tables as analysis leaves them without errors, up to gaps. -/
structure Tables.Sound (p : Tables) (G : Gaps) : Prop where
  types : p.types.WellFormed p.exprs.size
  nodes : ∀ e : ExprId, e.In p.reach → (p.exprs.node e).Sound p
  symbols : ∀ s, (p.symbols.kind s).Sound G p s
  stmts : ∀ s, (p.stmts.kind s).Fits p.reach
  arrayOps : ∀ {name entry f}, p.arrayOps.get? name = some entry → entry.callee = some f →
    p.isFunction f = true

namespace Tables.Sound

variable {p q : Tables} {G : Gaps} {a : Aggregate}

section

variable (hp : p.Sound G)
include hp

theorem size_le : TypeTable.initial.size ≤ p.types.size := hp.types.fromInitial.size_le

/-- Later tables are sound if all that is new in them is. -/
theorem step (h : p.Onward q) (types : q.types.WellFormed q.exprs.size)
    (nodes : ∀ e : ExprId, e.In q.reach →
      (e.In p.reach ∧ q.exprs.node e = p.exprs.node e) ∨ (q.exprs.node e).Sound q)
    (symbols : ∀ s, q.symbols.kind s = p.symbols.kind s ∨ (q.symbols.kind s).Sound G q s)
    (stmts : ∀ s, q.stmts.kind s = p.stmts.kind s ∨ (q.stmts.kind s).Fits q.reach)
    (arrayOps : q.arrayOps = p.arrayOps) : q.Sound G where
  types := types
  nodes e he := by
    rcases nodes e he with ⟨hin, hsame⟩ | hnew
    · rw [hsame]
      exact (hp.nodes e hin).mono h hp.size_le
    · exact hnew
  symbols s := by
    rcases symbols s with hsame | hnew
    · rw [hsame]
      exact (hp.symbols s).mono h
    · exact hnew
  stmts s := by
    rcases stmts s with hsame | hnew
    · rw [hsame]
      exact (hp.stmts s).mono h.reach
    · exact hnew
  arrayOps hentry hf := h.functions (hp.arrayOps (arrayOps ▸ hentry) hf)

/-! ### What sound tables say -/

theorem typed_node (he : p.Typed e) : ∃ t, p.exprs.type? e = some t ∧ (p.exprs.node e).Sound p := by
  obtain ⟨t, ht⟩ := isSome_iff_exists.mp he
  exact ⟨t, ht, hp.nodes e he.inside⟩

theorem kind_ne (he : e.In p.reach) : p.exprs.kind e ≠ .error := by
  intro hk
  have hn := hp.nodes e he
  rw [ExprTable.kind] at hk
  cases ht : (p.exprs.node e).type with
  | none =>
    have := hn.pending ht
    rw [hk] at this
    cases this
  | some t =>
    have := hn.backs ht
    rw [hk] at this
    exact this

theorem known_typeOf (he : p.Typed e) : (p.typeOf e).Known p.reach := by
  obtain ⟨t, ht, hn⟩ := hp.typed_node he
  rw [typeOf, ht]
  exact hn.known ht

theorem isError_eq (he : p.Typed e) : p.isError e = false := by
  have hkind := hp.kind_ne he.inside
  have htype := hp.types.isError_eq (hp.known_typeOf he)
  simp [isError, ExprTable.isError, hkind, htype]

theorem fits (he : e.In p.reach) : (p.exprs.kind e).Fits p.reach := (hp.nodes e he).fits

theorem typed_children (he : p.Typed e) {k : Expr} (hk : p.exprs.kind e = k) :
    ∀ c ∈ k.children, p.Typed c := by
  subst hk
  exact (hp.nodes e he.inside).children he

theorem backs (he : p.Typed e) {k : Expr} (hk : p.exprs.kind e = k) : p.Backs k (p.typeOf e) := by
  subst hk
  obtain ⟨t, ht, hn⟩ := hp.typed_node he
  rw [typeOf, ht]
  exact hn.backs ht

theorem var {v : Variable} (hv : p.symbols.var? s = some v) : v.Sound G p s := by
  have hs := hp.symbols s
  rw [var?_eq_some.mp hv] at hs
  exact hs

theorem func {f : Function} (hf : p.symbols.func? s = some f) : f.Sound p := by
  have hs := hp.symbols s
  rw [func?_eq_some.mp hf] at hs
  exact hs

theorem aggregate (ha : p.symbols.aggregate? s = some a) : a.Sound G p s := by
  have hs := hp.symbols s
  rw [aggregate?_eq_some.mp ha] at hs
  exact hs

theorem known_aggregate (hG : ¬ G.declaring) (ha : p.symbols.aggregate? s = some a) :
    a.type.Known p.reach :=
  (hp.aggregate ha).known.known fun hs => hG ⟨s, hs⟩

theorem isFunction_functionType (hs : p.isFunction s = true) :
    p.types.IsFunction (p.functionType s) := by
  obtain ⟨f, hf⟩ := isSome_iff_exists.mp hs
  rw [functionType, hf]
  exact (hp.func hf).type

end

end Tables.Sound

end DCompiler
