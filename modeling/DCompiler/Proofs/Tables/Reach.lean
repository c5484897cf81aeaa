import DCompiler.Grammar.Module
import DCompiler.Proofs.Types.Table

/-!
# References between tables

Expressions, statements, types and declarations refer to expressions and types by place. A `Reach`
says how many expressions and types there are; what is made for one reach stays good for every
larger one. A type is `Known` when it is there and is not the error type; the types with fixed
places are always there.
-/

namespace DCompiler

structure Reach where
  exprs : Nat
  types : Nat

instance : LE Reach := ⟨fun a b => a.exprs ≤ b.exprs ∧ a.types ≤ b.types⟩

theorem Reach.le_refl (r : Reach) : r ≤ r := ⟨.refl, .refl⟩

variable {a b r : Reach} {t : TypeId}

theorem Reach.le_trans {c : Reach} (h : a ≤ b) (h' : b ≤ c) : a ≤ c :=
  ⟨Nat.le_trans h.1 h'.1, Nat.le_trans h.2 h'.2⟩

def ExprId.In (e : ExprId) (r : Reach) : Prop := e.index < r.exprs

def TypeId.Known (t : TypeId) (r : Reach) : Prop :=
  t.index < max TypeTable.initial.size r.types ∧ t ≠ .error

theorem ExprId.In.mono {e : ExprId} (he : e.In a) (h : a ≤ b) : e.In b := Nat.lt_of_lt_of_le he h.1

theorem TypeId.Known.mono (ht : t.Known a) (h : a ≤ b) : t.Known b := by
  have hindex := ht.1
  have hle := h.2
  exact ⟨by omega, ht.2⟩

theorem TypeId.Known.lt (ht : t.Known r) (h : TypeTable.initial.size ≤ r.types) :
    t.index < r.types := by
  have hindex := ht.1
  omega

theorem TypeId.known_ofScalar {s : Scalar} : (TypeId.ofScalar s).Known r := by
  refine ⟨Nat.lt_of_lt_of_le ?_ (Nat.le_max_left _ _), ?_⟩
  · cases s <;> decide
  · cases s <;> decide

/-! ## Expressions -/

def Expr.types : Expr → List TypeId
  | typeRef t | cast _ t | typeid t => [t]
  | _ => []

structure Expr.Fits (k : Expr) (r : Reach) : Prop where
  children : ∀ e ∈ k.children, e.In r
  types : ∀ t ∈ k.types, t.Known r

theorem Expr.Fits.mono {k : Expr} (hk : k.Fits a) (h : a ≤ b) : k.Fits b :=
  ⟨fun e he => (hk.children e he).mono h, fun t ht => (hk.types t ht).mono h⟩

/-- The expressions that a source text can have; analysis makes the others. -/
def Expr.isWritten : Expr → Bool
  | error | complex _ _ | structValue _ _ | symbolRef _ | templateRef _ | moduleRef _ | tuple _
  | member _ _ | length _ | funcLiteral _ | declaration _ => false
  | _ => true

structure ExprNode.Written (n : ExprNode) (r : Reach) : Prop where
  untyped : n.type = none
  kind : n.kind.isWritten = true
  fits : n.kind.Fits r

theorem ExprNode.Written.mono {n : ExprNode} (hn : n.Written a) (h : a ≤ b) : n.Written b :=
  ⟨hn.untyped, hn.kind, hn.fits.mono h⟩

/-! ## Statements and declarations -/

structure ParamDecl.Fits (p : ParamDecl) (r : Reach) : Prop where
  type : p.type.Known r
  default : ∀ e ∈ p.default, e.In r

structure FunctionDecl.Fits (d : FunctionDecl) (r : Reach) : Prop where
  result : d.result.Known r
  params : ∀ p ∈ d.params, p.Fits r

/-- A declared variable has a type or an initial value, and is never lazy. -/
structure DeclaredVariable (type : Option TypeId) (init : Option ExprId) (storage : StorageClass)
    (r : Reach) : Prop where
  given : type.isSome ∨ init.isSome
  eager : storage.contains .lazy = false
  known : ∀ t ∈ type, t.Known r
  within : ∀ e ∈ init, e.In r

structure Stmt.Fits (s : Stmt) (r : Reach) : Prop where
  exprs : ∀ e ∈ s.exprs, e.In r
  declared : ∀ {name type init storage symbol}, s = varDecl name type init storage symbol →
    DeclaredVariable type init storage r
  function : ∀ {d : FunctionDecl} {symbol}, s = funcDecl d symbol → d.Fits r

structure EnumDecl.Fits (d : EnumDecl) (r : Reach) : Prop where
  base : ∀ t ∈ d.base, t.Known r
  members : ∀ m ∈ d.members, ∀ e ∈ m.value, e.In r

inductive Decl.Fits (r : Reach) : Decl → Prop
  | func {d : FunctionDecl} (h : d.Fits r) : Fits r (.func d)
  | aggregate {name : String} {span : Span} {isClass : Bool} {base : Option BaseName}
      {members : List Decl} (h : ∀ m ∈ members, Fits r m) :
      Fits r (.aggregate name span isClass base members)
  | enumeration {d : EnumDecl} (h : d.Fits r) : Fits r (.enumeration d)
  | global {d : VariableDecl} (h : DeclaredVariable d.type d.init d.storage r) :
      Fits r (.global d)
  | importModule {name : String} {span : Span} : Fits r (.importModule name span)

section

variable {a b : Reach}

theorem ParamDecl.Fits.mono {p : ParamDecl} (hp : p.Fits a) (h : a ≤ b) : p.Fits b :=
  ⟨hp.type.mono h, fun e he => (hp.default e he).mono h⟩

theorem FunctionDecl.Fits.mono {d : FunctionDecl} (hd : d.Fits a) (h : a ≤ b) : d.Fits b :=
  ⟨hd.result.mono h, fun p hp => (hd.params p hp).mono h⟩

theorem DeclaredVariable.mono {type : Option TypeId} {init : Option ExprId}
    {storage : StorageClass} (hv : DeclaredVariable type init storage a) (h : a ≤ b) :
    DeclaredVariable type init storage b :=
  ⟨hv.given, hv.eager, fun t ht => (hv.known t ht).mono h, fun e he => (hv.within e he).mono h⟩

theorem Stmt.Fits.mono {s : Stmt} (hs : s.Fits a) (h : a ≤ b) : s.Fits b :=
  ⟨fun e he => (hs.exprs e he).mono h, fun heq => (hs.declared heq).mono h,
    fun heq => (hs.function heq).mono h⟩

theorem EnumDecl.Fits.mono {d : EnumDecl} (hd : d.Fits a) (h : a ≤ b) : d.Fits b :=
  ⟨fun t ht => (hd.base t ht).mono h, fun m hm e he => (hd.members m hm e he).mono h⟩

theorem Decl.Fits.mono {d : Decl} (hd : d.Fits a) (h : a ≤ b) : d.Fits b := by
  induction hd with
  | func hd => exact .func (hd.mono h)
  | aggregate _ ih => exact .aggregate ih
  | enumeration hd => exact .enumeration (hd.mono h)
  | global hd => exact .global (hd.mono h)
  | importModule => exact .importModule

end

/-! ## Types -/

def TypeKind.defaults : TypeKind → List ExprId
  | function sig => sig.params.filterMap (·.default)
  | _ => []

namespace TypeTable

def IsFunction (t : TypeTable) (id : TypeId) : Prop :=
  ∃ sig, t.kinds[id.index]? = some (.function sig)

/-- What can be entered into a table. -/
structure Admits (t : TypeTable) (exprs : Nat) (k : TypeKind) : Prop where
  components : ∀ c ∈ k.components, c.Known ⟨exprs, t.size⟩
  delegate : ∀ {f}, k = .delegate f → t.IsFunction f
  defaults : ∀ d ∈ k.defaults, d.index < exprs

structure WellFormed (t : TypeTable) (exprs : Nat) : Prop where
  fromInitial : initial.Grows t
  ordered : ∀ {i : Nat} {k : TypeKind}, t.kinds[i]? = some k →
    ∀ c ∈ k.components, c.index < i ∧ c ≠ .error
  delegates : ∀ {i : Nat} {f : TypeId}, t.kinds[i]? = some (.delegate f) → t.IsFunction f
  defaults : ∀ {i : Nat} {k : TypeKind}, t.kinds[i]? = some k → ∀ d ∈ k.defaults, d.index < exprs

theorem IsFunction.grows {t u : TypeTable} {id : TypeId} (h : t.IsFunction id) (hu : t.Grows u) :
    u.IsFunction id := by
  obtain ⟨sig, hsig⟩ := h
  exact ⟨sig, hu.kinds_eq hsig⟩

variable {t : TypeTable} {m n : Nat} {k : TypeKind}

theorem WellFormed.mono (h : t.WellFormed m) (hmn : m ≤ n) : t.WellFormed n :=
  ⟨h.fromInitial, h.ordered, h.delegates,
    fun hk d hd => Nat.lt_of_lt_of_le (h.defaults hk d hd) hmn⟩

theorem WellFormed.intern (h : t.WellFormed n) (hk : t.Admits n k) :
    (t.intern k).2.WellFormed n where
  fromInitial := h.fromInitial.intern k
  ordered := by
    intro i k' hi c hc
    rcases kinds_intern_inv hi with old | ⟨rfl, rfl, -⟩
    · exact h.ordered old c hc
    · have hc := hk.components c hc
      exact ⟨hc.lt h.fromInitial.size_le, hc.2⟩
  delegates := by
    intro i f hi
    have hgrows : t.Grows (t.intern k).2 := Grows.refl.intern k
    rcases kinds_intern_inv hi with old | ⟨-, hf, -⟩
    · exact (h.delegates old).grows hgrows
    · exact (hk.delegate hf.symm).grows hgrows
  defaults := by
    intro i k' hi d hd
    rcases kinds_intern_inv hi with old | ⟨-, rfl, -⟩
    · exact h.defaults old d hd
    · exact hk.defaults d hd

theorem initial_wellFormed : initial.WellFormed n := by
  have hbare : ∀ k ∈ initial.kinds.toList,
      k.components.isEmpty && k.defaults.isEmpty &&
        k matches .scalar _ | .error | .null | .typeInfo := by
    decide
  have hplace {i : Nat} {k : TypeKind} (hk : initial.kinds[i]? = some k) :=
    hbare k (Array.mem_def.mp (Array.mem_of_getElem? hk))
  refine ⟨.refl, fun {i k} hk c hc => ?_, fun {i f} hf => ?_, fun {i k} hk d hd => ?_⟩
  · have := hplace hk
    simp_all
  · have := hplace hf
    simp_all
  · have := hplace hk
    simp_all

/-! ## The fixed places -/

theorem WellFormed.kinds_fixed (h : t.WellFormed n) {i : Nat} (hk : initial.kinds[i]? = some k) :
    t.kinds[i]? = some k :=
  h.fromInitial.kinds_eq hk

end TypeTable

end DCompiler
