import DCompiler.Proofs.Analysis.Reached

/-!
# Conversions of functions

The type of a function has the names of its parameters in it, and a kind is entered once. So
function pointers and delegates convert to each other only if the parameters have the same names.
-/

namespace DCompiler

variable {p : Tables} {e : ExprId} {a b target : TypeId} {f g : Signature}
  {wrap : TypeId → TypeKind}

theorem TypeTable.Unique.eq_of_kind {t : TypeTable} {k : TypeKind} (h : t.Unique)
    (ha : t.kind a = k) (hb : t.kind b = k) (hk : k ≠ .error) : a = b :=
  congrArg TypeId.mk (h (kinds_of_kind ha hk) (kinds_of_kind hb hk))

theorem Tables.not_convertsTo_of_ne (hwrap : wrap = .pointer ∨ wrap = .delegate)
    (he : p.isError e = false) (hsource : p.types.kind (p.typeOf e) = wrap a)
    (htarget : p.types.kind target = wrap b) (hg : p.types.kind b = .function g)
    (hne : p.typeOf e ≠ target) : p.convertsTo e target = false := by
  have hother : b ≠ p.typeOf e := by
    rintro rfl
    rcases hwrap with rfl | rfl <;> simp [hg] at hsource
  have hscalar : p.types.scalar? b = none := by
    simp [TypeTable.scalar?, TypeTable.baseKind, TypeTable.base, hg]
  unfold convertsTo TypeTable.conversion TypeTable.conversionBy
  rcases hwrap with rfl | rfl
  all_goals
    simp only [TypeTable.isError, hsource, htarget, hne, he, TypeTable.isVoid, hscalar]
    cases p.exprs.kind e with
    | symbolRef x =>
      simp only [beq_eq_false_iff_ne.mpr hother]
      cases p.symbols.func? x <;> simp [MatchLevel.ofBool]
    | _ => simp [MatchLevel.ofBool, hscalar]

/-- **Function pointers and delegates convert as their signatures say.** The names of parameters are
part of a signature. -/
theorem converts_iff_signature {s : Analysis} (hs : Reached s)
    (hwrap : wrap = .pointer ∨ wrap = .delegate) (he : s.isError e = false)
    (hsource : s.types.kind (s.typeOf e) = wrap a) (hf : s.types.kind a = .function f)
    (htarget : s.types.kind target = wrap b) (hg : s.types.kind b = .function g) :
    s.convertsTo e target = true ↔ f = g := by
  have hunique : s.types.Unique := hs.types.unique TypeTable.initial_unique
  have hwrapped (c : TypeId) : wrap c ≠ .error := by rcases hwrap with rfl | rfl <;> simp
  constructor
  · refine fun hconverts => Decidable.byContradiction fun hfg => ?_
    have hne : s.typeOf e ≠ target := by
      rintro rfl
      have hab : a = b := by
        have hkinds := hsource.symm.trans htarget
        rcases hwrap with rfl | rfl <;> simpa using hkinds
      subst hab
      exact hfg (TypeKind.function.inj (hf.symm.trans hg))
    rw [Tables.not_convertsTo_of_ne hwrap he hsource htarget hg hne] at hconverts
    cases hconverts
  · rintro rfl
    obtain rfl := hunique.eq_of_kind hf hg (by simp)
    have hsame := hunique.eq_of_kind hsource htarget (hwrapped a)
    unfold Tables.convertsTo
    simp [hsame]

/-- A state in which a pointer whose parameter has a name got the address of a function. -/
def pointerState (name : String) : Analysis :=
  stateOf ("module m; void f(int x) { } void function(int " ++ name ++ ") p = &f;")

def namedSignature (name : String) : Signature :=
  ⟨[⟨.ofScalar .int, .none, some name, none⟩], .ofScalar .void, .none, .d⟩

theorem converts_iff_signature_renamed :
    (pointerState "y").convertsTo ⟨1⟩ ⟨26⟩ = true ↔ namedSignature "x" = namedSignature "y" := by
  have h : (pointerState "y").isError ⟨1⟩ = false ∧
      (pointerState "y").types.kind ((pointerState "y").typeOf ⟨1⟩) = .pointer ⟨27⟩ ∧
      (pointerState "y").types.kind ⟨27⟩ = .function (namedSignature "x") ∧
      (pointerState "y").types.kind ⟨26⟩ = .pointer ⟨25⟩ ∧
      (pointerState "y").types.kind ⟨25⟩ = .function (namedSignature "y") := by
    decide +kernel
  exact converts_iff_signature (Session.analyse_reached (.start {}) _ _) (.inl rfl) h.1 h.2.1
    h.2.2.1 h.2.2.2.1 h.2.2.2.2

/-- Only under its own name is the parameter of the function accepted in the type of the pointer. -/
theorem renamed_parameter_refused :
    (pointerState "x").log.errors = 0 ∧ (pointerState "y").log.errors = 1 := by
  decide +kernel

end DCompiler
