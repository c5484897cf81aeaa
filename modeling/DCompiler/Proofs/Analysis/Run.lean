import DCompiler.Analysis.Analyser
import DCompiler.Proofs.Tables.Reach

/-!
# Runs of rules

A rule is a tree of actions, so what every action does is what every rule does.
A stable relation says nothing yet about the passes, which fill the tables that are filled once.

Looking up the names in a type is such a rule, for a type of any depth.
-/

namespace DCompiler

open Analyse List Option

/-! ## The monad of rules -/

namespace Analyse

variable {α β γ : Type}

theorem bind_done (x : Analyse α) : x.bind done = x := by
  induction x with
  | done _ | endless => rfl
  | log d next ih => simp only [bind, ih]
  | act x next ih | request r next ih | muted x next _ ih | within n x next _ ih =>
    simp only [bind, ih]

theorem bind_bind (x : Analyse α) (f : α → Analyse β) (g : β → Analyse γ) :
    (x.bind f).bind g = x.bind fun a => (f a).bind g := by
  induction x with
  | done _ | endless => rfl
  | log d next ih => simp only [bind, ih]
  | act x next ih | request r next ih | muted x next _ ih | within n x next _ ih =>
    simp only [bind, ih]

instance : LawfulMonad Analyse :=
  LawfulMonad.mk' Analyse bind_done (fun _ _ => rfl) bind_bind

/-! ## Runs -/

variable (h : Analyser) (s : Analysis) {x : Analyse α} {f : α → Analyse β}

@[simp] theorem run_pure (a : α) : (pure a : Analyse α).run h s = some (a, s) := rfl

@[simp] theorem run_bind (x : Analyse α) (f : α → Analyse β) :
    (x >>= f).run h s = (x.run h s).bind fun r => (f r.1).run h r.2 := by
  show (x.bind f).run h s = _
  induction x generalizing s with
  | done _ | endless => rfl
  | act x next ih => exact ih _ _ _
  | log d next ih => exact ih _ _
  | request r next ih =>
    simp only [bind, run]
    cases h.answer r s with
    | none => rfl
    | some a => exact ih _ _ _
  | muted x next _ ih =>
    simp only [bind, run]
    cases x.run h s.gag with
    | none => rfl
    | some a => exact ih _ _ _
  | within n x next _ ih =>
    simp only [bind, run]
    cases x.run h (s.enter n) with
    | none => rfl
    | some a => exact ih _ _ _

theorem run_next {h : Analyser} {s t : Analysis} {a : α} (hx : x.run h s = some (a, t)) :
    (x >>= f).run h s = (f a).run h t := by
  rw [run_bind, hx]
  rfl

theorem run_bind_inv {h : Analyser} {s t : Analysis} {b : β}
    (hrun : (x >>= f).run h s = some (b, t)) :
    ∃ a u, x.run h s = some (a, u) ∧ (f a).run h u = some (b, t) := by
  rw [run_bind, bind_eq_some_iff] at hrun
  obtain ⟨⟨a, u⟩, hx, hf⟩ := hrun
  exact ⟨a, u, hx, hf⟩

theorem ask_run (f : Tables → α) : (ask f).run h s = some (f s.toTables, s) := rfl

theorem context_run : context.run h s = some (s.toContext, s) := rfl

theorem intern_run (k : TypeKind) : (intern k).run h s =
    some ((s.types.intern k).1, { s with types := (s.types.intern k).2 }) := rfl

/-! ## Rules that make no requests -/

/-- An action that does nothing to the entries of expressions but add some without a type. It enters
a type only if `types`. -/
def Tame (types : Prop) {β : Type} : Action β → Prop
  | .addExpr n => n.type = none
  | .intern _ => types
  | .setKind _ _ | .setType _ _ | .settle _ _ _ | .setSpan _ _ | .copyExpr _ | .copyFunction _ =>
    False
  | _ => True

/-- A rule that does everything by itself, and whose actions are tame. -/
def Alone (types : Prop) {α : Type} : Analyse α → Prop
  | done _ | endless => True
  | act x next => Tame types x ∧ ∀ r, (next r).Alone types
  | log _ next => next.Alone types
  | request _ _ => False
  | muted x next | within _ x next => x.Alone types ∧ ∀ r, (next r).Alone types

namespace Alone

variable {types : Prop}

theorem pure (a : α) : Alone types (Pure.pure a) := trivial

theorem bind {x : Analyse α} {f : α → Analyse β} (hx : x.Alone types)
    (hf : ∀ a, (f a).Alone types) : (x >>= f).Alone types := by
  induction x with
  | done a => exact hf a
  | act x next ih => exact ⟨hx.1, fun r => ih r (hx.2 r) hf⟩
  | log d next ih => exact ih hx hf
  | request r next _ => exact hx.elim
  | muted x next _ ih | within n x next _ ih => exact ⟨hx.1, fun r => ih r (hx.2 r) hf⟩
  | endless => trivial

theorem act {x : Action α} (hx : Tame types x) : (act x done).Alone types := ⟨hx, fun _ => trivial⟩

theorem context : Alone types context := act trivial

theorem ask (f : Tables → α) : (ask f).Alone types := act (x := .look) trivial

theorem error (span : Span) (problem : Problem) : (error span problem).Alone types := trivial

variable {c : Prop} {x : Analyse PUnit}

theorem optional [Decidable c] {rest : PUnit → Analyse α} (hx : x.Alone types)
    (hrest : ∀ a, (rest a).Alone types) : (if c then x >>= rest else rest ⟨⟩).Alone types := by
  split
  · exact .bind hx hrest
  · exact hrest _

theorem whenever [Decidable c] (hx : x.Alone types) :
    (if c then x else Pure.pure ⟨⟩).Alone types := by
  split
  · exact hx
  · trivial

end Alone

theorem globalScope_alone (types : Prop) : Alone types globalScope := by
  refine .bind .context fun c => ?_
  split
  · exact .pure _
  · exact .bind (.act trivial) fun _ => .bind (.act trivial) fun _ => .pure _

end Analyse

/-! ## Relations that runs keep -/

def Analysis.after {β : Type} (s : Analysis) (x : Action β) : Analysis :=
  { s with toContext := (x.exec s.toContext).2 }

/-- A relation between states that everything but actions and answers keeps. A gag and a part of the
context count as one step from before they are entered until after they are left. -/
structure Bracketed (R : Analysis → Analysis → Prop) : Prop where
  refl (s : Analysis) : R s s
  trans {s t u : Analysis} : R s t → R t u → R s u
  report (d : Diagnostic) (s : Analysis) : R s (s.report d)
  gag {s t : Analysis} : R s.gag t → R s t.ungag
  nest (n : Nesting) {s t : Analysis} : R (s.enter n) t → R s (t.leave n)

/-- A relation between states that everything a rule does by itself keeps. -/
structure Stable (R : Analysis → Analysis → Prop) : Prop extends Bracketed R where
  act {β : Type} (x : Action β) (s : Analysis) : R s (s.after x)

def Analyser.Keeps (h : Analyser) (R : Analysis → Analysis → Prop) : Prop :=
  ∀ {β : Type} (r : Request β) {s t : Analysis} {b : β}, h.answer r s = some (b, t) → R s t

variable {R : Analysis → Analysis → Prop} {h : Analyser} {α : Type} {a : α}

theorem run_stable (hR : Stable R) (hh : h.Keeps R) (x : Analyse α) {s t : Analysis}
    (hx : x.run h s = some (a, t)) : R s t := by
  induction x generalizing s t with
  | done b =>
    cases hx
    exact hR.refl _
  | act x next ih => exact hR.trans (hR.act x s) (ih _ hx)
  | log d next ih => exact hR.trans (hR.report d s) (ih hx)
  | request r next ih =>
    simp only [run] at hx
    split at hx
    · exact hR.trans (hh r ‹_›) (ih _ hx)
    · cases hx
  | muted x next ihx ih =>
    simp only [run] at hx
    split at hx
    · exact hR.trans (hR.gag (ihx ‹_›)) (ih _ hx)
    · cases hx
  | within n x next ihx ih =>
    simp only [run] at hx
    split at hx
    · exact hR.trans (hR.nest n (ihx ‹_›)) (ih _ hx)
    · cases hx
  | endless => cases hx

/-- A relation that tame actions keep, over the run of a rule that uses no others. -/
theorem run_tame {types : Prop} (hR : Bracketed R)
    (hact : ∀ {β : Type} {x : Action β} (s : Analysis), Tame types x → R s (s.after x))
    {x : Analyse α} (hx : x.Alone types) {s t : Analysis} (hrun : x.run h s = some (a, t)) :
    R s t := by
  induction x generalizing s t with
  | done b =>
    cases hrun
    exact hR.refl _
  | act x next ih => exact hR.trans (hact s hx.1) (ih _ (hx.2 _) hrun)
  | log d next ih => exact hR.trans (hR.report d s) (ih hx hrun)
  | request r next _ => exact hx.elim
  | muted x next ihx ih =>
    simp only [run] at hrun
    split at hrun
    · exact hR.trans (hR.gag (ihx hx.1 ‹_›)) (ih _ (hx.2 _) hrun)
    · cases hrun
  | within n x next ihx ih =>
    simp only [run] at hrun
    split at hrun
    · exact hR.trans (hR.nest n (ihx hx.1 ‹_›)) (ih _ (hx.2 _) hrun)
    · cases hrun
  | endless => cases hrun

theorem run_alone (hR : Stable R) {types : Prop} {x : Analyse α} (hx : x.Alone types)
    {s t : Analysis} (hrun : x.run h s = some (a, t)) : R s t :=
  run_tame hR.toBracketed (fun s _ => hR.act _ s) hx hrun

/-! ## Types by name -/

namespace Analyse

variable {β : Type} {s t : Analysis} {f : α → Analyse (Option β)}

/-! ## One name, one component -/

theorem mapUntilNone_alone {types : Prop} (hf : ∀ a, (f a).Alone types) (as : List α) :
    (mapUntilNone f as).Alone types := by
  induction as with
  | nil => exact .pure _
  | cons a as ih =>
    refine .bind (hf a) fun found => ?_
    split
    · exact .pure _
    · exact .bind ih fun _ => .pure _

theorem namedType_alone {name : String} {sc : ScopeId} {place : Span} :
    (namedType name sc place).Alone True := by
  unfold namedType
  split
  · exact .ask _
  split
  · exact .act trivial
  refine .bind (.ask id) fun p => ?_
  split
  · exact .bind (.bind (.ask id) fun _ => .error _ _) fun _ => .pure _
  refine .bind (.ask _) fun k => ?_
  split
  · exact .pure _
  · exact .pure _
  · exact .pure _
  · exact .bind (.error _ _) fun _ => .pure _

def component (type : TypeId) (sc : ScopeId) (place : Span) (next : TypeId) :
    Analyse (Option TypeId) := do
  if next.index < type.index then
    let found ← resolveType next sc place
    return if ← ask (·.types.isError found) then none else some found
  else return none

def param (type : TypeId) (sc : ScopeId) (place : Span) (p : Param) : Analyse (Option Param) := do
  return (← component type sc place p.type).map fun type => { p with type := type }

theorem resolveType_eq (type : TypeId) (sc : ScopeId) (place : Span) :
    resolveType type sc place = (do
      match ← ask (·.types.kind type) with
      | .scalar _ | .error | .null | .typeInfo | .structType _ _ | .classType _ _
      | .enumType _ _ _ => return type
      | .named name => namedType name sc place
      | .pointer next => internOf (← component type sc place next) .pointer
      | .dynArray next => internOf (← component type sc place next) .dynArray
      | .staticArray next length =>
        internOf (← component type sc place next) (.staticArray · length)
      | .delegate func => internOf (← component type sc place func) .delegate
      | .assocArray key value =>
        let key ← component type sc place key
        let value ← component type sc place value
        match key with
        | some key => internOf value (.assocArray key)
        | none => return .error
      | .tuple elems =>
        match ← mapUntilNone (component type sc place) elems with
        | some elems => intern (.tuple elems)
        | none => return .error
      | .function sig =>
        match ← component type sc place sig.result with
        | none => return .error
        | some result =>
          match ← mapUntilNone (param type sc place) sig.params with
          | some params => intern (.function { sig with params := params, result := result })
          | none => return .error) := by
  rw [resolveType]
  rfl

/-! ## All names -/

theorem internOf_alone {found : Option TypeId} {make : TypeId → TypeKind} :
    (internOf found make).Alone True := by
  cases found with
  | none => exact .pure _
  | some type => exact .act trivial

theorem resolveType_alone {type : TypeId} {sc : ScopeId} {place : Span} :
    (resolveType type sc place).Alone True := by
  induction hn : type.index using Nat.strongRecOn generalizing type with
  | ind n ih =>
    subst hn
    have hcomponent (next : TypeId) : (component type sc place next).Alone True := by
      unfold component
      split
      · exact .bind (ih next.index ‹_› rfl) fun _ => .bind (.ask _) fun _ => .pure _
      · exact .pure _
    have hparam (p : Param) : (param type sc place p).Alone True :=
      .bind (hcomponent _) fun _ => .pure _
    rw [resolveType_eq]
    refine .bind (.ask _) fun k => ?_
    split
    all_goals first
      | exact .pure _
      | exact namedType_alone
      | exact .bind (hcomponent _) fun _ => internOf_alone
      | skip
    · refine .bind (hcomponent _) fun key => .bind (hcomponent _) fun value => ?_
      split
      · exact internOf_alone
      · exact .pure _
    · refine .bind (mapUntilNone_alone hcomponent _) fun found => ?_
      split
      · exact .act trivial
      · exact .pure _
    · refine .bind (hcomponent _) fun result => ?_
      split
      · exact .pure _
      refine .bind (mapUntilNone_alone hparam _) fun found => ?_
      split
      · exact .act trivial
      · exact .pure _

theorem mapUntilNone_some {γ : Type} {p : α → γ} {q : β → γ}
    (hf : ∀ a s t b, (f a).run h s = some (some b, t) → q b = p a) {as : List α} {bs : List β}
    (hrun : (mapUntilNone f as).run h s = some (some bs, t)) : bs.map q = as.map p := by
  induction as generalizing s bs with
  | nil =>
    cases hrun
    rfl
  | cons a as ih =>
    obtain ⟨found, u, ha, hrest⟩ := run_bind_inv hrun
    cases found with
    | none => cases hrest
    | some b =>
      obtain ⟨others, v, has, hdone⟩ := run_bind_inv hrest
      cases others with
      | none => cases hdone
      | some others =>
        cases hdone
        rw [map_cons, map_cons, hf a s u b ha, ih has]

/-- Looking up the names in a function type keeps the number of parameters and their defaults. -/
theorem resolveType_function {type result : TypeId} {sig : Signature} {sc : ScopeId} {place : Span}
    (hk : s.types.kind type = .function sig)
    (hrun : (resolveType type sc place).run h s = some (result, t)) :
    result = .error ∨ ∃ sig', t.types.kinds[result.index]? = some (.function sig') ∧
      sig'.params.map (·.default) = sig.params.map (·.default) := by
  rw [resolveType_eq] at hrun
  obtain ⟨k, s', hask, hrun⟩ := run_bind_inv hrun
  cases hask
  simp only [hk] at hrun
  obtain ⟨found, u, -, hrun⟩ := run_bind_inv hrun
  cases found with
  | none =>
    cases hrun
    exact .inl rfl
  | some found =>
    obtain ⟨params, v, hparams, hrun⟩ := run_bind_inv hrun
    cases params with
    | none =>
      cases hrun
      exact .inl rfl
    | some params =>
      cases hrun
      refine .inr ⟨_, v.types.kinds_intern _, mapUntilNone_some (fun p s t q hp => ?_) hparams⟩
      obtain ⟨type', w, -, hq⟩ := run_bind_inv hp
      cases type' with
      | none => cases hq
      | some type' =>
        cases hq
        rfl

end Analyse

/-! ## Types without names -/

/-- A type in which no name is left to look up, nor an error; what it is built on stands before
it. -/
inductive TypeTable.Settled (t : TypeTable) : TypeId → Prop
  | intro {id : TypeId} {k : TypeKind} (hk : t.kinds[id.index]? = some k) (hclean : k ≠ .error)
      (hnameless : ∀ name, k ≠ .named name)
      (hbefore : ∀ c ∈ k.components, c.index < id.index)
      (hcomponents : ∀ c ∈ k.components, Settled t c) : Settled t id

theorem TypeTable.Settled.grows {t u : TypeTable} {id : TypeId} (h : t.Settled id)
    (hu : t.Grows u) : u.Settled id := by
  induction h with
  | intro hk hclean hnameless hbefore _ ih =>
    exact .intro (hu.kinds_eq hk) hclean hnameless hbefore ih

namespace Analyse

variable {s : Analysis} {sc : ScopeId} {place : Span}

theorem mapUntilNone_same {α : Type} {f : α → Analyse (Option α)} {as : List α}
    (hf : ∀ a ∈ as, (f a).run h s = some (some a, s)) :
    (mapUntilNone f as).run h s = some (some as, s) := by
  induction as with
  | nil => rfl
  | cons a as ih =>
    simp only [mapUntilNone, run_bind, hf a (mem_cons_self), bind_some,
      ih fun b hb => hf b (mem_cons_of_mem a hb)]
    rfl

theorem intern_same {id : TypeId} {k : TypeKind} (hs : s.types.Unique)
    (hk : s.types.kinds[id.index]? = some k) : (intern k).run h s = some (id, s) := by
  have hsame := hs.intern_eq hk
  show some ((s.types.intern k).1, { s with types := (s.types.intern k).2 }) = _
  rw [hsame]

theorem resolveType_settled {type : TypeId} (hs : s.types.Unique) (htype : s.types.Settled type) :
    (resolveType type sc place).run h s = some (type, s) := by
  induction htype with
  | @intro type k hk hclean hnameless hbefore hcomponents ih =>
    have hkind : s.types.kind type = k := by simp [TypeTable.kind, hk]
    have hcomponent (c : TypeId) (hc : c ∈ k.components) :
        (component type sc place c).run h s = some (some c, s) := by
      obtain ⟨hkc, hcleanc, -, -, -⟩ := hcomponents c hc
      have hfine : s.types.isError c = false := by
        simpa [TypeTable.isError, TypeTable.kind, hkc] using hcleanc
      simp only [component, if_pos (hbefore c hc), run_bind, ih c hc, bind_some, ask_run, hfine]
      rfl
    have hparam (p : Param) (hp : p.type ∈ k.components) :
        (param type sc place p).run h s = some (some p, s) := by
      simp only [param, run_bind, hcomponent p.type hp, bind_some]
      rfl
    rw [resolveType_eq]
    simp only [run_bind, ask_run, bind_some, hkind]
    cases k with
    | error => exact absurd rfl hclean
    | named name => exact absurd rfl (hnameless name)
    | scalar _ | null | typeInfo | structType _ _ | classType _ _ | enumType _ _ _ => rfl
    | pointer next | dynArray next | staticArray next _ | delegate next =>
      simp only [run_bind, hcomponent next (by simp [TypeKind.components]), bind_some,
        internOf, intern_same hs hk]
    | assocArray key value =>
      simp only [run_bind, hcomponent key (by simp [TypeKind.components]),
        hcomponent value (by simp [TypeKind.components]), bind_some, internOf,
        intern_same hs hk]
    | tuple elems =>
      have helems : (mapUntilNone (component type sc place) elems).run h s =
          some (some elems, s) := mapUntilNone_same hcomponent
      simp only [run_bind, helems, bind_some, intern_same hs hk]
    | function sig =>
      have hparams (p : Param) (hp : p ∈ sig.params) :=
        hparam p (mem_cons_of_mem _ (mem_map_of_mem hp))
      simp only [run_bind, hcomponent sig.result (by simp [TypeKind.components]),
        bind_some, mapUntilNone_same hparams, intern_same hs hk]

/-! ## Folded casts -/

theorem foldedCast_literal {e folded : Expr} {source target : Scalar}
    (hfolded : foldedCast e source target = some folded) :
    (∃ value, folded = .integer value (some target)) ∨
      ∃ value, folded = .real value (some target) := by
  revert hfolded
  fun_cases foldedCast e source target <;> rintro ⟨⟩
  · exact .inl ⟨_, rfl⟩
  · exact .inr ⟨_, rfl⟩
  · exact .inr ⟨_, rfl⟩
  · exact .inl ⟨_, rfl⟩

end Analyse

end DCompiler
