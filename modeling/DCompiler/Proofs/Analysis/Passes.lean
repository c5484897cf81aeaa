import DCompiler.Proofs.Analysis.Run

/-!
# Passes

The passes guard what is filled once: the type and the body of a function, and the routine of an
array operation. This module opens them.
-/

namespace DCompiler

open List Option SymbolTable Analyse

variable {α : Type} {f : Function} {u : Analysis} {sig : Signature} {symbol : SymbolId}
  {s t : Analysis} {h : Analyser} {type : TypeId} {R : Analysis → Analysis → Prop} {depth : Nat}

namespace Pass

theorem run_bind {β : Type} (x : Pass α) (f : α → Pass β) (s : Analysis) :
    (x >>= f) s = (x s).bind fun r => f r.1 r.2 := rfl

theorem run_get (s : Analysis) : (get : Pass Analysis) s = some (s, s) := rfl

theorem run_modify (f : Analysis → Analysis) (s : Analysis) :
    (modify f : Pass Unit) s = some ((), f s) := rfl

section

variable (h : Analyser) (symbol : SymbolId) (s : Analysis)

theorem defaults_run : defaults h symbol s =
    let p := s.setProgress symbol .defaults
    match p.types.signature? (p.functionType symbol) with
    | none => some ((), p)
    | some sig =>
      ((defaultArguments symbol sig).run h p).bind fun r =>
        some ((), r.1.elim r.2 (r.2.setFunctionType symbol)) := by
  simp only [defaults, run_bind, run_modify, run_get, bind_some]
  cases (s.setProgress symbol .defaults).types.signature?
      ((s.setProgress symbol .defaults).functionType symbol) with
  | none => rfl
  | some sig =>
    simp only [run_bind]
    congr 1
    funext r
    obtain ⟨type, t⟩ := r
    cases type <;> rfl

theorem signature_run : signature h symbol s =
    match s.symbols.func? symbol with
    | none => some ((), s)
    | some f =>
      (if f.progress.rank < Progress.declared.rank then declare h symbol f s
        else some ((), s)).bind fun r =>
          if (r.2.progressOf symbol).rank < Progress.defaults.rank then defaults h symbol r.2
          else some ((), r.2) := by
  simp only [signature, run_bind, run_get, bind_some]
  cases s.symbols.func? symbol with
  | none => rfl
  | some f =>
    simp only
    split <;> simp only [run_bind, run_get, bind_some]
    · congr 1
      funext r
      split <;> rfl
    · split <;> rfl

theorem body_run : body h symbol s =
    (signature h symbol s).bind fun r =>
      match r.2.symbols.func? symbol with
      | none => some ((), r.2)
      | some f =>
        if Progress.bodyRunning.rank ≤ f.progress.rank then some ((), r.2)
        else
          (match f.body, r.2.types.signature? f.type with
            | some body, some sig =>
              (bodyStep symbol f sig body).run h (r.2.setProgress symbol .bodyRunning)
            | _, _ => some ((), r.2.setProgress symbol .bodyRunning)).bind fun r =>
              some ((), r.2.setProgress symbol .bodyDone) := by
  simp only [body, run_bind, run_get, bind_some]
  congr 1
  funext r
  cases r.2.symbols.func? symbol with
  | none => rfl
  | some f =>
    simp only
    split
    · rfl
    · cases f.body <;> cases r.2.types.signature? f.type <;> rfl

theorem arrayOp_run (e : ExprId) : arrayOp h e s =
    match s.arrayOps.get? (operationName s.toTables e) with
    | some entry => some (entry, s)
    | none =>
      ((buildArrayOp (operationName s.toTables e) e
          ((partsOf s.toTables e).operands.map (·.param))).run h s).bind fun r =>
        some (r.1, r.2.recordArrayOp (operationName s.toTables e) r.1) := by
  simp only [arrayOp, run_bind, run_get, bind_some]
  cases s.arrayOps.get? (operationName s.toTables e) <;> rfl

end

end Pass

def Analysis.withLog (s : Analysis) (l : DiagnosticLog) : Analysis := { s with log := l }

/-- A relation between passes that goes through all that passes are made of. They do not look at the
log. -/
structure Pass.Congruence (Q : (α : Type) → Pass α → Pass α → Prop) : Prop where
  pure {α : Type} (a : α) : Q α (pure a) (pure a)
  bind {α β : Type} {x x' : Pass α} {f f' : α → Pass β} :
    Q α x x' → (∀ a, Q β (f a) (f' a)) → Q β (x >>= f) (x' >>= f')
  get {α : Type} {f f' : Analysis → Pass α} : (∀ s, Q α (f s) (f' s)) →
    (∀ s l, f (s.withLog l) = f s) → Q α (get >>= f) (get >>= f')
  modify (f : Analysis → Analysis) : (∀ s l, f (s.withLog l) = (f s).withLog l) →
    Q Unit (modify f) (modify f)

namespace Pass.Congruence

variable {Q : (α : Type) → Pass α → Pass α → Prop} {h k : Analyser} (hQ : Congruence Q)
  (hrun : ∀ {α : Type} (x : Analyse α), Q α (x.run h) (x.run k)) (symbol : SymbolId)
include hQ hrun

theorem declare (f : Function) : Q Unit (Pass.declare h symbol f) (Pass.declare k symbol f) :=
  hQ.bind (hQ.modify _ fun _ _ => rfl) fun _ => hQ.bind (hrun _) fun _ =>
    hQ.bind (hQ.modify _ fun _ _ => rfl) fun _ => hrun _

theorem defaults : Q Unit (Pass.defaults h symbol) (Pass.defaults k symbol) := by
  refine hQ.bind (hQ.modify _ fun _ _ => rfl) fun _ => hQ.get (fun s => ?_) fun _ _ => rfl
  dsimp only
  split
  · exact hQ.pure ()
  refine hQ.bind (hrun _) fun type => ?_
  cases type with
  | none => exact hQ.pure ()
  | some type => exact hQ.modify _ fun _ _ => rfl

theorem signature : Q Unit (Pass.signature h symbol) (Pass.signature k symbol) := by
  refine hQ.get (fun s => ?_) fun _ _ => rfl
  split
  · exact hQ.pure ()
  let rest (h : Analyser) : Pass Unit := do
    if ((← MonadState.get).progressOf symbol).rank < Progress.defaults.rank then
      Pass.defaults h symbol
  have hrest : Q Unit (rest h) (rest k) := by
    refine hQ.get (fun s => ?_) fun _ _ => rfl
    split
    · exact hQ.defaults hrun symbol
    · exact hQ.pure ()
  split
  · exact hQ.bind (hQ.declare hrun symbol _) fun _ => hrest
  · exact hrest

theorem body : Q Unit (Pass.body h symbol) (Pass.body k symbol) := by
  refine hQ.bind (hQ.signature hrun symbol) fun _ => hQ.get (fun s => ?_) fun _ _ => rfl
  dsimp only
  split
  · exact hQ.pure ()
  split
  · exact hQ.pure ()
  refine hQ.bind (hQ.modify _ fun _ _ => rfl) fun _ => ?_
  split
  · exact hQ.bind (hrun _) fun _ => hQ.modify _ fun _ _ => rfl
  · exact hQ.modify _ fun _ _ => rfl

theorem arrayOp (e : ExprId) : Q ArrayOpEntry (Pass.arrayOp h e) (Pass.arrayOp k e) := by
  refine hQ.get (fun s => ?_) fun _ _ => rfl
  dsimp only
  split
  · exact hQ.pure _
  · exact hQ.bind (hrun _) fun _ => hQ.bind (hQ.modify _ fun _ _ => rfl) fun _ => hQ.pure _

end Pass.Congruence

/-! ## What rules leave alone -/

theorem SymbolNote.apply_func (n : SymbolNote) (f : Function) :
    ∃ g, n.apply (.func f) = .func g ∧ g.type = f.type ∧ g.progress = f.progress := by
  cases n with
  | func n =>
    refine ⟨n.apply f, rfl, ?_⟩
    cases n with
    | closureVar var =>
      cases hv : f.closureVars.contains var <;> simp only [FunctionNote.apply, hv] <;>
        exact ⟨rfl, rfl⟩
    | _ => exact ⟨rfl, rfl⟩
  | _ => exact ⟨f, rfl, rfl, rfl⟩

theorem SymbolTable.func?_note {t : SymbolTable} (id : SymbolId) (n : SymbolNote)
    (hf : t.func? symbol = some f) :
    ∃ g, (t.modifyKind id n.apply).func? symbol = some g ∧ g.type = f.type ∧
      g.progress = f.progress := by
  rw [func?_eq_some] at hf
  obtain ⟨g, hg, hsame⟩ := n.apply_func f
  by_cases hid : symbol = id ∧ id.index < t.size
  · exact ⟨g, by rw [func?_eq_some, kind_modifyKind, if_pos hid, hf, hg], hsame⟩
  · exact ⟨f, by rw [func?_eq_some, kind_modifyKind, if_neg hid, hf], rfl, rfl⟩

theorem SymbolTable.func?_add {t : SymbolTable} (name : String) (span : Span) (k : SymbolKind)
    (parent : Option SymbolId) (hf : t.func? symbol = some f) :
    (((t.add name span k).2).setParent (t.add name span k).1 parent).func? symbol = some f := by
  have hlt := lt_size_of_func? hf
  rw [func?_eq_some, kind_setParent, kind_add, if_neg (by omega)]
  exact func?_eq_some.mp hf

theorem Nesting.symbols_enter (n : Nesting) (s : Analysis) : (s.enter n).symbols = s.symbols := by
  cases n <;> rfl

theorem Nesting.symbols_leave (n : Nesting) (s : Analysis) : (s.leave n).symbols = s.symbols := by
  cases n <;> rfl

theorem Nesting.types_enter (n : Nesting) (s : Analysis) : (s.enter n).types = s.types := by
  cases n <;> rfl

theorem Nesting.types_leave (n : Nesting) (s : Analysis) : (s.leave n).types = s.types := by
  cases n <;> rfl

/-- Functions keep their type and their progress. Types are only added. -/
structure Steady (s t : Analysis) : Prop where
  function : ∀ symbol f, s.symbols.func? symbol = some f →
    ∃ g, t.symbols.func? symbol = some g ∧ g.type = f.type ∧ g.progress = f.progress
  types : s.types.Grows t.types

namespace Steady

theorem of_same {s t : Analysis} (hsymbols : t.symbols = s.symbols) (htypes : t.types = s.types) :
    Steady s t :=
  ⟨fun _ f hf => ⟨f, hsymbols ▸ hf, rfl, rfl⟩, htypes ▸ .refl⟩

theorem trans {s t : Analysis} (hst : Steady s t) (htu : Steady t u) : Steady s u := by
  refine ⟨fun symbol f hf => ?_, hst.types.trans htu.types⟩
  obtain ⟨g, hg, htype, hp⟩ := hst.function symbol f hf
  obtain ⟨k, hk, htype', hp'⟩ := htu.function symbol g hg
  exact ⟨k, hk, htype'.trans htype, hp'.trans hp⟩

end Steady

theorem stable_steady : Stable Steady where
  refl _ := .of_same rfl rfl
  trans := Steady.trans
  act x s := by
    cases x with
    | addSymbol name span k parent =>
      exact ⟨fun symbol f hf => ⟨f, func?_add name span k parent hf, rfl, rfl⟩, .refl⟩
    | note id n => exact ⟨fun symbol f hf => func?_note id n hf, .refl⟩
    | intern k => exact ⟨(Steady.of_same rfl rfl : Steady s s).function, .intern .refl k⟩
    | _ => exact .of_same rfl rfl
  report _ _ := .of_same rfl rfl
  gag := fun h => ⟨h.function, h.types⟩
  nest n s t h :=
    ((Steady.of_same (n.symbols_enter s) (n.types_enter s)).trans h).trans
      (.of_same (n.symbols_leave t) (n.types_leave t))

/-- Functions stay functions and are never set back; from its default arguments on, a function keeps
its type. Types are only added. -/
structure Lasting (s t : Analysis) : Prop where
  function : ∀ symbol f, s.symbols.func? symbol = some f →
    ∃ g, t.symbols.func? symbol = some g ∧ f.progress.rank ≤ g.progress.rank ∧
      (Progress.defaults.rank ≤ f.progress.rank → g.type = f.type)
  types : s.types.Grows t.types

theorem Steady.lasting (h : Steady s t) : Lasting s t := by
  refine ⟨fun symbol f hf => ?_, h.types⟩
  obtain ⟨g, hg, htype, hp⟩ := h.function symbol f hf
  exact ⟨g, hg, Nat.le_of_eq (by rw [hp]), fun _ => htype⟩

theorem Lasting.trans (hst : Lasting s t) (htu : Lasting t u) : Lasting s u := by
  refine ⟨fun symbol f hf => ?_, hst.types.trans htu.types⟩
  obtain ⟨g, hg, hfg, htype⟩ := hst.function symbol f hf
  obtain ⟨k, hk, hgk, htype'⟩ := htu.function symbol g hg
  exact ⟨k, hk, Nat.le_trans hfg hgk, fun hp =>
    (htype' (Nat.le_trans hp hfg)).trans (htype hp)⟩

theorem stable_lasting : Stable Lasting where
  refl s := (stable_steady.refl s).lasting
  trans := Lasting.trans
  act x s := (stable_steady.act x s).lasting
  report d s := (stable_steady.report d s).lasting
  gag := fun h => ⟨h.function, h.types⟩
  nest n s t h :=
    ((Steady.of_same (n.symbols_enter s) (n.types_enter s)).lasting.trans h).trans
      (Steady.of_same (n.symbols_leave t) (n.types_leave t)).lasting

/-! ## Relations that passes keep -/

namespace Analysis

/-- A function never goes back. -/
def MayAdvance (s : Analysis) (symbol : SymbolId) (progress : Progress) : Prop :=
  ∀ f, s.symbols.func? symbol = some f → f.progress.rank ≤ progress.rank

def Undecided (s : Analysis) (symbol : SymbolId) : Prop :=
  (s.progressOf symbol).rank < Progress.defaults.rank

/-- The type of a function can still change: its default arguments were not reached, or there are
some. -/
def Open (s : Analysis) (symbol : SymbolId) : Prop :=
  ∀ f, s.symbols.func? symbol = some f → f.progress.rank < Progress.defaults.rank ∨
    ∃ sig, s.types.kinds[f.type.index]? = some (.function sig) ∧
      ∃ p ∈ sig.params, p.default.isSome

theorem MayAdvance.of_rank_le {s : Analysis} {symbol : SymbolId} {progress : Progress}
    (h : (s.progressOf symbol).rank ≤ progress.rank) : s.MayAdvance symbol progress := by
  intro f hf
  simpa [Tables.progressOf, hf] using h

end Analysis

/-- A stable relation that the changes of the passes keep. The type of a function changes only in a
pass that starts before its default arguments are reached. -/
structure Kept (R : Analysis → Analysis → Prop) : Prop extends Stable R where
  progress (s : Analysis) (symbol : SymbolId) (progress : Progress) :
    s.MayAdvance symbol progress → R s (s.setProgress symbol progress)
  type {s u : Analysis} {symbol : SymbolId} (type : TypeId) :
    s.Undecided symbol → u.Open symbol → R s u → R s (u.setFunctionType symbol type)
  record {s t : Analysis} {e : ExprId} {entry : ArrayOpEntry} {depth : Nat} :
    s.arrayOps.get? (operationName s.toTables e) = none →
    (buildArrayOp (operationName s.toTables e) e
      ((partsOf s.toTables e).operands.map (·.param))).run (analyser depth) s =
        some (entry, t) →
    R s t → R s (t.recordArrayOp (operationName s.toTables e) entry)

/-! ### When the type of a function changes -/

namespace Analyse

variable {sc : ScopeId} {place : Span} {name : String} {e : ExprId}

theorem declScope_alone : (declScope symbol).Alone True := by
  refine .bind (.ask _) fun f => ?_
  split
  · exact .pure _
  · exact globalScope_alone _

theorem declaredType_alone : (declaredType symbol f).Alone True :=
  .bind (.ask id) fun _ => .bind declScope_alone fun _ => resolveType_alone

theorem checkMain_alone : (checkMain type name place).Alone True := by
  refine .bind (.ask _) fun sig => ?_
  split
  · exact .pure _
  refine .bind (.ask _) fun result => .optional (.error _ _) fun _ =>
    .bind (.act trivial) fun texts => .bind (.act trivial) fun _ => ?_
  exact .whenever (.error _ _)

theorem checkDeclaration_alone : (checkDeclaration symbol f type).Alone True := by
  refine .bind (.ask id) fun p => .optional checkMain_alone fun _ =>
    .optional (.error _ _) fun _ => .bind (.act trivial) fun _ => ?_
  exact .whenever (.error _ _)

theorem addToModule_alone : (addToModule symbol).Alone True := by
  refine .bind .context fun c => ?_
  split
  · exact .pure _
  · exact .act trivial

theorem elementCast_alone {v target source : ExprId} :
    (elementCast v target source place).Alone False := by
  refine .bind (.ask id) fun p => ?_
  split
  · exact .pure _
  dsimp only
  split
  · exact .pure _
  · exact .act rfl

theorem elementExpr_alone {count : Nat} : (elementExpr place depth e count).Alone False := by
  induction depth generalizing e count with
  | zero => exact .pure _
  | succ depth ih =>
    refine .bind (.ask _) fun node => ?_
    split
    · exact ih
    · exact .bind (.act rfl) fun _ => .bind (.act rfl) fun _ => .bind (.act rfl) fun _ => .pure _
    · refine .bind ih fun v => .bind ih fun target => ?_
      dsimp only
      split
      · exact .bind elementCast_alone fun _ => .bind (.act rfl) fun _ => .pure _
      · exact .bind (.pure _) fun _ => .bind (.act rfl) fun _ => .pure _
    · exact .bind ih fun _ => .bind ih fun _ => .bind (.act rfl) fun _ => .pure _
    · exact .bind ih fun _ => .bind (.act rfl) fun _ => .pure _
    · exact .bind (.act rfl) fun _ => .pure _

theorem arrayOpBody_alone {first : String} : (arrayOpBody first e place).Alone False :=
  .bind (.act rfl) fun _ => .bind (.act rfl) fun _ => .bind (.act rfl) fun _ =>
    .bind (.act trivial) fun _ => .bind (.act trivial) fun _ => .bind (.act rfl) fun _ =>
      .bind (.act trivial) fun _ => .bind (.act trivial) fun _ => .act trivial

theorem mapM_defaultArgument_plain {sc : ScopeId} {ps : List Param}
    (hps : ∀ p ∈ ps, p.default = none) :
    ps.mapM (defaultArgument sc) = pure (ps.map (·, false)) := by
  induction ps with
  | nil => rfl
  | cons p ps ih =>
    have hp : defaultArgument sc p = pure (p, false) := by
      simp only [defaultArgument, hps p mem_cons_self]
    rw [mapM_cons, hp, ih fun q hq => hps q (mem_cons_of_mem p hq)]
    simp

theorem defaultArguments_plain {symbol : SymbolId} (hsig : ∀ p ∈ sig.params, p.default = none) :
    defaultArguments symbol sig = (do
      let _ ← declScope symbol
      return none) := by
  unfold defaultArguments
  simp [mapM_defaultArgument_plain hsig]

end Analyse

theorem SymbolTable.func?_setProgress (hf : s.symbols.func? symbol = some f) (progress : Progress) :
    (s.setProgress symbol progress).symbols.func? symbol =
      some { f with progress := progress } := by
  simp [Analysis.setProgress, func?_modifyFunc, hf]

/-- While the declaration of a function is looked at, its type is open. -/
theorem Pass.open_of_declared (hf : s.symbols.func? symbol = some f)
    (hrun : (declaredType symbol f).run h (s.setProgress symbol .declared) =
      some (type, u)) : u.Open symbol := by
  have hsteady := run_alone stable_steady declaredType_alone hrun
  obtain ⟨g, hg, -, hp⟩ := hsteady.function symbol _ (func?_setProgress hf .declared)
  intro g' hg'
  rw [hg] at hg'
  cases hg'
  exact .inl (by rw [hp]; exact Nat.lt_succ_self 1)

theorem TypeTable.kinds_of_signature {t : TypeTable} {id : TypeId}
    (h : t.signature? id = some sig) :
    t.kinds[id.index]? = some (.function sig) := by
  unfold signature? kind at h
  cases hk : t.kinds[id.index]? with
  | none => simp [hk] at h
  | some k => cases k <;> simp_all

/-- When the default arguments of a function give it another type, there are some. -/
theorem Pass.open_of_defaults (hl : h.Keeps Lasting) (hs : s.Undecided symbol)
    (hsig : s.types.signature? ((s.setProgress symbol .defaults).functionType symbol) = some sig)
    (hrun : (defaultArguments symbol sig).run h (s.setProgress symbol .defaults) =
      some (some type, u)) : u.Open symbol := by
  have hdefault : ∃ p ∈ sig.params, p.default.isSome := by
    refine Classical.byContradiction fun hnone => ?_
    have hplain : ∀ p ∈ sig.params, p.default = none := fun p hp =>
      not_isSome_iff_eq_none.mp fun hsome => hnone ⟨p, hp, hsome⟩
    rw [defaultArguments_plain hplain] at hrun
    obtain ⟨_, _, -, hdone⟩ := run_bind_inv hrun
    cases hdone
  cases hf : s.symbols.func? symbol with
  | none =>
    simp only [Analysis.Undecided, Tables.progressOf, hf] at hs
    exact absurd hs (by decide)
  | some f =>
    have hf' := func?_setProgress hf .defaults
    have hlast := run_stable stable_lasting hl _ hrun
    obtain ⟨g, hg, -, htype⟩ := hlast.function symbol _ hf'
    intro g' hg'
    rw [hg] at hg'
    cases hg'
    simp only [Tables.functionType, hf'] at hsig
    rw [htype .refl]
    exact .inr ⟨sig, hlast.types.kinds_eq (TypeTable.kinds_of_signature hsig), hdefault⟩

/-! ### Passes -/

/-- A relation that the rules and the changes of the passes keep. -/
structure Pass.Parts (h : Analyser) (R : Analysis → Analysis → Prop) : Prop where
  refl (s : Analysis) : R s s
  trans {s t u : Analysis} : R s t → R t u → R s u
  progress (s : Analysis) (symbol : SymbolId) (progress : Progress) :
    s.MayAdvance symbol progress → R s (s.setProgress symbol progress)
  declared {s u : Analysis} {symbol : SymbolId} {f : Function} {type : TypeId} :
    s.symbols.func? symbol = some f → f.progress.rank < Progress.declared.rank →
    (declaredType symbol f).run h (s.setProgress symbol .declared) = some (type, u) →
    R s (u.setFunctionType symbol type)
  checked {s t : Analysis} {symbol : SymbolId} {f : Function} {type : TypeId} :
    (checkDeclaration symbol f type).run h s = some ((), t) → R s t
  defaulted {s u : Analysis} {symbol : SymbolId} {sig : Signature} {type : Option TypeId} :
    s.Undecided symbol →
    s.types.signature? ((s.setProgress symbol .defaults).functionType symbol) = some sig →
    (defaultArguments symbol sig).run h (s.setProgress symbol .defaults) =
      some (type, u) → R s (type.elim u (u.setFunctionType symbol))
  stepped {s t : Analysis} {symbol : SymbolId} {f : Function} {sig : Signature} {body : StmtId} :
    s.types.signature? f.type = some sig →
    (bodyStep symbol f sig body).run h s = some ((), t) → R s t

namespace Pass.Parts

variable (hR : Parts h R)
include hR

theorem signature (hrun : Pass.signature h symbol s = some ((), t)) : R s t := by
  rw [signature_run] at hrun
  split at hrun
  · cases hrun
    exact hR.refl _
  obtain ⟨⟨_, u⟩, hdeclare, hdefaults⟩ := bind_eq_some_iff.mp hrun
  have hmid : R s u := by
    split at hdeclare
    · obtain ⟨⟨type, v⟩, htype, hcheck⟩ := bind_eq_some_iff.mp hdeclare
      exact hR.trans (hR.declared ‹_› ‹_› htype) (hR.checked hcheck)
    · cases hdeclare
      exact hR.refl _
  split at hdefaults
  · rename_i hp
    refine hR.trans hmid ?_
    rw [defaults_run] at hdefaults
    dsimp only at hdefaults
    split at hdefaults
    · cases hdefaults
      exact hR.progress u symbol .defaults (.of_rank_le (Nat.le_of_lt hp))
    obtain ⟨⟨type, v⟩, hargs, hset⟩ := bind_eq_some_iff.mp hdefaults
    cases hset
    exact hR.defaulted hp ‹_› hargs
  · cases hdefaults
    exact hmid

theorem body (hrun : Pass.body h symbol s = some ((), t)) : R s t := by
  rw [body_run, bind_eq_some_iff] at hrun
  obtain ⟨⟨_, u⟩, hsig, hrest⟩ := hrun
  have hmid := hR.signature hsig
  split at hrest
  · cases hrest
    exact hmid
  rename_i f hf
  split at hrest
  · cases hrest
    exact hmid
  rw [bind_eq_some_iff] at hrest
  obtain ⟨⟨_, v⟩, hbody, hdone⟩ := hrest
  cases hdone
  have hstart : R u (u.setProgress symbol .bodyRunning) :=
    hR.progress u symbol .bodyRunning fun g hg => by
      rw [hf] at hg
      cases hg
      omega
  have hv : R u v := by
    split at hbody
    · exact hR.trans hstart (hR.stepped ‹_› hbody)
    · cases hbody
      exact hstart
  refine hR.trans hmid (hR.trans hv (hR.progress v symbol .bodyDone fun g _ => ?_))
  cases g.progress <;> decide

end Pass.Parts

section

variable {R : Analysis → Analysis → Prop} (hR : Kept R) {depth : Nat}
  (hh : (analyser depth).Keeps R)
  {symbol : SymbolId} {s t : Analysis}
include hR hh

theorem run_kept (x : Analyse α) {a : α} (hx : x.run (analyser depth) s = some (a, t)) : R s t :=
  run_stable hR.toStable hh x hx

theorem Kept.parts (hl : (analyser depth).Keeps Lasting) : Pass.Parts (analyser depth) R where
  refl := hR.refl
  trans := hR.trans
  progress := hR.progress
  declared {s u symbol f type} hf hp hrun := by
    have hprogress : s.progressOf symbol = f.progress := by simp [Tables.progressOf, hf]
    have hstart : R s (s.setProgress symbol .declared) :=
      hR.progress s symbol .declared (.of_rank_le (hprogress ▸ Nat.le_of_lt hp))
    have hundecided : s.Undecided symbol := by
      simp only [Analysis.Undecided, hprogress, Progress.rank] at hp ⊢
      omega
    exact hR.type type hundecided (Pass.open_of_declared hf hrun)
      (hR.trans hstart (run_kept hR hh _ hrun))
  checked hrun := run_kept hR hh _ hrun
  defaulted {s u symbol sig type} hp hsig hrun := by
    have hstart : R s (s.setProgress symbol .defaults) :=
      hR.progress s symbol .defaults (.of_rank_le (Nat.le_of_lt hp))
    have hmid := hR.trans hstart (run_kept hR hh _ hrun)
    cases type with
    | none => exact hmid
    | some type => exact hR.type type hp (Pass.open_of_defaults hl hp hsig hrun) hmid
  stepped _ hrun := run_kept hR hh _ hrun

theorem Pass.arrayOp_kept {e : ExprId} {entry : ArrayOpEntry}
    (hrun : Pass.arrayOp (analyser depth) e s = some (entry, t)) : R s t := by
  rw [arrayOp_run] at hrun
  split at hrun
  · cases hrun
    exact hR.refl _
  rename_i huncached
  rw [bind_eq_some_iff] at hrun
  obtain ⟨⟨_, u⟩, hmake, hset⟩ := hrun
  cases hset
  exact hR.record huncached hmake (run_kept hR hh _ hmake)

end

theorem kept_lasting : Kept Lasting where
  toStable := stable_lasting
  progress s id progress hp := by
    refine ⟨fun symbol f hf => ?_, .refl⟩
    by_cases hid : symbol = id
    · subst hid
      exact ⟨_, func?_setProgress hf progress, hp f hf, fun _ => rfl⟩
    · exact ⟨f, by simp [Analysis.setProgress, func?_modifyFunc, hf, hid],
        .refl, fun _ => rfl⟩
  type {s u id} type hs _ h := by
    refine ⟨fun symbol f hf => ?_, h.types⟩
    obtain ⟨g, hg, hfg, htype⟩ := h.function symbol f hf
    by_cases hid : symbol = id
    · subst hid
      refine ⟨{ g with type := type }, by
        simp [Analysis.setFunctionType, func?_modifyFunc, hg], hfg, fun hp => ?_⟩
      simp only [Analysis.Undecided, Tables.progressOf, hf] at hs
      omega
    · exact ⟨g, by simp [Analysis.setFunctionType, func?_modifyFunc, hg, hid], hfg,
        htype⟩
  record _ _ h := ⟨h.function, h.types⟩

theorem analyser_keeps_succ (hR : Kept R) (hh : (analyser depth).Keeps R)
    (hl : (analyser depth).Keeps Lasting) : (analyser (depth + 1)).Keeps R := by
  intro β r s t b hrun
  cases r with
  | expr e sc => exact run_kept hR hh _ hrun
  | stmt e sc => exact run_kept hR hh _ hrun
  | signature symbol => exact (hR.parts hh hl).signature hrun
  | body symbol => exact (hR.parts hh hl).body hrun
  | arrayOp e => exact Pass.arrayOp_kept hR hh hrun

theorem analyser_lasting (depth : Nat) : (analyser depth).Keeps Lasting := by
  induction depth with
  | zero =>
    intro β r s t b hrun
    cases hrun
  | succ depth ih => exact analyser_keeps_succ kept_lasting ih ih

theorem analyser_keeps (hR : Kept R) (depth : Nat) : (analyser depth).Keeps R := by
  induction depth with
  | zero =>
    intro β r s t b hrun
    cases hrun
  | succ depth ih => exact analyser_keeps_succ hR ih (analyser_lasting depth)

theorem run_lasting (x : Analyse α) {a : α} (hx : x.run (analyser depth) s = some (a, t)) :
    Lasting s t :=
  run_kept kept_lasting (analyser_lasting depth) x hx

/-! ## Passes are run once -/

/-- A function whose default arguments were reached has its signature for good. -/
theorem Pass.signature_again (hf : s.symbols.func? symbol = some f)
    (hp : Progress.defaults.rank ≤ f.progress.rank) : Pass.signature h symbol s = some ((), s) := by
  have hdeclared : ¬ f.progress.rank < Progress.declared.rank := by
    simp only [Progress.rank] at hp ⊢
    omega
  have hdefaults : ¬ (s.progressOf symbol).rank < Progress.defaults.rank := by
    simp only [Tables.progressOf, hf]
    omega
  rw [signature_run, hf]
  simp only [if_neg hdeclared, if_neg hdefaults, bind_some]

theorem Pass.body_again (hf : s.symbols.func? symbol = some f)
    (hp : Progress.bodyRunning.rank ≤ f.progress.rank) : Pass.body h symbol s = some ((), s) := by
  have hsig : Progress.defaults.rank ≤ f.progress.rank := by
    simp only [Progress.rank] at hp ⊢
    omega
  rw [body_run, signature_again hf hsig]
  simp only [bind_some, hf, if_pos hp]

end DCompiler
