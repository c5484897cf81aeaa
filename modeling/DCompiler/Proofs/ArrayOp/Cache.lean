import DCompiler.Proofs.Analysis.Reached
import DCompiler.Proofs.ArrayOp.Build

/-!
# Array operations of one name share a function

The function for an array operation is found by the name of the operation. It was made for the first
operation of that name, and its parameters have the types of that operation's operands. A later
operation of the same name has as many operands, of the same sorts; but their types can be others,
since of all types only the element type that is written to is in the name.

The functions of an operation are recorded when they are done. While they are analysed, their
operation can be met again: the operator that the loop calls may have it in a default argument.
Nothing is recorded under its name then, so it is made once more, within. This is the only way to
more recordings than names, and seen from outside of it no entry ever changes.
-/

namespace DCompiler

open List Analyse Option

variable {s t : Analysis} {h : Analyser} {span : Span} {r : ExprId} {func : SymbolId}
  {sig : Signature} {same : Prop} {depth : Nat} {e : ExprId}

/-! ## The cache -/

theorem ArrayOpCache.lookup_insertInto (name name' : String) (entry : ArrayOpEntry)
    (entries : List (String × ArrayOpEntry)) :
    (insertInto name entry entries).lookup name' =
      if name' = name then some entry else entries.lookup name' := by
  by_cases h : name' = name
  · subst h
    rw [if_pos rfl]
    induction entries with
    | nil => simp [insertInto]
    | cons other rest ih =>
      unfold insertInto
      split
      · rw [lookup_cons_self]
      split
      · rw [lookup_cons_self]
      · rename_i hkey _
        rw [lookup_cons, beq_false_of_ne hkey, ih]
  · have hbeq : (name' == name) = false := beq_false_of_ne h
    rw [if_neg h]
    induction entries with
    | nil => simp only [insertInto, lookup_cons, hbeq]
    | cons other rest ih =>
      obtain ⟨key, value⟩ := other
      unfold insertInto
      split
      · rename_i hkey
        obtain rfl : name = key := hkey
        simp only [lookup_cons, hbeq]
      split
      · rw [lookup_cons, hbeq]
      · simp only [lookup_cons, ih]

theorem ArrayOpCache.get?_insert (c : ArrayOpCache) (name name' : String) (entry : ArrayOpEntry) :
    (c.insert name entry).get? name' = if name' = name then some entry else c.get? name' :=
  lookup_insertInto name name' entry c.entries

theorem Analysis.MadeFor.not_open (h : s.MadeFor func sig same)
    (hs : TypeTable.initial.Grows s.types) : ¬ s.Open func := by
  obtain ⟨f, hf, hp, hplain, -⟩ := h
  intro hopen
  rcases hopen f hf with hlt | ⟨sig', hsig', p, hmem, hdefault⟩
  · omega
  have hsignature : s.types.signature? f.type = some sig' := by
    simp [TypeTable.signature?, TypeTable.kind, hsig']
  have hnone := mem_map_of_mem (f := (·.default)) hmem
  rw [hplain.signature hs hsignature] at hnone
  rw [(mem_replicate.mp hnone).2] at hdefault
  cases hdefault

theorem Analysis.MadeFor.retype {symbol : SymbolId} (h : s.MadeFor func sig same)
    (hs : TypeTable.initial.Grows s.types) (hopen : s.Open symbol) (type : TypeId) :
    (s.setFunctionType symbol type).MadeFor func sig same := by
  have hne : func ≠ symbol := fun heq => h.not_open hs (heq ▸ hopen)
  obtain ⟨f, hf, hrest⟩ := h
  exact ⟨f, by simp [setFunctionType, SymbolTable.func?_modifyFunc, hf, hne], hrest⟩

namespace Analyse

/-- An operation that was the first of its name. -/
structure FirstOf (name : String) (s : Analysis) (e : ExprId) : Prop where
  reached : Reached s
  named : operationName s.toTables e = name
  uncached : s.arrayOps.get? name = none

/-- The functions of a cache entry were made for an operation. -/
def EntryFor (t : Analysis) (name : String) (entry : ArrayOpEntry) (s : Analysis) (e : ExprId) :
    Prop :=
  ∀ func, entry.callee = some func → t.MadeFor func (operationSignature s.toTables e)
    (isArrayRoutine name = true ∨ SettledOperation s.toTables e)

/-- Every cache entry was made for the first operation of its name. -/
def CacheMade (t : Analysis) : Prop :=
  ∀ name entry, t.arrayOps.get? name = some entry →
    ∃ s e, FirstOf name s e ∧ EntryFor t name entry s e

theorem CacheMade.lasting (h : CacheMade s) (hcache : t.arrayOps = s.arrayOps) (ht : Lasting s t) :
    CacheMade t := by
  intro name entry hentry
  obtain ⟨s₀, e₀, hfirst, hmade⟩ := h name entry (hcache ▸ hentry)
  exact ⟨s₀, e₀, hfirst, fun func hfunc => (hmade func hfunc).lasting ht⟩

theorem arrayOps_after {β : Type} (x : Action β) (s : Analysis) :
    (s.after x).arrayOps = s.arrayOps := by
  cases x <;> rfl

end Analyse

open Analyse

theorem Lasting.of_symbols (hsymbols : t.symbols = s.symbols) (htypes : s.types.Grows t.types) :
    Lasting s t :=
  ⟨fun _ f hf => ⟨f, hsymbols ▸ hf, .refl, fun _ => rfl⟩, htypes⟩

theorem Reached.cached (h : Reached t) : CacheMade t := by
  induction h with
  | start options => exact fun name entry hentry => by cases hentry
  | again _ ih => exact ih
  | readModule h hread ih =>
    obtain ⟨t, hrun, rfl⟩ := Program.read_inv hread
    exact ih.lasting rfl (.of_symbols rfl (SyntaxTables.readModule_grown h.types hrun).1.types)
  | readExpr h hread ih =>
    obtain ⟨t, hrun, rfl⟩ := Program.read_inv hread
    exact ih.lasting rfl (.of_symbols rfl (SyntaxTables.readExpr_grown h.types hrun).1.types)
  | act _ x ih => exact ih.lasting (arrayOps_after x _) (stable_lasting.act x _)
  | report _ d ih => exact ih.lasting rfl (stable_lasting.report d _)
  | gag _ ih | ungag _ ih => exact ih
  | enter _ n ih =>
    cases n <;> exact ih.lasting rfl (.of_symbols rfl .refl)
  | leave _ n ih =>
    cases n <;> exact ih.lasting rfl (.of_symbols rfl .refl)
  | advance _ hp ih => exact ih.lasting rfl (kept_lasting.progress _ _ _ hp)
  | retype h hopen type ih =>
    intro name entry hentry
    obtain ⟨s, e, hfirst, hmade⟩ := ih name entry hentry
    exact ⟨s, e, hfirst, fun func hfunc => (hmade func hfunc).retype h.types hopen type⟩
  | record hs ht huncached hbuild ihs iht =>
    rename_i s t e entry depth
    intro name entry' hentry
    rw [Analysis.recordArrayOp, ArrayOpCache.get?_insert] at hentry
    split at hentry
    · rename_i hname
      subst hname
      cases hentry
      have hmade : EntryFor t _ entry s e := buildArrayOp_callee hs.types hbuild
      exact ⟨s, e, ⟨hs, rfl, huncached⟩, hmade⟩
    · exact iht name entry' hentry

/-! ## Calls -/

theorem arrayOpEntry_run (e : ExprId) :
    (arrayOpEntry e).run (analyser (depth + 1)) s = Pass.arrayOp (analyser depth) e s := by
  simp only [arrayOpEntry, run]
  split
  all_goals
    next hanswer => exact hanswer.symm

theorem arrayOpEntry_for {u : Analysis} {entry : ArrayOpEntry} (hs : Reached s)
    (hrun : (arrayOpEntry e).run (analyser depth) s = some (entry, u)) :
    ∃ s₀ e₀, FirstOf (operationName s.toTables e) s₀ e₀ ∧
      EntryFor u (operationName s.toTables e) entry s₀ e₀ ∧
      (s.arrayOps.get? (operationName s.toTables e) = none → s₀ = s ∧ e₀ = e) := by
  cases depth with
  | zero => cases hrun
  | succ depth =>
    rw [arrayOpEntry_run, Pass.arrayOp_run] at hrun
    split at hrun
    · rename_i hfound
      cases hrun
      obtain ⟨s₀, e₀, hfirst, hmade⟩ := hs.cached _ _ hfound
      exact ⟨s₀, e₀, hfirst, hmade, fun h => by rw [hfound] at h; cases h⟩
    · rename_i huncached
      obtain ⟨⟨made, v⟩, hbuild, hdone⟩ := bind_eq_some_iff.mp hrun
      cases hdone
      have hmade : EntryFor v _ made s e := buildArrayOp_callee hs.types hbuild
      exact ⟨s, e, ⟨hs, rfl, huncached⟩, hmade, fun _ => ⟨rfl, rfl⟩⟩

theorem Analyse.typed_inv {k : Expr} {type : TypeId}
    (hrun : (typed k span type).run h s = some (r, t)) :
    t.symbols = s.symbols ∧ t.types = s.types ∧ r.index = s.exprs.size ∧
      t.exprs.size = s.exprs.size + 1 ∧
      ∀ j, t.exprs.node j =
        if j.index = s.exprs.size then ⟨k, span, some type⟩ else s.exprs.node j := by
  cases hrun
  exact ⟨rfl, rfl, rfl, ExprTable.size_addNode _ _, ExprTable.node_addNode _ _⟩

theorem Analyse.errorExpr_kind (hrun : (errorExpr span).run h s = some (r, t)) :
    t.exprs.kind r = .error := by
  obtain ⟨-, -, hr, -, hnode⟩ := typed_inv hrun
  rw [ExprTable.kind, hnode, if_pos hr]

theorem Analyse.fail_kind {problem : Problem} (hrun : (fail span problem).run h s = some (r, t)) :
    t.exprs.kind r = .error := by
  obtain ⟨_, u, -, hr⟩ := run_bind_inv hrun
  exact errorExpr_kind hr

theorem arrayOp_call {callee : ExprId} {args : List ExprId}
    (hrun : (arrayOp e).run h s = some (r, t)) (hcall : t.exprs.kind r = .call callee args) :
    ∃ entry func u, (arrayOpEntry e).run h s = some (entry, u) ∧ entry.callee = some func ∧
      t.symbols = u.symbols ∧ t.types = u.types ∧
      t.exprs.kind callee = .symbolRef func ∧
      t.exprs.type? callee = some (u.functionType func) ∧
      args = (partsOf s.toTables e).operands.map (·.expr) := by
  obtain ⟨p, s', htables, hrun1⟩ := run_bind_inv hrun
  cases htables
  split at hrun1
  · rw [errorExpr_kind hrun1] at hcall
    cases hcall
  split at hrun1
  · rw [fail_kind hrun1] at hcall
    cases hcall
  obtain ⟨entry, u, hentry, hrun2⟩ := run_bind_inv hrun1
  split at hrun2
  · obtain ⟨_, _, -, hrun3⟩ := run_bind_inv hrun2
    obtain ⟨_, _, -, hfail⟩ := run_bind_inv hrun3
    rw [fail_kind hfail] at hcall
    cases hcall
  · rename_i func hfunc
    obtain ⟨type, u', htype, hrun3⟩ := run_bind_inv hrun2
    obtain ⟨rfl, rfl⟩ := Prod.mk.inj (Option.some.inj (htype.symm.trans (ask_run _ _ _)))
    obtain ⟨made, v, hmade, hrun4⟩ := run_bind_inv hrun3
    obtain ⟨hsymbols, htypes, hindex, hsize, hnode⟩ := typed_inv hmade
    obtain ⟨hsymbols', htypes', hindex', -, hnode'⟩ := typed_inv hrun4
    rw [ExprTable.kind, hnode', if_pos hindex'] at hcall
    cases hcall
    have hcallee : t.exprs.node callee =
        ⟨.symbolRef func, s.exprs.span e, some (u'.functionType func)⟩ := by
      rw [hnode', if_neg (by omega), hnode, if_pos hindex]
    refine ⟨entry, func, u', hentry, hfunc, hsymbols'.trans hsymbols, htypes'.trans htypes, ?_, ?_,
      rfl⟩
    · rw [ExprTable.kind, hcallee]
    · rw [ExprTable.type?, hcallee]

/-- The arguments of a call that an array assignment becomes have the types of the parameters
exactly if the operands have the types of those of the first operation of that name; in number and
sort they always agree. The parameters are those of the first operation as it was: for a routine of
the library, and for operands whose types have no names left to look up. -/
theorem arrayOp_call_fits_first_use {depth : Nat} {s t : Analysis} {e r callee : ExprId}
    {args : List ExprId} (hs : Reached s)
    (hrun : (arrayOp e).run (analyser depth) s = some (r, t))
    (hcall : t.exprs.kind r = .call callee args) :
    ∃ func f s₀ e₀,
      t.exprs.kind callee = .symbolRef func ∧ t.symbols.func? func = some f ∧
      t.exprs.type? callee = some f.type ∧ args.map s.typeOf = operandTypes s.toTables e ∧
      FirstOf (operationName s.toTables e) s₀ e₀ ∧
      (s.arrayOps.get? (operationName s.toTables e) = none → s₀ = s ∧ e₀ = e) ∧
      operandSorts s.toTables e = operandSorts s₀.toTables e₀ ∧
      (∀ sig, t.types.signature? f.type = some sig → sig.params.length = args.length) ∧
      (isArrayRoutine (operationName s.toTables e) = true ∨ SettledOperation s₀.toTables e₀ →
        ∃ sig, t.types.signature? f.type = some sig ∧
          (args.map s.typeOf = sig.params.map (·.type) ↔
            operandTypes s.toTables e = operandTypes s₀.toTables e₀)) := by
  obtain ⟨entry, func, u, hentry, hfunc, hsymbols, htypes, hkind, htype, hargs⟩ :=
    arrayOp_call hrun hcall
  obtain ⟨s₀, e₀, hfirst, hmade, hmiss⟩ := arrayOpEntry_for hs hentry
  obtain ⟨f, hf, -, hplain, hsame⟩ := hmade func hfunc
  have hu : TypeTable.initial.Grows u.types := (run_reached _ hs hentry).types
  have hargtypes : args.map s.typeOf = operandTypes s.toTables e := by
    rw [hargs, List.map_map]
    rfl
  have hsorts := sorts_of_name hfirst.named.symm
  refine ⟨func, f, s₀, e₀, hkind, hsymbols ▸ hf, ?_, hargtypes, hfirst, hmiss, hsorts, ?_, ?_⟩
  · rw [htype, Tables.functionType, hf]
  · intro sig hsig
    have hcount := congrArg List.length (hplain.signature hu (htypes ▸ hsig))
    have hlength := congrArg List.length hsorts
    simp only [operationSignature, operandSorts, length_map, length_replicate]
      at hcount hlength
    rw [hcount, hargs, length_map, hlength]
  · intro h
    have hsig : t.types.signature? f.type = some (operationSignature s₀.toTables e₀) := by
      simp [htypes, TypeTable.signature?, TypeTable.kind, hsame h]
    refine ⟨_, hsig, ?_⟩
    rw [hargtypes, operationSignature, operandTypes_eq_params]

/-- A module that adds an `int` and then a `long` to the elements of an array, when it is
analysed. -/
def twoAdditions : Analysis :=
  stateOf "void f(int[] a, long x) { a[] += 2; a[] += x; }"

theorem twoAdditions_reached : Reached twoAdditions := stateOf_reached _

theorem arrayOp_call_twoAdditions : ∃ (r callee : ExprId) (t : Analysis) (args : List ExprId)
    (f : Function) (sig : Signature),
    (arrayOp ⟨7⟩).run (analyser 1) twoAdditions = some (r, t) ∧
    t.exprs.kind r = .call callee args ∧ t.exprs.type? callee = some f.type ∧
    t.types.signature? f.type = some sig ∧ sig.params.length = args.length := by
  have hrun : ((arrayOp ⟨7⟩).run (analyser 1) twoAdditions).any (fun r =>
      r.2.exprs.kind r.1 = .call ⟨23⟩ [⟨5⟩, ⟨6⟩]) := by decide +kernel
  have hroutine : isArrayRoutine (operationName twoAdditions.toTables ⟨7⟩) = true := by
    decide +kernel
  obtain ⟨⟨r, t⟩, hrt, hcall⟩ := (any_eq_true _ _).mp hrun
  have hkind := of_decide_eq_true hcall
  obtain ⟨func, f, s₀, e₀, -, -, htype, -, -, -, -, hcount, hfits⟩ :=
    arrayOp_call_fits_first_use twoAdditions_reached hrt hkind
  obtain ⟨sig, hsig, -⟩ := hfits (.inl hroutine)
  exact ⟨r, _, t, _, f, sig, hrt, hkind, htype, hsig, hcount sig hsig⟩

/-- The types of the arguments of a call, and those of the parameters of the function it names. -/
def callTypes? (p : Tables) (call : ExprId) : Option (List TypeId × List TypeId) :=
  match p.exprs.kind call with
  | .call callee args =>
    match p.exprs.kind callee with
    | .symbolRef func => do
      let sig ← p.types.signature? (p.functionType func)
      return (args.map p.typeOf, sig.params.map (·.type))
    | _ => none
  | _ => none

/-- The two additions have one name, so the `long` goes to a parameter of type `int`. -/
theorem addition_of_long_calls_addition_of_int :
    operationName twoAdditions.toTables ⟨3⟩ = operationName twoAdditions.toTables ⟨7⟩ ∧
    callTypes? twoAdditions.toTables ⟨20⟩ =
      some ([⟨25⟩, .ofScalar .int], [⟨25⟩, .ofScalar .int]) ∧
    callTypes? twoAdditions.toTables ⟨22⟩ =
      some ([⟨25⟩, .ofScalar .long], [⟨25⟩, .ofScalar .int]) := by
  decide +kernel

variable {name : String} {entry : ArrayOpEntry} {entries : List (String × ArrayOpEntry)}
  {c d : ArrayOpCache} {u : Analysis}

/-! ## Names in order -/

namespace ArrayOpCache

/-- Names are in order, and so each of them is there once. -/
def Ordered (c : ArrayOpCache) : Prop := c.entries.Pairwise fun p q => p.1 < q.1

theorem mem_insertInto {p : String × ArrayOpEntry} (hp : p ∈ insertInto name entry entries) :
    p = (name, entry) ∨ p ∈ entries := by
  induction entries with
  | nil => exact .inl (mem_singleton.mp hp)
  | cons other rest ih =>
    unfold insertInto at hp
    grind

theorem ordered_insertInto (h : entries.Pairwise fun p q => p.1 < q.1) :
    (insertInto name entry entries).Pairwise fun p q => p.1 < q.1 := by
  induction h with
  | nil => exact pairwise_singleton ..
  | @cons other rest hother hrest ih =>
    unfold insertInto
    split
    · next heq => exact .cons (fun q hq => heq ▸ hother q hq) hrest
    split
    · next hlt =>
      refine .cons (forall_mem_cons.mpr ⟨hlt, fun q hq => ?_⟩) (.cons hother hrest)
      exact String.lt_trans hlt (hother q hq)
    · next hne hlt =>
      refine .cons (fun q hq => ?_) ih
      rcases mem_insertInto hq with rfl | hq
      · exact ((Std.lt_trichotomy name other.1).resolve_left hlt).resolve_left hne
      · exact hother q hq

theorem length_insertInto (h : entries.Pairwise fun p q => p.1 < q.1) :
    (insertInto name entry entries).length =
      entries.length + if (entries.lookup name).isSome then 0 else 1 := by
  induction h with
  | nil => rfl
  | @cons other rest hother hrest ih =>
    obtain ⟨key, value⟩ := other
    unfold insertInto
    split
    · next heq => simp [show name = key from heq]
    split
    · next hne hlt =>
      have hnone : ((key, value) :: rest).lookup name = none := by
        refine lookup_eq_none_iff.mpr (forall_mem_cons.mpr ⟨by simpa using hne, fun q hq => ?_⟩)
        have hq := String.lt_trans hlt (hother q hq)
        simpa using fun heq : name = q.1 => String.lt_irrefl _ (heq ▸ hq)
      rw [hnone]
      rfl
    · next hne _ =>
      rw [length_cons, ih, lookup_cons, beq_false_of_ne hne, length_cons]
      exact Nat.add_right_comm ..

theorem size_insert (name : String) (entry : ArrayOpEntry) (h : c.Ordered) :
    (c.insert name entry).size = c.size + if (c.get? name).isSome then 0 else 1 :=
  length_insertInto h

/-- A cache some time later. The recordings beyond the first of each name do not get fewer. -/
structure Grows (c d : ArrayOpCache) : Prop where
  ordered : d.Ordered
  kept : ∀ name entry, c.get? name = some entry → d.get? name = some entry
  repeats : c.builds - c.size ≤ d.builds - d.size

end ArrayOpCache

open ArrayOpCache (Grows get?_insert size_insert ordered_insertInto)

theorem ArrayOpCache.Grows.insert (h : Grows c d) (hnew : c.get? name = none) :
    Grows c (d.insert name entry) where
  ordered := ordered_insertInto h.ordered
  kept other found hfound := by
    rw [get?_insert, if_neg fun heq => by simp [heq, hnew] at hfound]
    exact h.kept other found hfound
  repeats := by
    have hsize := size_insert name entry h.ordered
    have hbuilds : (d.insert name entry).builds = d.builds + 1 := rfl
    have := h.repeats
    split at hsize <;> omega

theorem kept_grows : Kept fun s t => s.arrayOps.Ordered → Grows s.arrayOps t.arrayOps where
  refl _ := fun hs => ⟨hs, fun _ _ => id, .refl⟩
  trans h h' := fun hs =>
    have hst := h hs
    have htu := h' hst.ordered
    ⟨htu.ordered, fun name entry hentry => htu.kept name entry (hst.kept name entry hentry),
      Nat.le_trans hst.repeats htu.repeats⟩
  act x s := fun hs => by
    rw [arrayOps_after]
    exact ⟨hs, fun _ _ => id, .refl⟩
  report _ _ := fun hs => ⟨hs, fun _ _ => id, .refl⟩
  gag h := h
  nest n _ _ h := by cases n <;> exact h
  progress _ _ _ _ := fun hs => ⟨hs, fun _ _ => id, .refl⟩
  type _ _ _ h := h
  record huncached _ h := fun hs => (h hs).insert huncached

/-! ## Operations within operations -/

open Analyse

/-- While the functions of an operation were made, the first of its name, others were recorded under
that name. -/
def MadeWithin (name : String) : Prop :=
  ∃ s e, FirstOf name s e ∧ ∃ depth entry t,
    (buildArrayOp name e ((partsOf s.toTables e).operands.map (·.param))).run (analyser depth) s =
      some (entry, t) ∧ (t.arrayOps.get? name).isSome

structure ArrayOpCache.Counted (c : ArrayOpCache) : Prop where
  ordered : c.Ordered
  size_le : c.size ≤ c.builds
  within : c.size < c.builds → ∃ name entry, c.get? name = some entry ∧ MadeWithin name

theorem ArrayOpCache.Counted.insert (h : c.Counted) (entry : ArrayOpEntry)
    (hname : (c.get? name).isSome → MadeWithin name) : (c.insert name entry).Counted := by
  have hsize := size_insert name entry h.ordered
  have hbuilds : (c.insert name entry).builds = c.builds + 1 := rfl
  have hle := h.size_le
  refine ⟨ordered_insertInto h.ordered, by split at hsize <;> omega, fun hlt => ?_⟩
  simp only [get?_insert]
  cases hnew : c.get? name with
  | some found => exact ⟨name, entry, if_pos rfl, hname (by simp [hnew])⟩
  | none =>
    -- This recording is the first of its name, so the repeated one was before.
    rw [hnew, if_neg (by simp)] at hsize
    obtain ⟨other, found, hfound, hwithin⟩ := h.within (by omega)
    refine ⟨other, found, ?_, hwithin⟩
    rwa [if_neg fun heq => by simp [heq, hnew] at hfound]

theorem Reached.counted (h : Reached t) : t.arrayOps.Counted := by
  induction h with
  | start options => exact ⟨.nil, .refl, fun h => absurd h (Nat.lt_irrefl _)⟩
  | again _ ih | report _ _ ih | gag _ ih | ungag _ ih | advance _ _ ih | retype _ _ _ ih =>
    exact ih
  | readModule _ hread ih | readExpr _ hread ih =>
    obtain ⟨t, -, rfl⟩ := Program.read_inv hread
    exact ih
  | act _ x ih => rwa [arrayOps_after]
  | enter _ n ih | leave _ n ih => cases n <;> exact ih
  | @record s t e entry depth hs _ huncached hbuild _ ih =>
    exact ih.insert entry fun hname => ⟨s, e, ⟨hs, rfl, huncached⟩, depth, entry, t, hbuild, hname⟩

/-- A state of a session, seen from an earlier one: rules are run one after the other, the next
analysis starts with a new context, and texts are read. -/
inductive GoesOn (s : Analysis) : Analysis → Prop
  | refl : GoesOn s s
  | run {α : Type} {a : α} {depth : Nat} {t u : Analysis} (h : GoesOn s t) (x : Analyse α)
      (hx : x.run (analyser depth) t = some (a, u)) : GoesOn s u
  | again {t : Analysis} (h : GoesOn s t) : GoesOn s (.ofProgram t.toProgram)
  | read {α : Type} {a : α} {p q : Program}
      {reader : SyntaxTables → Except ReadError (α × SyntaxTables)}
      (h : GoesOn s (.ofProgram p)) (hread : p.read reader = .ok (a, q)) : GoesOn s (.ofProgram q)

theorem GoesOn.grows (h : GoesOn s t) (hs : s.arrayOps.Ordered) : Grows s.arrayOps t.arrayOps := by
  induction h with
  | refl => exact kept_grows.refl s hs
  | run _ x hx ih =>
    have hrun := run_kept kept_grows (analyser_keeps kept_grows _) x hx
    exact kept_grows.trans (fun _ => ih) hrun hs
  | again _ ih => exact ih
  | read _ hread ih =>
    obtain ⟨t, -, rfl⟩ := Program.read_inv hread
    exact ih

/-! ## Lowering -/

def SameTables (s t : Analysis) : Prop :=
  t.symbols = s.symbols ∧ t.scopes = s.scopes ∧ t.stmts = s.stmts ∧ t.types = s.types ∧
    t.arrayOps = s.arrayOps

/-- An operation became a call of the function in a cache entry, or an error. Of expressions there
is no more than that call and its callee. -/
structure Lowered (entry : ArrayOpEntry) (s : Analysis) (r : ExprId) (t : Analysis) : Prop where
  same : SameTables s t
  exprs : t.exprs.size ≤ s.exprs.size + 2
  result : t.exprs.kind r = .error ∨ ∃ callee args func, t.exprs.kind r = .call callee args ∧
    t.exprs.kind callee = .symbolRef func ∧ entry.callee = some func

theorem typed_same (h : Analyser) (s : Analysis) (span : Span) (k : Expr) (type : TypeId) :
    ∃ r t, (typed k span type).run h s = some (r, t) ∧ SameTables s t :=
  ⟨_, _, rfl, rfl, rfl, rfl, rfl, rfl⟩

theorem errorExpr_lowered (entry : ArrayOpEntry) (h : Analyser) (s : Analysis) (span : Span) :
    ∃ r t, (errorExpr span).run h s = some (r, t) ∧ Lowered entry s r t := by
  obtain ⟨r, t, hrun, hsame⟩ := typed_same h s span .error .error
  obtain ⟨-, -, -, hsize, -⟩ := typed_inv hrun
  exact ⟨r, t, hrun, hsame, by omega, .inl (errorExpr_kind hrun)⟩

theorem fail_lowered (problem : Problem) :
    ∃ r t, (fail span problem).run h s = some (r, t) ∧ Lowered entry s r t := by
  obtain ⟨r, t, hrun, hsame, hexprs, hresult⟩ := errorExpr_lowered entry h
    (s.report { severity := .error, message := problem.message, span := span }) span
  exact ⟨r, t, hrun, hsame, hexprs, hresult⟩

theorem arrayOp_found (depth : Nat)
    (hfound : s.arrayOps.get? (operationName s.toTables e) = some entry) :
    ∃ r t, (arrayOp e).run (analyser (depth + 1)) s = some (r, t) ∧
      Lowered entry s r t := by
  have htables : tables.run (analyser (depth + 1)) s = some (s.toTables, s) := rfl
  have hentry : (arrayOpEntry e).run (analyser (depth + 1)) s = some (entry, s) := by
    rw [arrayOpEntry_run, Pass.arrayOp_run, hfound]
  unfold arrayOp
  rw [run_bind, htables, bind_some]
  split
  · exact errorExpr_lowered ..
  split
  · exact fail_lowered _
  rw [run_bind, hentry, bind_some]
  split
  · exact fail_lowered _
  rename_i func hfunc
  rw [run_bind, ask_run, bind_some, run_bind]
  obtain ⟨callee, u, hcallee, hsame⟩ := typed_same (analyser (depth + 1)) s
    (s.exprs.span e) (.symbolRef func) (s.functionType func)
  obtain ⟨r, t, hcall, hsame'⟩ := typed_same (analyser (depth + 1)) u
    (s.exprs.span e) (.call callee ((partsOf s.toTables e).operands.map (·.expr))) (s.typeOf e)
  obtain ⟨-, -, hindex, hsize, hnode⟩ := typed_inv hcallee
  obtain ⟨-, -, hindex', hsize', hnode'⟩ := typed_inv hcall
  have hkind : t.exprs.kind callee = .symbolRef func := by
    rw [ExprTable.kind, hnode', if_neg (by omega), hnode, if_pos hindex]
  have hsames : SameTables s t := by
    unfold SameTables at hsame hsame' ⊢
    simp only [hsame, hsame', and_self]
  rw [hcallee, bind_some]
  refine ⟨r, t, hcall, hsames, by omega, .inr ⟨callee, (partsOf s.toTables e).operands.map (·.expr),
    func, ?_, hkind, hfunc⟩⟩
  rw [ExprTable.kind, hnode', if_pos hindex']

/-- In every state of a session, array operations were recorded at least as often as there are
names, and oftener only if an operation was met again while it was made. Entries stay as they are in
all later states. An operation whose name is recorded is lowered without anything being made; one
whose name is not is made and recorded, and this adds a name unless its making has recorded the
same. -/
theorem arrayOps_recorded {s : Analysis} (hs : Reached s) :
    s.arrayOps.size ≤ s.arrayOps.builds ∧
    (s.arrayOps.size < s.arrayOps.builds →
      ∃ name entry, s.arrayOps.get? name = some entry ∧ MadeWithin name) ∧
    (∀ t, GoesOn s t → s.arrayOps.Grows t.arrayOps) ∧
    ∀ e depth,
      (∀ entry, s.arrayOps.get? (operationName s.toTables e) = some entry →
        ∃ r t, (arrayOp e).run (analyser (depth + 1)) s = some (r, t) ∧
          Lowered entry s r t) ∧
      (∀ entry t, s.arrayOps.get? (operationName s.toTables e) = none →
        (arrayOpEntry e).run (analyser (depth + 1)) s = some (entry, t) →
        ∃ u, (buildArrayOp (operationName s.toTables e) e
            ((partsOf s.toTables e).operands.map (·.param))).run (analyser depth) s =
              some (entry, u) ∧
          t.arrayOps.builds = u.arrayOps.builds + 1 ∧
          t.arrayOps.size = u.arrayOps.size +
            if (u.arrayOps.get? (operationName s.toTables e)).isSome then 0 else 1) := by
  have hcounted := hs.counted
  refine ⟨hcounted.size_le, hcounted.within, fun t ht => ht.grows hcounted.ordered,
    fun e depth => ⟨fun entry hfound => arrayOp_found depth hfound, fun entry t hnew hrun => ?_⟩⟩
  rw [arrayOpEntry_run, Pass.arrayOp_run, hnew] at hrun
  obtain ⟨⟨made, u⟩, hbuild, hdone⟩ := bind_eq_some_iff.mp hrun
  cases hdone
  exact ⟨u, hbuild, rfl, size_insert _ _ (run_reached _ hs hbuild).counted.ordered⟩

theorem arrayOps_recorded_twoAdditions : ∃ r t entry,
    twoAdditions.arrayOps.get? (operationName twoAdditions.toTables ⟨7⟩) = some entry ∧
    (arrayOp ⟨7⟩).run (analyser 1) twoAdditions = some (r, t) ∧
    Lowered entry twoAdditions r t := by
  have hfound : (twoAdditions.arrayOps.get? (operationName twoAdditions.toTables ⟨7⟩)).isSome := by
    decide +kernel
  obtain ⟨entry, hentry⟩ := isSome_iff_exists.mp hfound
  obtain ⟨-, -, -, hlowered⟩ := arrayOps_recorded twoAdditions_reached
  obtain ⟨r, t, hrun⟩ := (hlowered ⟨7⟩ 0).1 entry hentry
  exact ⟨r, t, entry, hentry, hrun⟩

/-- A module that adds arrays of a type whose operator adds such arrays in a default argument, when
it is analysed. -/
def selfAdding : Analysis :=
  stateOf ("S[] a; S[] x = (a[] = a[] + a[]); struct S " ++
    "{ S opBinary(string op, S r, S[] z = (a[] = a[] + a[])) { return this; } }")

theorem array_operation_made_twice :
    Reached selfAdding ∧ selfAdding.arrayOps.size = 1 ∧ selfAdding.arrayOps.builds = 2 :=
  ⟨stateOf_reached _, by decide +kernel⟩

end DCompiler
