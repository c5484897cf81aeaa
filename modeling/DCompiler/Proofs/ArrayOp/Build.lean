import DCompiler.Proofs.Analysis.Passes

/-!
# The functions made for an array operation

The name of an operation spells an operand as `Slice` or `Exp`. No other word in it has a capital
`S` or `E`, and no word has an underscore, so the sorts of the operands can be read off the name.
Their types cannot.

The function made for an operation first has the parameters of the operation's operands, as they
are. Its signature is then looked up like that of any function, and from there on nothing changes
its type. The declaration of a library routine keeps the first type.
-/

namespace DCompiler.Analyse

open List

/-- The operands that some letters of a name spell. -/
def spelledSorts (letters : List Char) : List ArrayOpNode :=
  letters.filterMap fun c =>
    if c = 'S' then some .slice else if c = 'E' then some .plain else none

def operandSorts (p : Tables) (e : ExprId) : List ArrayOpNode :=
  (partsOf p e).operands.map fun o => arrayOpNode p o.expr

def operandTypes (p : Tables) (e : ExprId) : List TypeId :=
  (partsOf p e).operands.map fun o => p.typeOf o.expr

/-- Operands and their spelling belong together. -/
structure ArrayOpParts.Spelled (p : Tables) (parts : ArrayOpParts) : Prop where
  sorts : spelledSorts parts.spelling.toList =
    (parts.operands.map fun o => arrayOpNode p o.expr).reverse
  plain : '_' ∉ parts.spelling.toList
  params : ∀ o ∈ parts.operands, o.param.type = p.typeOf o.expr ∧ o.param.default = none

namespace ArrayOpParts.Spelled

variable {p : Tables} {parts : ArrayOpParts}

theorem empty : Spelled p {} := ⟨rfl, by simp, by simp⟩

theorem spell (h : parts.Spelled p) {word : String} (hsorts : spelledSorts word.toList = [])
    (hplain : '_' ∉ word.toList) : (parts.spell word).Spelled p where
  sorts := by
    simp only [ArrayOpParts.spell, String.toList_append, spelledSorts, filterMap_append]
    rw [show word.toList.filterMap _ = [] from hsorts, append_nil]
    exact h.sorts
  plain := by simpa [ArrayOpParts.spell, String.toList_append] using ⟨h.plain, hplain⟩
  params := h.params

theorem operand (h : parts.Spelled p) {word letter : String} {e : ExprId} {storage : StorageClass}
    (hsorts : spelledSorts word.toList = [arrayOpNode p e]) (hplain : '_' ∉ word.toList) :
    (parts.operand word letter e (p.typeOf e) storage).Spelled p where
  sorts := by
    simp only [ArrayOpParts.operand, ArrayOpParts.spell, String.toList_append, spelledSorts,
      filterMap_append, map_cons, reverse_cons]
    rw [show word.toList.filterMap _ = [arrayOpNode p e] from hsorts]
    exact congrArg (· ++ [arrayOpNode p e]) h.sorts
  plain := by
    simpa [ArrayOpParts.operand, ArrayOpParts.spell, String.toList_append] using
      ⟨h.plain, hplain⟩
  params := by
    intro o ho
    rcases mem_cons.mp ho with rfl | ho
    · exact ⟨rfl, rfl⟩
    · exact h.params o ho

theorem writable (h : parts.Spelled p) : parts.writable.Spelled p := by
  unfold ArrayOpParts.writable
  split
  · exact h
  rename_i o rest hparts
  have hsorts := h.sorts
  have hparams := h.params
  rw [hparts] at hsorts hparams
  refine ⟨hsorts, h.plain, fun o' ho' => ?_⟩
  rcases mem_cons.mp ho' with rfl | ho'
  · exact hparams o mem_cons_self
  · exact hparams o' (mem_cons_of_mem o ho')

end ArrayOpParts.Spelled

theorem assignWord_spells (op : AssignOp) :
    spelledSorts (assignWord op).toList = [] ∧ '_' ∉ (assignWord op).toList := by
  cases op with
  | plain => decide
  | compound op => cases op <;> decide

theorem arrayName_spells (op : BinaryOp) :
    spelledSorts (op.arrayName?.getD "").toList = [] ∧ '_' ∉ (op.arrayName?.getD "").toList := by
  cases op <;> decide

theorem arrayOpParts_spelled (p : Tables) (depth : Nat) (e : ExprId) {parts : ArrayOpParts}
    (h : parts.Spelled p) : (arrayOpParts p depth e parts).Spelled p := by
  induction depth generalizing e parts with
  | zero => exact h
  | succ depth ih =>
    rw [arrayOpParts]
    split
    · exact ih _ h
    · rename_i hnode
      exact h.operand (by rw [hnode]; rfl) (by decide)
    · exact ((ih _ (ih _ h)).spell (assignWord_spells _).1 (assignWord_spells _).2).writable
    · exact (ih _ (ih _ h)).spell (arrayName_spells _).1 (arrayName_spells _).2
    · split
      · exact (ih _ h).spell (by decide) (by decide)
      · exact (ih _ h).spell (by decide) (by decide)
    · rename_i hnode
      exact h.operand (by rw [hnode]; rfl) (by decide)

theorem partsOf_spelled (p : Tables) (e : ExprId) : (partsOf p e).Spelled p :=
  arrayOpParts_spelled p _ e .empty

theorem operand_param {p : Tables} {e : ExprId} {o : ArrayOperand}
    (ho : o ∈ (partsOf p e).operands) : o.param.type = p.typeOf o.expr ∧ o.param.default = none :=
  (partsOf_spelled p e).params o ho

theorem operandTypes_eq_params (p : Tables) (e : ExprId) :
    ((partsOf p e).operands.map (·.param)).map (·.type) = operandTypes p e := by
  rw [map_map]
  exact map_congr_left fun o ho => (operand_param ho).1

theorem spelling_of_name {spelling spelling' elem elem' : String} (h : '_' ∉ spelling.toList)
    (h' : '_' ∉ spelling'.toList)
    (hname : arrayOpName spelling elem = arrayOpName spelling' elem') :
    spelling.toList = spelling'.toList := by
  have hbefore {word rest : List Char} (hw : '_' ∉ word) :
      (word ++ '_' :: rest).takeWhile (· ≠ '_') = word := by
    rw [takeWhile_append_of_pos fun c hc => by
      simpa using fun heq : c = '_' => hw (heq ▸ hc)]
    simp
  have htail : spelling.toList ++ '_' :: elem.toList = spelling'.toList ++ '_' :: elem'.toList := by
    have hlist := congrArg String.toList hname
    simpa [arrayOpName, String.toList_append] using hlist
  have hword := congrArg (takeWhile (· ≠ '_')) htail
  rwa [hbefore h, hbefore h'] at hword

theorem sorts_of_name {p q : Tables} {e d : ExprId} (h : operationName p e = operationName q d) :
    operandSorts p e = operandSorts q d := by
  have he := partsOf_spelled p e
  have hd := partsOf_spelled q d
  have hspelling := spelling_of_name he.plain hd.plain h
  have hsorts := he.sorts
  rw [hspelling, hd.sorts] at hsorts
  exact (reverse_inj.mp hsorts).symm

end DCompiler.Analyse

namespace DCompiler

open List SymbolTable Analyse

theorem TypeTable.settled_intern {t : TypeTable} {k : TypeKind} (ht : t.Ordered)
    (hk : k ≠ .error) (hname : ∀ name, k ≠ .named name)
    (hcomponents : ∀ c ∈ k.components, t.Settled c) :
    (t.intern k).2.Settled (t.intern k).1 := by
  have hgrows : t.Grows (t.intern k).2 := .intern .refl k
  refine .intro (t.kinds_intern k) hk hname (fun c hc => ?_) fun c hc =>
    (hcomponents c hc).grows hgrows
  rcases t.intern_cases k with ⟨-, hfound⟩ | ⟨-, hnew⟩
  · exact ht hfound c hc
  obtain ⟨hkc, -, -, -, -⟩ := hcomponents c hc
  rw [hnew]
  exact (Array.getElem?_eq_some_iff.mp hkc).1

theorem Analyse.Alone.types {α : Type} {x : Analyse α} {h : Analyser} {s t : Analysis} {a : α}
    (hx : x.Alone False) (hrun : x.run h s = some (a, t)) : t.types = s.types := by
  refine run_tame (R := fun s t => t.types = s.types) ?_ (fun s hx => ?_) hx hrun
  · refine ⟨fun _ => rfl, fun hst htu => htu.trans hst, fun _ _ => rfl, id, fun n s t h => ?_⟩
    exact (n.types_leave t).trans (h.trans (n.types_enter s))
  rename_i x
  cases x with
  | intern k => exact hx.elim
  | _ => rfl

/-! ## The signature of a function that was just made -/

variable {s t : Analysis} {symbol : SymbolId} {f : Function} {id : TypeId} {count depth : Nat}
  {sig : Signature} {h : Analyser} {name : String}

def TypeTable.Plain (t : TypeTable) (id : TypeId) (count : Nat) : Prop :=
  id = .error ∨ ∃ sig, t.kinds[id.index]? = some (.function sig) ∧
    sig.params.map (·.default) = replicate count none

theorem TypeTable.Plain.grows {t u : TypeTable} (h : t.Plain id count) (hu : t.Grows u) :
    u.Plain id count :=
  h.imp_right fun ⟨sig, hsig, hplain⟩ => ⟨sig, hu.kinds_eq hsig, hplain⟩

theorem TypeTable.Plain.signature {t : TypeTable} (h : t.Plain id count) (ht : initial.Grows t)
    (hsig : t.signature? id = some sig) :
    sig.params.map (·.default) = replicate count none := by
  have hkind := kinds_of_signature hsig
  rcases h with rfl | ⟨sig', hsig', hplain⟩
  · have herror : t.kinds[TypeId.error.index]? = some .error := ht.kinds_eq rfl
    rw [herror] at hkind
    cases hkind
  rw [hsig'] at hkind
  cases hkind
  exact hplain

section

variable (hf : s.symbols.func? symbol = some f)
include hf

theorem Pass.declare_first
    (hrun : Pass.declare h symbol f s = some ((), t)) :
    ∃ g u v sc place, t.symbols.func? symbol = some g ∧ g.progress = .declared ∧
      (resolveType f.type sc place).run h u = some (g.type, v) ∧
      s.types.Grows u.types ∧ v.types.Grows t.types := by
  obtain ⟨⟨type, v⟩, htype, hcheck⟩ := Option.bind_eq_some_iff.mp hrun
  have hv := run_alone stable_steady declaredType_alone htype
  obtain ⟨fv, hfv, -, hpv⟩ := hv.function symbol _ (func?_setProgress hf .declared)
  have ht := run_alone stable_steady checkDeclaration_alone hcheck
  obtain ⟨g, hg, htypeg, hpg⟩ := ht.function symbol { fv with type := type } (by
    simp [Analysis.setFunctionType, func?_modifyFunc, hfv])
  obtain ⟨p, _, hp, htype⟩ := run_bind_inv htype
  cases hp
  obtain ⟨sc, u, hsc, hresolve⟩ := run_bind_inv htype
  have hu := run_alone stable_steady declScope_alone hsc
  have hsame : type = g.type := htypeg.symm
  exact ⟨g, u, v, sc, _, hg, hpg.trans hpv, hsame ▸ hresolve, hu.types, ht.types⟩

theorem Pass.defaults_first
    (hs : TypeTable.initial.Grows s.types) (hplain : s.types.Plain f.type count)
    (hrun : Pass.defaults h symbol s = some ((), t)) :
    ∃ g, t.symbols.func? symbol = some g ∧ g.progress = .defaults ∧ g.type = f.type ∧
      s.types.Grows t.types := by
  have hf' := func?_setProgress hf .defaults
  rw [defaults_run] at hrun
  dsimp only at hrun
  split at hrun
  · cases hrun
    exact ⟨_, hf', rfl, rfl, .refl⟩
  rename_i sig hsig
  simp only [Tables.functionType, hf'] at hsig
  have hnone : ∀ p ∈ sig.params, p.default = none := by
    intro p hp
    have hmem := mem_map_of_mem (f := (·.default)) hp
    rw [hplain.signature hs hsig] at hmem
    exact (mem_replicate.mp hmem).2
  rw [defaultArguments_plain hnone] at hrun
  obtain ⟨⟨type, u⟩, hargs, hdone⟩ := Option.bind_eq_some_iff.mp hrun
  obtain ⟨sc, w, hsc, hpure⟩ := run_bind_inv hargs
  cases hpure
  cases hdone
  have hu := run_alone stable_steady declScope_alone hsc
  obtain ⟨g, hg, htype, hp⟩ := hu.function symbol _ hf'
  exact ⟨g, hg, hp, htype, hu.types⟩

theorem Pass.signature_first (hp : f.progress = .none)
    (hs : TypeTable.initial.Grows s.types)
    (hkind : s.types.kinds[f.type.index]? = some (.function sig))
    (hplain : sig.params.map (·.default) = replicate count none)
    (hrun : Pass.signature h symbol s = some ((), t)) :
    ∃ g u v sc place, t.symbols.func? symbol = some g ∧ g.progress = .defaults ∧
      (resolveType f.type sc place).run h u = some (g.type, v) ∧
      s.types.Grows u.types ∧ v.types.Grows t.types ∧ v.types.Plain g.type count := by
  rw [signature_run, hf] at hrun
  simp only [hp, if_pos (show Progress.none.rank < Progress.declared.rank by decide)] at hrun
  obtain ⟨⟨_, d⟩, hdeclare, hdefaults⟩ := Option.bind_eq_some_iff.mp hrun
  obtain ⟨fd, u, v, sc, place, hfd, hpd, hresolve, hu, hd⟩ := declare_first hf hdeclare
  have hv := run_alone stable_steady resolveType_alone hresolve
  have hundecided : (d.progressOf symbol).rank < Progress.defaults.rank := by
    simp only [Tables.progressOf, hfd, hpd]
    decide
  rw [if_pos hundecided] at hdefaults
  have hplainv : v.types.Plain fd.type count := by
    have hk : u.types.kind f.type = .function sig := by
      simp [TypeTable.kind, hu.kinds_eq hkind]
    refine (resolveType_function hk hresolve).imp_right ?_
    rintro ⟨sig', hsig', hsame⟩
    exact ⟨sig', hsig', hsame.trans hplain⟩
  obtain ⟨g, hg, hpg, htype, ht⟩ := defaults_first hfd (hs.trans (hu.trans (hv.types.trans hd)))
    (hplainv.grows hd) hdefaults
  exact ⟨g, u, v, sc, place, hg, hpg, htype ▸ hresolve, hu, hd.trans ht, htype ▸ hplainv⟩

end

/-! ## The function that calls go to -/

theorem ArrayOpEntry.eq_of_callee {runtime : Option SymbolId} {made func : SymbolId} {failed : Bool}
    (h : (ArrayOpEntry.mk runtime (if failed then none else some made)).callee = some func) :
    func = runtime.getD made := by
  cases failed with
  | true => cases h
  | false => exact (Option.some.inj h).symm

namespace Analysis

/-- A function was made for a signature: it takes as many arguments, none of them by default, and
the signature is its own in the case that `same` describes. -/
def MadeFor (t : Analysis) (func : SymbolId) (sig : Signature) (same : Prop) : Prop :=
  ∃ g, t.symbols.func? func = some g ∧ Progress.defaults.rank ≤ g.progress.rank ∧
    t.types.Plain g.type sig.params.length ∧
    (same → t.types.kinds[g.type.index]? = some (.function sig))

theorem MadeFor.lasting {func : SymbolId} {same : Prop} (h : s.MadeFor func sig same)
    (ht : Lasting s t) : t.MadeFor func sig same := by
  obtain ⟨f, hf, hp, hplain, hsame⟩ := h
  obtain ⟨g, hg, hfg, htype⟩ := ht.function func f hf
  rw [← htype hp] at hplain hsame
  exact ⟨g, hg, Nat.le_trans hp hfg, hplain.grows ht.types, fun h => ht.types.kinds_eq (hsame h)⟩

end Analysis

theorem madeFor_of_passes (hf : s.symbols.func? symbol = some f) (hp : f.progress = .none)
    (hs : TypeTable.initial.Grows s.types)
    (hkind : s.types.kinds[f.type.index]? = some (.function sig))
    (hplain : sig.params.map (·.default) = replicate sig.params.length none) (hrun : (do
      analyseSignature symbol
      analyseBody symbol).run (analyser depth) s = some ((), t)) :
    t.MadeFor symbol sig (s.types.Settled f.type) := by
  cases depth with
  | zero => cases hrun
  | succ depth =>
    obtain ⟨_, m, hsignature, hbody⟩ := run_bind_inv hrun
    have hsignature : Pass.signature (analyser depth) symbol s = some ((), m) := by
      simp only [analyseSignature, run] at hsignature
      split at hsignature
      · rename_i hanswer
        cases hsignature
        exact hanswer
      · cases hsignature
    obtain ⟨g, u, v, sc, place, hg, hpg, hresolve, hu, hm, hplainv⟩ :=
      Pass.signature_first hf hp hs hkind hplain hsignature
    have hmade : m.MadeFor symbol sig (s.types.Settled f.type) := by
      refine ⟨g, hg, Nat.le_of_eq (by rw [hpg]), hplainv.grows hm, fun hsettled => ?_⟩
      have hunique : u.types.Unique := (hs.trans hu).unique TypeTable.initial_unique
      rw [resolveType_settled hunique (hsettled.grows hu)] at hresolve
      obtain ⟨htype, rfl⟩ := Prod.mk.inj (Option.some.inj hresolve)
      rw [← htype]
      exact hm.kinds_eq (hu.kinds_eq hkind)
    exact hmade.lasting (run_lasting _ hbody)

def Analyse.SettledOperation (p : Tables) (e : ExprId) : Prop :=
  p.types.Ordered ∧ ∀ type ∈ p.typeOf e :: operandTypes p e, p.types.Settled type

def Analyse.operationSignature (p : Tables) (e : ExprId) : Signature :=
  ⟨(partsOf p e).operands.map (·.param), p.typeOf e, .none, .c⟩

theorem Analyse.operationSignature_plain (p : Tables) (e : ExprId) :
    (operationSignature p e).params.map (·.default) =
      replicate (operationSignature p e).params.length none := by
  rw [eq_replicate_iff]
  refine ⟨by simp, fun d hd => ?_⟩
  simp only [operationSignature, map_map, mem_map] at hd
  obtain ⟨o, ho, rfl⟩ := hd
  exact (operand_param ho).2

theorem addSymbol_run {span : Span} {parent : Option SymbolId}
    (hrun : (addSymbol name span (.func f) parent).run h s = some (symbol, t)) :
    t.symbols.func? symbol = some f ∧ t.types = s.types := by
  cases hrun
  rw [func?_eq_some, kind_setParent]
  exact ⟨(kind_add ..).trans (if_pos rfl), rfl⟩

section

variable {place : Span} {parent : Option SymbolId}

theorem madeFor_of_symbol {u v : Analysis} {failed : Bool} (hs : TypeTable.initial.Grows s.types)
    (hkind : s.types.kinds[f.type.index]? = some (.function sig)) (hp : f.progress = .none)
    (hplain : sig.params.map (·.default) = replicate sig.params.length none)
    (hadd : (addSymbol name place (.func f) parent).run (analyser depth) s =
      some (symbol, u))
    (hmember : (addToModule symbol).run (analyser depth) u = some ((), v))
    (hpasses : (gagged do
      analyseSignature symbol
      analyseBody symbol).run (analyser depth) v = some (((), failed), t)) :
    t.MadeFor symbol sig (s.types.Settled f.type) := by
  obtain ⟨hf, htypes⟩ := addSymbol_run hadd
  have hv := run_alone stable_steady addToModule_alone hmember
  obtain ⟨g, hg, htype, hpg⟩ := hv.function symbol f hf
  have hgrows : s.types.Grows v.types := htypes ▸ hv.types
  simp only [gagged, run] at hpasses
  split at hpasses
  · rename_i hgagged
    cases hpasses
    obtain ⟨k, hk, hpk, hplaink, hsame⟩ := madeFor_of_passes (s := v.gag) hg (hpg.trans hp)
      (hs.trans hgrows) (htype ▸ hgrows.kinds_eq hkind) hplain hgagged
    refine ⟨k, hk, hpk, hplaink, fun h => hsame ?_⟩
    rw [htype]
    exact h.grows hgrows
  · cases hpasses

theorem madeFor_of_stub {same : Prop} (hkind : s.types.kinds[f.type.index]? = some (.function sig))
    (hp : f.progress = .bodyDone)
    (hplain : sig.params.map (·.default) = replicate sig.params.length none)
    (hadd : (addSymbol name place (.func f) parent).run h s = some (symbol, t)) :
    t.MadeFor symbol sig same := by
  obtain ⟨hf, htypes⟩ := addSymbol_run hadd
  rw [← htypes] at hkind
  exact ⟨f, hf, by rw [hp]; decide, .inr ⟨sig, hkind, hplain⟩, fun _ => hkind⟩

theorem makeArrayOp_callee {element : ExprId} {entry : ArrayOpEntry}
    (hplain : sig.params.map (·.default) = replicate sig.params.length none)
    (hvariadic : sig.variadic = .none) (hlinkage : sig.linkage = .c)
    (hs : TypeTable.initial.Grows s.types)
    (hrun : (makeArrayOp name sig.result sig.params element place).run (analyser depth) s =
      some (entry, t)) :
    ∀ func, entry.callee = some func →
      t.MadeFor func sig (isArrayRoutine name = true ∨
        (s.types.intern (.function sig)).2.Settled (s.types.intern (.function sig)).1) := by
  intro func hfunc
  have hkindsig : TypeKind.function ⟨sig.params, sig.result, .none, .c⟩ = .function sig := by
    rw [← hvariadic, ← hlinkage]
  unfold makeArrayOp at hrun
  dsimp only at hrun
  rw [hkindsig] at hrun
  obtain ⟨type, u1, htype, hrun⟩ := run_bind_inv hrun
  rw [intern_run] at htype
  obtain ⟨rfl, rfl⟩ := Prod.mk.inj (Option.some.inj htype)
  obtain ⟨body, u2, hbody, hrun⟩ := run_bind_inv hrun
  obtain ⟨scope, u3, hscope, hrun⟩ := run_bind_inv hrun
  obtain ⟨c, u4, hc, hrun⟩ := run_bind_inv hrun
  obtain ⟨made, u5, hmade, hrun⟩ := run_bind_inv hrun
  obtain ⟨_, u6, hmember, hrun⟩ := run_bind_inv hrun
  obtain ⟨⟨_, failed⟩, u7, hpasses, hrun⟩ := run_bind_inv hrun
  -- Up to the symbol of the function only nodes and a scope are added.
  have htypes4 : u4.types = (s.types.intern (.function sig)).2 := by
    obtain ⟨-, rfl⟩ := Prod.mk.inj (Option.some.inj hc)
    rw [(globalScope_alone _).types hscope, arrayOpBody_alone.types hbody]
  have hgrows4 : TypeTable.initial.Grows u4.types := htypes4 ▸ hs.intern _
  have hkind4 : u4.types.kinds[(s.types.intern (.function sig)).1.index]? =
      some (.function sig) := by
    rw [htypes4, s.types.kinds_intern]
  have hmadeFor := madeFor_of_symbol hgrows4 hkind4 rfl hplain hmade hmember hpasses
  split at hrun
  · obtain ⟨c, u8, hc, hrest⟩ := run_bind_inv hrun
    obtain ⟨stub, u9, hstub, hdone⟩ := run_bind_inv hrest
    cases hdone
    obtain ⟨rfl, rfl⟩ := Prod.mk.inj (Option.some.inj hc)
    have hgrows7 : u4.types.Grows u7.types := ((run_lasting _ hmade).trans
      ((run_lasting _ hmember).trans (run_lasting _ hpasses))).types
    rw [ArrayOpEntry.eq_of_callee hfunc]
    exact madeFor_of_stub (hgrows7.kinds_eq hkind4) rfl hplain hstub
  · rename_i hroutine
    cases hrun
    rw [ArrayOpEntry.eq_of_callee hfunc]
    obtain ⟨g, hg, hp, hplaing, hsame⟩ := hmadeFor
    refine ⟨g, hg, hp, hplaing, fun h => hsame ?_⟩
    rw [htypes4]
    exact h.resolve_left hroutine

end

theorem buildArrayOp_callee {e : ExprId} {entry : ArrayOpEntry}
    (hs : TypeTable.initial.Grows s.types) (hrun : (buildArrayOp name e
      ((partsOf s.toTables e).operands.map (·.param))).run (analyser depth) s =
        some (entry, t)) : ∀ func, entry.callee = some func →
      t.MadeFor func (operationSignature s.toTables e)
        (isArrayRoutine name = true ∨ SettledOperation s.toTables e) := by
  intro func hfunc
  obtain ⟨p, _, hp, hrun⟩ := run_bind_inv hrun
  cases hp
  obtain ⟨element, u, helement, hrun⟩ := run_bind_inv hrun
  have htypes : u.types = s.types := elementExpr_alone.types helement
  obtain ⟨g, hg, hp, hplain, hsame⟩ := makeArrayOp_callee
    (operationSignature_plain s.toTables e) rfl rfl (htypes ▸ hs) hrun func hfunc
  refine ⟨g, hg, hp, hplain, fun h => hsame (h.imp_right fun ⟨hordered, hsettled⟩ => ?_)⟩
  rw [htypes]
  refine TypeTable.settled_intern hordered (by simp) (by simp) fun c hc => hsettled c ?_
  rwa [← operandTypes_eq_params]

end DCompiler
