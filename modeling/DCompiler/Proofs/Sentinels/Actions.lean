import DCompiler.Proofs.Sentinels.Reports
import DCompiler.Proofs.Tables.Copies

/-!
# Actions on sound tables

What elementary actions need so that sound tables stay sound, table by table, and the rules that are
one action each. Copies only add entries: a copy of an expression has a type if the expression has
one, and a copy of a function declaration refers to what is there.
-/

namespace DCompiler

open Option SymbolTable ExprTable SymbolNote List

variable {k : Expr} {t : TypeId} {name : String} {span : Span} {parent : Option SymbolId}
  {sc : ScopeId}

namespace Tables

variable {p : Tables} {G : Gaps}

/-! ## Expressions -/

/-- An entry that can have a type. -/
structure Accepts (p : Tables) (k : Expr) (t : TypeId) : Prop where
  children : ∀ c ∈ k.children, p.Typed c
  types : ∀ u ∈ k.types, u.Known p.reach
  known : t.Known p.reach
  backs : p.Backs k t

theorem Accepts.node (h : p.Accepts k t) (span : Span) :
    (⟨k, span, some t⟩ : ExprNode).Sound p where
  fits := ⟨fun c hc => (h.children c hc).inside, h.types⟩
  pending := nofun
  known := by
    rintro _ ⟨⟩
    exact h.known
  children _ := h.children
  backs := by
    rintro _ ⟨⟩
    exact h.backs

theorem pending_node (hk : k.isPending = true) (hfits : k.Fits p.reach) (span : Span) :
    (⟨k, span, none⟩ : ExprNode).Sound p :=
  ⟨hfits, fun _ => hk, nofun, nofun, nofun⟩

theorem Onward.of_symbols {q : Tables} (hsymbols : q.symbols = p.symbols)
    (hsize : p.exprs.size ≤ q.exprs.size) (htyped : ∀ e, p.Typed e → q.Typed e)
    (htypes : p.types.Grows q.types) : p.Onward q where
  exprs := hsize
  typed he := htyped _ he
  types := htypes
  vars hv := ⟨_, hsymbols ▸ hv, rfl, fun ht => ht.mono ⟨hsize, htypes.size_le⟩⟩
  functions hf := by
    rw [isFunction, hsymbols]
    exact hf
  templates ht := ⟨_, hsymbols ▸ ht⟩
  aggregates hs := by
    rw [IsAggregate, hsymbols]
    exact hs
  enumerations he := ⟨_, hsymbols ▸ he⟩

theorem Sound.withExprs (hp : p.Sound G) {x : ExprTable} (h : p.Onward { p with exprs := x })
    (hnodes : ∀ e : ExprId, e.index < x.size →
      (e.In p.reach ∧ x.node e = p.exprs.node e) ∨ (x.node e).Sound p) :
    Sound { p with exprs := x } G := by
  refine hp.step h (hp.types.mono h.exprs) (fun e he => ?_) (fun _ => .inl rfl)
    (fun _ => .inl rfl) rfl
  exact (hnodes e he).imp_right fun hn => hn.mono h hp.size_le

theorem Onward.addNode (n : ExprNode) : p.Onward { p with exprs := (p.exprs.addNode n).2 } := by
  refine .of_symbols rfl (by simp) (fun e he => ?_) .refl
  rw [Typed, type?, (Extends.addNode n).node e he.inside]
  exact he

theorem Sound.addNode (hp : p.Sound G) {n : ExprNode} (hn : n.Sound p) :
    Sound { p with exprs := (p.exprs.addNode n).2 } G := by
  refine hp.withExprs (.addNode n) fun e he => ?_
  rw [node_addNode]
  by_cases hlast : e.index = p.exprs.size
  · rw [if_pos hlast]
    exact .inr hn
  rw [if_neg hlast]
  rw [size_addNode] at he
  exact .inl ⟨show e.index < p.exprs.size by omega, rfl⟩

/-! ### Entries that are replaced -/

variable {e : ExprId} {n : ExprNode} {x : ExprTable}

theorem Onward.replace (h : p.exprs.Replaces e n x) (htyped : p.Typed e → n.type.isSome) :
    p.Onward { p with exprs := x } := by
  refine .of_symbols rfl (Nat.le_of_eq h.size.symm) (fun j hj => ?_) .refl
  rw [Typed, type?, h.node]
  split
  · rename_i hje
    exact htyped (hje.1 ▸ hj)
  · exact hj

theorem Sound.replace (hp : p.Sound G) (h : p.exprs.Replaces e n x)
    (htyped : p.Typed e → n.type.isSome) (hn : e.In p.reach → n.Sound p) :
    Sound { p with exprs := x } G := by
  refine hp.withExprs (.replace h htyped) fun j hj => ?_
  rw [h.node]
  split
  · rename_i hje
    exact .inr (hn hje.2)
  · exact .inl ⟨Nat.lt_of_lt_of_eq hj h.size, rfl⟩

/-! ## Types -/

theorem Onward.withTypes {u : TypeTable} (h : p.types.Grows u) : p.Onward { p with types := u } :=
  .of_symbols rfl .refl (fun _ => id) h

theorem Sound.intern (hp : p.Sound G) {k : TypeKind} (hk : p.types.Admits p.exprs.size k) :
    Sound { p with types := (p.types.intern k).2 } G :=
  hp.step (.withTypes (.intern .refl k)) (hp.types.intern hk) (fun _ he => .inl ⟨he, rfl⟩)
    (fun _ => .inl rfl) (fun _ => .inl rfl) rfl

/-! ## Statements and what is not looked at -/

theorem Onward.of_same {q : Tables} (hexprs : q.exprs = p.exprs) (htypes : q.types = p.types)
    (hsymbols : q.symbols = p.symbols) : p.Onward q := by
  refine .of_symbols hsymbols (Nat.le_of_eq (by rw [hexprs])) (fun e he => ?_) (htypes ▸ .refl)
  rw [Typed, hexprs]
  exact he

theorem Sound.of_same {q : Tables} (hp : p.Sound G) (hexprs : q.exprs = p.exprs)
    (htypes : q.types = p.types) (hsymbols : q.symbols = p.symbols)
    (harrayOps : q.arrayOps = p.arrayOps)
    (hstmts : ∀ s, q.stmts.kind s = p.stmts.kind s ∨ (q.stmts.kind s).Fits p.reach) :
    q.Sound G := by
  have hreach : q.reach = p.reach := by rw [reach, reach, hexprs, htypes]
  refine hp.step (.of_same hexprs htypes hsymbols) (hexprs ▸ htypes ▸ hp.types) (fun e he => ?_)
    (fun s => .inl (by rw [hsymbols])) (fun s => hreach ▸ hstmts s) harrayOps
  exact .inl ⟨hreach ▸ he, by rw [hexprs]⟩

/-! ## Symbols -/

/-- Gaps that are others, for each kind of symbol that may have one. -/
theorem Sound.regap {G' : Gaps} (hp : p.Sound G)
    (var : ∀ s v, p.symbols.kind s = .var v → v.type.KnownOr p.reach (G.vars s) →
      v.type.KnownOr p.reach (G'.vars s))
    (aggregate : ∀ s a, p.symbols.kind s = .aggregate a → a.type.KnownOr p.reach (G.types s) →
      a.type.KnownOr p.reach (G'.types s))
    (enumeration : ∀ s e, p.symbols.kind s = .enumeration e →
      e.type.KnownOr p.reach (G.types s) → e.type.KnownOr p.reach (G'.types s)) : p.Sound G' where
  types := hp.types
  nodes := hp.nodes
  symbols s := by
    have hs := hp.symbols s
    cases hk : p.symbols.kind s <;> rw [hk] at hs
    case var v => exact ⟨var s v hk hs.known, hs.init, hs.delegate⟩
    case aggregate a => exact ⟨aggregate s a hk hs.known, hs.base, hs.constructor⟩
    case enumeration e => exact enumeration s e hk hs
    all_goals exact hs
  stmts := hp.stmts
  arrayOps := hp.arrayOps

theorem Sound.weaken {G' : Gaps} (hp : p.Sound G) (hvars : ∀ s, G.vars s → G'.vars s)
    (htypes : ∀ s, G.types s → G'.types s) : p.Sound G' :=
  hp.regap (fun s _ _ h => h.weaken (hvars s)) (fun s _ _ h => h.weaken (htypes s))
    fun s _ _ h => h.weaken (htypes s)

end Tables

/-- What can become of a symbol. -/
structure SymbolKind.Becomes (k k' : SymbolKind) (r : Reach) : Prop where
  var : ∀ {v}, k = .var v →
    ∃ w, k' = .var w ∧ w.storage = v.storage ∧ (v.type.Known r → w.type.Known r)
  func : ∀ {f}, k = .func f → ∃ g, k' = .func g
  template : ∀ {t}, k = .template t → ∃ t', k' = .template t'
  aggregate : ∀ {a}, k = .aggregate a → ∃ a', k' = .aggregate a'
  enumeration : ∀ {e}, k = .enumeration e → ∃ e', k' = .enumeration e'

theorem SymbolKind.Becomes.refl {k : SymbolKind} {r : Reach} : k.Becomes k r :=
  ⟨fun hv => ⟨_, hv, rfl, id⟩, fun hf => ⟨_, hf⟩, fun ht => ⟨_, ht⟩, fun ha => ⟨_, ha⟩,
    fun he => ⟨_, he⟩⟩

/-- What a note needs so that a sound symbol stays sound. -/
def SymbolNote.Fits (n : SymbolNote) (p : Tables) (s : SymbolId) : Prop :=
  let eager := ∀ v, p.symbols.var? s = some v → v.storage.contains .lazy = false
  match n with
  | .var (.init e) => e.In p.reach
  | .var (.type t) => t.Known p.reach ∧ eager
  | .var (.value t e) => t.Known p.reach ∧ (∀ x ∈ e, x.In p.reach) ∧ eager
  | .func (.thisVar v) => p.HasVariable v
  | .aggregate a => a.type.Known p.reach ∧ ∀ c ∈ a.constructor, p.isFunction c = true
  | .base b => p.IsAggregate b
  | .enumeration e => e.type.Known p.reach
  | .template i => p.isFunction i.function = true
  | _ => True

section

variable {p : Tables} {G : Gaps} {s : SymbolId}

theorem VariableNote.becomes {n : VariableNote} (hn : (var n).Fits p s) (v : Variable) :
    (n.apply v).storage = v.storage ∧ (v.type.Known p.reach → (n.apply v).type.Known p.reach) := by
  cases n with
  | type t => exact ⟨rfl, fun _ => hn.1⟩
  | value t e => exact ⟨rfl, fun _ => hn.1⟩
  | _ => exact ⟨rfl, id⟩

theorem SymbolNote.becomes {n : SymbolNote} (hn : n.Fits p s) (k : SymbolKind) :
    k.Becomes (n.apply k) p.reach := by
  cases k with
  | var v =>
    refine ⟨?_, nofun, nofun, nofun, nofun⟩
    rintro _ ⟨⟩
    cases n with
    | var n => exact ⟨n.apply v, rfl, n.becomes hn v⟩
    | _ => exact ⟨v, rfl, rfl, id⟩
  | func f =>
    obtain ⟨g, hg, -⟩ := n.apply_func f
    exact ⟨nofun, fun _ => ⟨g, hg⟩, nofun, nofun, nofun⟩
  | template t =>
    refine ⟨nofun, nofun, fun _ => ?_, nofun, nofun⟩
    cases n with
    | template i => exact ⟨_, rfl⟩
    | _ => exact ⟨t, rfl⟩
  | aggregate a =>
    refine ⟨nofun, nofun, nofun, fun _ => ?_, nofun⟩
    cases n with
    | aggregate a => exact ⟨_, rfl⟩
    | base b => exact ⟨_, rfl⟩
    | _ => exact ⟨a, rfl⟩
  | enumeration e =>
    refine ⟨nofun, nofun, nofun, nofun, fun _ => ?_⟩
    cases n with
    | enumeration e => exact ⟨_, rfl⟩
    | _ => exact ⟨e, rfl⟩
  | _ => exact ⟨nofun, nofun, nofun, nofun, nofun⟩

theorem VariableNote.sound {n : VariableNote} {v : Variable} (hn : (var n).Fits p s)
    (hv : p.symbols.var? s = some v) (hs : v.Sound G p s) : (n.apply v).Sound G p s := by
  cases n with
  | nestedRef | addressTaken => exact ⟨hs.known, hs.init, hs.delegate⟩
  | init e =>
    refine ⟨hs.known, ?_, hs.delegate⟩
    rintro _ ⟨⟩
    exact hn
  | type t =>
    refine ⟨.inl hn.1, hs.init, fun hl => ?_⟩
    exact nomatch (hn.2 v hv).symm.trans hl
  | value t e =>
    refine ⟨.inl hn.1, hn.2.1, fun hl => ?_⟩
    exact nomatch (hn.2.2 v hv).symm.trans hl

theorem FunctionNote.sound {n : FunctionNote} {f : Function} (hn : (func n).Fits p s)
    (hs : f.Sound p) : (n.apply f).Sound p := by
  have htype : (n.apply f).type = f.type := by
    obtain ⟨g, hg, htype, -⟩ := (func n).apply_func f
    cases hg
    exact htype
  refine ⟨htype ▸ hs.type, ?_⟩
  cases n with
  | thisVar v =>
    rintro _ ⟨⟩
    exact hn
  | closureVar v =>
    cases hv : f.closureVars.contains v <;> simp only [apply, hv] <;> exact hs.this
  | _ => exact hs.this

theorem SymbolNote.sound {n : SymbolNote} (hn : n.Fits p s)
    (hs : (p.symbols.kind s).Sound G p s) : (n.apply (p.symbols.kind s)).Sound G p s := by
  cases hk : p.symbols.kind s <;> rw [hk] at hs
  case var v =>
    cases n with
    | var n => exact n.sound hn (var?_eq_some.mpr hk) hs
    | _ => exact hs
  case func f =>
    cases n with
    | func n => exact n.sound hn hs
    | _ => exact hs
  case template t =>
    cases n with
    | template i =>
      refine ⟨hs.pattern, fun j hj => ?_⟩
      rcases mem_append.mp hj with hold | hnew
      · exact hs.instances j hold
      · rw [mem_singleton.mp hnew]
        exact hn
    | _ => exact hs
  case aggregate a =>
    cases n with
    | aggregate a => exact ⟨.inl hn.1, hs.base, hn.2⟩
    | base b =>
      refine ⟨hs.known, ?_, hs.constructor⟩
      rintro _ ⟨⟩
      exact hn
    | _ => exact hs
  case enumeration e =>
    cases n with
    | enumeration e => exact .inl hn
    | _ => exact hs
  all_goals cases n <;> exact hs

end

namespace Tables

variable {p : Tables} {G : Gaps}

theorem Onward.withSymbols {x : SymbolTable}
    (h : ∀ s, (p.symbols.kind s).Becomes (x.kind s) p.reach) :
    p.Onward { p with symbols := x } where
  exprs := .refl
  typed := id
  types := .refl
  vars {s v} hv := by
    obtain ⟨w, hw, hsame⟩ := (h s).var (var?_eq_some.mp hv)
    exact ⟨w, var?_eq_some.mpr hw, hsame⟩
  functions {s} hs := by
    obtain ⟨f, hf⟩ := isSome_iff_exists.mp hs
    obtain ⟨g, hg⟩ := (h s).func (func?_eq_some.mp hf)
    exact isSome_iff_exists.mpr ⟨g, func?_eq_some.mpr hg⟩
  templates {s t} ht := (h s).template ht
  aggregates {s} hs := by
    obtain ⟨a, ha⟩ := isSome_iff_exists.mp hs
    obtain ⟨b, hb⟩ := (h s).aggregate (aggregate?_eq_some.mp ha)
    exact isSome_iff_exists.mpr ⟨b, aggregate?_eq_some.mpr hb⟩
  enumerations {s e} he := (h s).enumeration he

theorem Sound.withSymbols (hp : p.Sound G) {x : SymbolTable}
    (h : ∀ s, (p.symbols.kind s).Becomes (x.kind s) p.reach)
    (hnew : ∀ s, x.kind s = p.symbols.kind s ∨ (x.kind s).Sound G p s) :
    Sound { p with symbols := x } G :=
  hp.step (.withSymbols h) hp.types (fun _ he => .inl ⟨he, rfl⟩)
    (fun s => (hnew s).imp_right (·.mono (.withSymbols h))) (fun _ => .inl rfl) rfl

theorem becomes_note {s : SymbolId} {n : SymbolNote} (hn : n.Fits p s) (j : SymbolId) :
    (p.symbols.kind j).Becomes ((p.symbols.modifyKind s n.apply).kind j) p.reach := by
  rw [kind_modifyKind]
  split
  · exact n.becomes hn _
  · exact .refl

theorem Sound.note (hp : p.Sound G) {s : SymbolId} {n : SymbolNote} (hn : n.Fits p s) :
    Sound { p with symbols := p.symbols.modifyKind s n.apply } G := by
  refine hp.withSymbols (becomes_note hn) fun j => ?_
  rw [kind_modifyKind]
  split
  · rename_i hj
    rw [hj.1]
    exact .inr (n.sound hn (hp.symbols s))
  · exact .inl rfl

def withSymbol (p : Tables) (name : String) (span : Span) (k : SymbolKind)
    (parent : Option SymbolId) : Tables :=
  { p with symbols := (p.symbols.add name span k).2.setParent ⟨p.symbols.size⟩ parent }

theorem kind_withSymbol {k : SymbolKind} (j : SymbolId) :
    (p.withSymbol name span k parent).symbols.kind j =
      if j.index = p.symbols.size then k else p.symbols.kind j := by
  rw [withSymbol, kind_setParent, kind_add]

theorem becomes_withSymbol {k : SymbolKind} (j : SymbolId) :
    (p.symbols.kind j).Becomes ((p.withSymbol name span k parent).symbols.kind j) p.reach := by
  rw [kind_withSymbol]
  split
  · rename_i hj
    rw [kind_of_size_le (Nat.le_of_eq hj.symm)]
    exact ⟨nofun, nofun, nofun, nofun, nofun⟩
  · exact .refl

theorem Sound.withSymbol (hp : p.Sound G) {k : SymbolKind} (hk : k.Sound G p ⟨p.symbols.size⟩) :
    (p.withSymbol name span k parent).Sound G := by
  refine hp.withSymbols becomes_withSymbol fun j => ?_
  have hkind : ((p.symbols.add name span k).2.setParent ⟨p.symbols.size⟩ parent).kind j = _ :=
    kind_withSymbol j
  rw [hkind]
  split
  · rename_i hj
    obtain ⟨i⟩ := j
    cases hj
    exact .inr hk
  · exact .inl rfl

end Tables

/-! ## Rules of one action -/

open Analyse

variable {α β : Type} {h : Analyser} {G G1 G2 : Gaps} {p : Tables}

theorem action_ok {x : Action α} {Q : Tables → α → Prop}
    (hx : p.Sound G → ∀ c : Context, c.toTables = p →
      (∀ k ∈ (x.exec c).2.types.kinds, k.isHollow = false) →
        p.Onward (x.exec c).2.toTables ∧ (x.exec c).2.toTables.Sound G1 ∧
          Q (x.exec c).2.toTables (x.exec c).1) :
    ReportsOr (fun _ _ => False) h G G1 p (act x done) Q := by
  intro hh hp s t a hs hrun ht
  cases hrun
  exact .inl (hx hp s.toContext hs ht.types)

/-- An action that does nothing to expressions, types, statements and symbols. -/
theorem aside_ok {x : Action α}
    (hx : ∀ c : Context, ∃ scopes,
      (x.exec c).2.toTables = { c.toTables with scopes := scopes } := by
      exact fun _ => ⟨_, rfl⟩) :
    ReportsOnly h G p (act x done) := by
  refine action_ok fun hp c hc _ => ?_
  subst hc
  obtain ⟨scopes, hscopes⟩ := hx c
  rw [hscopes]
  exact ⟨.of_same rfl rfl rfl, hp.of_same rfl rfl rfl rfl fun _ => .inl rfl, trivial⟩

/-! ### Expressions -/

theorem addNode_ok {n : ExprNode} (hn : p.Sound G → n.Sound p) :
    Reports h G p (act (.addExpr n) done) fun q r =>
      r = ⟨p.exprs.size⟩ ∧ q = { p with exprs := (p.exprs.addNode n).2 } := by
  refine action_ok fun hp c hc _ => ?_
  subst hc
  exact ⟨.addNode n, hp.addNode (hn hp), rfl, rfl⟩

theorem typed_ok (hk : p.Accepts k t) : ReportsTyped h G p (typed k span t) := by
  refine .imp (addNode_ok fun _ => hk.node span) ?_
  rintro q r - - ⟨rfl, rfl⟩
  show ((p.exprs.addNode _).2.type? ⟨p.exprs.size⟩).isSome
  rw [type?, node_addNode, if_pos rfl]
  rfl

theorem addExpr_ok (hk : k.isPending = true := by rfl)
    (hfits : k.Fits p.reach := by exact ⟨nofun, nofun⟩) :
    Reports h G p (addExpr k span) fun q r => r.In q.reach := by
  refine .imp (addNode_ok fun _ => Tables.pending_node hk hfits span) ?_
  rintro q r - - ⟨rfl, rfl⟩
  show p.exprs.size < (p.exprs.addNode _).2.size
  rw [size_addNode]
  exact Nat.lt_succ_self _

theorem settle_ok {e : ExprId} (he : e.In p.reach) (hk : p.Accepts k t) :
    ReportsTyped h G p (settle e k t) := by
  have hreplaces := p.exprs.replaces_settle e k t
  refine .bind (x := act (.settle e k t) done) (action_ok (Q := fun q _ => q.Typed e)
    fun hp c hc _ => ?_) fun _ _ _ _ hr => .pure hr
  subst hc
  refine ⟨.replace hreplaces fun _ => rfl,
    hp.replace hreplaces (fun _ => rfl) fun _ => hk.node _, ?_⟩
  show (((c.exprs.setKind e k).setType e t).type? e).isSome
  rw [type?, hreplaces.self he]
  rfl

theorem setType_ok {e : ExprId} (he : e.In p.reach) (hk : p.Accepts (p.exprs.kind e) t) :
    Reports h G p (setType e t) fun q r =>
      r = e ∧ q.Typed e ∧ q = { p with exprs := p.exprs.setType e t } := by
  have hreplaces := p.exprs.replaces_setType e t
  refine .bind (x := act (.setType e t) done) (action_ok
    (Q := fun q _ => q.Typed e ∧ q = { p with exprs := p.exprs.setType e t })
    fun hp c hc _ => ?_) fun _ _ _ _ hr => .pure ⟨rfl, hr⟩
  subst hc
  refine ⟨.replace hreplaces fun _ => rfl,
    hp.replace hreplaces (fun _ => rfl) fun _ => hk.node _, ?_, rfl⟩
  show ((c.exprs.setType e t).type? e).isSome
  rw [type?, hreplaces.self he]
  rfl

theorem setKind_ok {e : ExprId} (hpending : k.isPending = true) (hfits : k.Fits p.reach)
    (htyped : p.Typed e → (∀ c ∈ k.children, p.Typed c) ∧ ∀ t, p.Backs k t) :
    Reports h G p (setKind e k) fun q _ => q = { p with exprs := p.exprs.setKind e k } := by
  have hreplaces := p.exprs.replaces_setKind e k
  refine action_ok fun hp c hc _ => ?_
  subst hc
  refine ⟨.replace hreplaces id, hp.replace hreplaces id fun he => ?_, rfl⟩
  refine ⟨hfits, fun _ => hpending, (hp.nodes e he).known, fun ht => (htyped ht).1, fun ht => ?_⟩
  exact (htyped (isSome_of_mem ht)).2 _

theorem setSpan_ok {e : ExprId} : ReportsOnly h G p (act (.setSpan e span) done) := by
  have hreplaces := p.exprs.replaces_setNode e { p.exprs.node e with span := span }
  refine action_ok fun hp c hc _ => ?_
  subst hc
  refine ⟨.replace hreplaces id, hp.replace hreplaces id fun he => ?_, trivial⟩
  have hold := hp.nodes e he
  exact ⟨hold.fits, hold.pending, hold.known, hold.children, hold.backs⟩

/-! ### Types and statements -/

theorem intern_ok {k : TypeKind}
    (hk : p.Sound G → k.isHollow = false → p.types.Admits p.exprs.size k) :
    Reports h G p (intern k) fun q t =>
      q.types.kinds[t.index]? = some k ∧ q.exprs = p.exprs := by
  refine action_ok fun hp c hc hclean => ?_
  subst hc
  have hmem : k ∈ (c.types.intern k).2.kinds := Array.mem_of_getElem? (c.types.kinds_intern k)
  exact ⟨.withTypes (.intern .refl k), hp.intern (hk hp (hclean k hmem)),
    c.types.kinds_intern k, rfl⟩

theorem ReportsOr.hollow {E R : Tables → β → Prop} {k : TypeKind} {f : TypeId → Analyse β}
    (hk : k.isHollow = true) : ReportsOr E h G G2 p (intern k >>= f) R := by
  intro hh _ s t b _ hrun ht
  obtain ⟨id, u, hintern, hrest⟩ := run_bind_inv hrun
  cases hintern
  have hclean := (run_stable stable_later hh _ hrest).clean ht
  have hmem : k ∈ (s.types.intern k).2.kinds := Array.mem_of_getElem? (s.types.kinds_intern k)
  exact nomatch hk.symm.trans (hclean.types k hmem)

theorem addStmt_ok {s : Stmt} (hs : s.Fits p.reach) : ReportsOnly h G p (addStmt s span) := by
  refine action_ok fun hp c hc _ => ?_
  subst hc
  refine ⟨.of_same rfl rfl rfl, hp.of_same rfl rfl rfl rfl fun b => ?_, trivial⟩
  show (c.stmts.add s span).2.kind b = _ ∨ ((c.stmts.add s span).2.kind b).Fits _
  rw [StmtTable.kind_add_other]
  split
  · exact .inr hs
  · exact .inl rfl

theorem Stmt.Fits.settle {s new : Stmt} {r : Reach} (hs : s.Fits r) (hnew : new.Fits r) :
    (s.settle new).Fits r := by
  unfold Stmt.settle
  split <;> first | exact hs | exact hnew | exact ⟨hnew.exprs, nofun, nofun⟩

theorem setStmt_ok {b : StmtId} {s : Stmt} (hs : s.Fits p.reach) :
    ReportsOnly h G p (act (.setStmt b s) done) := by
  refine action_ok fun hp c hc _ => ?_
  subst hc
  refine ⟨.of_same rfl rfl rfl, hp.of_same rfl rfl rfl rfl fun b' => ?_, trivial⟩
  show ((c.stmts.settle b s).node b').kind = _ ∨ ((c.stmts.settle b s).node b').kind.Fits _
  rw [StmtTable.node_settle]
  split
  · exact .inr ((hp.stmts b).settle hs)
  · exact .inl rfl

/-! ### Symbols and scopes -/

theorem note_ok {s : SymbolId} {n : SymbolNote} (hn : p.Sound G → n.Fits p s) :
    Reports h G p (act (.note s n) done) fun q _ =>
      q = { p with symbols := p.symbols.modifyKind s n.apply } := by
  refine action_ok fun hp c hc _ => ?_
  subst hc
  exact ⟨.withSymbols (Tables.becomes_note (hn hp)), hp.note (hn hp), rfl⟩

theorem addSymbol_ok {k : SymbolKind} (hG : p.Sound G → p.Sound G1)
    (hk : p.Sound G → k.Sound G1 p ⟨p.symbols.size⟩) :
    ReportsOr (fun _ _ => False) h G G1 p (addSymbol name span k parent) fun q s =>
      s = ⟨p.symbols.size⟩ ∧ q = p.withSymbol name span k parent := by
  refine action_ok fun hp c hc _ => ?_
  subst hc
  exact ⟨.withSymbols Tables.becomes_withSymbol, (hG hp).withSymbol (hk hp), rfl, rfl⟩

theorem pushScope_ok : ReportsOnly h G p (pushScope sc) := aside_ok

theorem noteScope_ok {n : ScopeNote} : ReportsOnly h G p (noteScope sc n) :=
  aside_ok

theorem overwrite_ok {s : SymbolId} : ReportsOnly h G p (overwrite sc name s) :=
  aside_ok

theorem bindName_ok {s : SymbolId} {clash : Problem} :
    ReportsOnly h G p (bindName sc name s span clash) := by
  refine .ask ?_
  split
  · exact overwrite_ok
  · exact .error_last

theorem globalScope_ok : ReportsOnly h G p globalScope := by
  refine .context fun c _ => ?_
  split
  · exact .pure trivial
  · refine .bind aside_ok fun _ _ _ _ _ => ?_
    exact .bind aside_ok fun _ _ _ _ _ => .pure trivial

theorem enclosing_ok : ReportsOnly h G p (enclosing sc) :=
  .context fun _ _ => .pure trivial

/-! ### Gags and nesting -/

theorem gagged_ok {x : Analyse β} {Q : Tables → β → Prop} (hx : Reports h G p x Q) :
    Reports h G p (gagged x) fun q r => Q q r.1 ∧ r.2 = false := by
  intro hh hp s t a hs hrun ht
  simp only [gagged, run] at hrun
  split at hrun
  · rename_i b u hrun'
    cases hrun
    have hu : u.Clean := ⟨ht.errors, ht.gagged, ht.types⟩
    rcases hx hh hp s.gag u b hs hrun' hu with ⟨hpu, hsound, hb⟩ | hfalse
    · refine .inl ⟨hpu, hsound, hb, ?_⟩
      simp [DiagnosticLog.firedSince, hu.gagged]
    · exact hfalse.elim
  · cases hrun

theorem nested_ok {n : Nesting} {x : Analyse β} {Q E : Tables → β → Prop}
    (hx : ReportsOr E h G G2 p x Q) : ReportsOr E h G G2 p (nested n x) Q := by
  intro hh hp s t a hs hrun ht
  simp only [nested, run] at hrun
  split at hrun
  · rename_i b u hrun'
    cases hrun
    have henter : (s.enter n).toTables = p := by
      subst hs
      cases n <;> rfl
    have hleave : (u.leave n).toTables = u.toTables := by cases n <;> rfl
    have hu : u.Clean := ⟨ht.errors, ht.gagged, n.types_leave u ▸ ht.types⟩
    rw [hleave]
    exact hx hh hp _ u _ henter hrun' hu
  · cases hrun

/-! ## Copies -/

/-- A step over a part of the tables that leads from sound tables to sound tables and to `Q`. -/
def Copies {σ α : Type} (view : σ → Tables) (G : Gaps) (x : σ) (m : StateM σ α)
    (Q : Tables → α → Prop) : Prop :=
  (view x).Sound G → (view x).Onward (view (m.run x).2) ∧ (view (m.run x).2).Sound G ∧
    Q (view (m.run x).2) (m.run x).1

namespace Copies

variable {σ : Type} {view : σ → Tables} {x : σ} {Q : Tables → α → Prop} {m : StateM σ α}
  {f : α → StateM σ β} {R : Tables → β → Prop}

theorem pure {a : α} (ha : Q (view x) a) : Copies view G x (Pure.pure a) Q :=
  fun hx => ⟨.refl, hx, ha⟩

theorem bind (hm : Copies view G x m Q)
    (hf : ∀ a y, (view x).Onward (view y) → (view y).Sound G → Q (view y) a →
      Copies view G y (f a) R) : Copies view G x (m >>= f) R := by
  intro hx
  obtain ⟨hxy, hy, ha⟩ := hm hx
  obtain ⟨hyz, hz, hb⟩ := hf _ _ hxy hy ha hy
  exact ⟨hxy.trans hyz, hz, hb⟩

theorem intro (hm : (view x).Sound G → Copies view G x m Q) : Copies view G x m Q :=
  fun hx => hm hx hx

theorem imp {R : Tables → α → Prop} (hm : Copies view G x m Q)
    (himp : ∀ q a, (view x).Onward q → Q q a → R q a) : Copies view G x m R := by
  intro hx
  obtain ⟨hxy, hy, ha⟩ := hm hx
  exact ⟨hxy, hy, himp _ _ hxy ha⟩

theorem get {f : σ → StateM σ β} (hf : Copies view G x (f x) R) :
    Copies view G x (MonadState.get >>= f) R :=
  hf

/-- One after the other, elements are copied to what `Q` says. -/
theorem sweeps {Q : Tables → α → β → Prop} {y : σ} {as : List α} {bs : List β}
    (h : Sweeps f x as y bs) (hQ : ∀ {q r a b}, q.Onward r → Q q a b → Q r a b)
    (hf : ∀ a ∈ as, ∀ y, (view x).Onward (view y) → Copies view G y (f a) fun q b => Q q a b)
    (hx : (view x).Sound G) : (view x).Onward (view y) ∧ (view y).Sound G ∧
      ∀ b ∈ bs, ∃ a ∈ as, Q (view y) a b := by
  induction h with
  | nil => exact ⟨.refl, hx, nofun⟩
  | @cons x y a as bs _ ih =>
    obtain ⟨hxy, hsound, hb⟩ := hf a mem_cons_self x .refl hx
    obtain ⟨hyz, hsound', hbs⟩ :=
      ih (fun c hc z hz => hf c (mem_cons_of_mem a hc) z (hxy.trans hz)) hsound
    refine ⟨hxy.trans hyz, hsound', ?_⟩
    rintro c (_ | ⟨_, hc⟩)
    · exact ⟨a, mem_cons_self, hQ hyz hb⟩
    · obtain ⟨d, hd, hdc⟩ := hbs c hc
      exact ⟨d, mem_cons_of_mem a hd, hdc⟩

end Copies

/-! ## Expressions -/

/-- A copy of an entry, with the tables before and after. -/
structure Mirrors (p : Tables) (e : ExprId) (q : Tables) (r : ExprId) : Prop where
  inside : r.In q.reach
  typed : p.Typed e → q.Typed r

variable {e : ExprId}

theorem Mirrors.mono {q q' : Tables} {r : ExprId} (h : Mirrors p e q r) (hq : q.Onward q') :
    Mirrors p e q' r :=
  ⟨hq.inside h.inside, fun he => hq.typed (h.typed he)⟩

/-- A copy of a kind of expression. -/
structure Expr.Mirrors (k : Expr) (p q : Tables) (k' : Expr) : Prop where
  children : ∀ c' ∈ k'.children, ∃ c ∈ k.children, DCompiler.Mirrors p c q c'
  types : k'.types = k.types
  pending : k'.isPending = k.isPending
  backs : ∀ {r : Tables} {t}, r.Backs k t → r.Backs k' t

namespace ExprTable

variable {x : ExprTable}

abbrev view (p : Tables) (x : ExprTable) : Tables := { p with exprs := x }

def Copying (p : Tables) (G : Gaps) (x : ExprTable) (f : ExprId → StateM ExprTable ExprId) : Prop :=
  ∀ y e, (view p x).Onward (view p y) → e.In (view p x).reach →
    Copies (view p) G y (f e) fun q r => Mirrors (view p x) e q r

theorem Copying.children {f : ExprId → StateM ExprTable ExprId} (hf : Copying p G x f) {k : Expr}
    (hk : ∀ c ∈ k.children, c.In (view p x).reach) :
    Copies (view p) G x (k.mapChildren f) fun q k' => k.Mirrors (view p x) q k' := by
  intro hx
  obtain ⟨hxy, hy, hchildren⟩ := Copies.sweeps (Q := fun q e r => Mirrors (view p x) e q r)
    (k.sweeps_mapChildren f x) (fun hqr h => h.mono hqr) (fun c hc y hxy => hf y c hxy (hk c hc)) hx
  refine ⟨hxy, hy, hchildren, ?_, ?_, ?_⟩
  all_goals cases k <;> first | rfl | exact id

theorem mirrors_node {n : ExprNode} {y : ExprTable} {k : Expr} (hx : (view p x).Sound G)
    (hn : n.Sound (view p x)) (hxy : (view p x).Onward (view p y))
    (hk : n.kind.Mirrors (view p x) (view p y) k) :
    ExprNode.Sound { n with kind := k } (view p y) where
  fits := by
    refine ⟨fun c hc => ?_, fun t ht => ?_⟩
    · obtain ⟨d, -, hd⟩ := hk.children c hc
      exact hd.inside
    · exact hxy.known (hn.fits.types t (hk.types ▸ ht))
  pending ht := hk.pending ▸ hn.pending ht
  known ht := hxy.known (hn.known ht)
  children ht c hc := by
    obtain ⟨d, hd, hdc⟩ := hk.children c hc
    exact hdc.typed (hn.children ht d hd)
  backs ht := hk.backs ((hn.backs ht).mono hxy ((hn.known ht).lt hx.size_le))

theorem copyTo_copies (depth : Nat) (he : e.In (view p x).reach) :
    Copies (view p) G x (copyTo depth e) fun q r => Mirrors (view p x) e q r := by
  induction depth generalizing x e with
  | zero => exact .pure ⟨he, id⟩
  | succ depth ih =>
    have hcopying : Copying p G x (copyTo depth) := fun y c hxy hc =>
      (ih (hxy.inside hc)).imp fun q r _ h => ⟨h.inside, fun ht => h.typed (hxy.typed ht)⟩
    refine .intro fun hx => .get ?_
    have hn := hx.nodes e he
    refine .bind (hcopying.children hn.fits.children) fun k y hxy hy hk hy' => ?_
    refine ⟨.addNode _, hy.addNode (mirrors_node hx hn hxy hk), ?_, fun ht => ?_⟩
    · show y.size < (y.addNode _).2.size
      rw [size_addNode]
      exact Nat.lt_succ_self _
    show ((y.addNode _).2.type? (y.addNode _).1).isSome
    rw [type?, node_addNode_self]
    exact ht

theorem copy_copies (he : e.In (view p x).reach) :
    Copies (view p) G x (copy e) fun q r => Mirrors (view p x) e q r :=
  copyTo_copies _ he

end ExprTable

open Analyse

theorem copyExpr_ok (he : e.In p.reach) :
    Reports h G p (copyExpr e) fun q r => r.In q.reach ∧ (p.Typed e → q.Typed r) := by
  refine action_ok fun hp c hc _ => ?_
  subst hc
  obtain ⟨honward, hsound, hcopy⟩ := copy_copies (p := c.toTables) (x := c.exprs) he hp
  exact ⟨honward, hsound, hcopy.inside, hcopy.typed⟩

/-! ## Function declarations -/

namespace NodeTables

variable {x : NodeTables}

abbrev view (p : Tables) (x : NodeTables) : Tables := { p with exprs := x.exprs, stmts := x.stmts }

theorem copyExpr_copies {e : ExprId} (he : e.In (view p x).reach) :
    Copies (view p) G x (copyExpr e) fun q r => r.In q.reach := by
  intro hx
  obtain ⟨honward, hsound, hcopy⟩ :=
    copy_copies (p := { p with stmts := x.stmts }) (x := x.exprs) he hx
  exact ⟨honward, hsound, hcopy.inside⟩

theorem addStmt_copies {s : Stmt} {span : Span} (hs : s.Fits (view p x).reach) :
    Copies (view p) G x (addStmt s span) fun _ _ => True := by
  intro hx
  refine ⟨.of_same rfl rfl rfl, hx.of_same rfl rfl rfl rfl fun b => ?_, trivial⟩
  show (x.stmts.add s span).2.kind b = _ ∨ ((x.stmts.add s span).2.kind b).Fits _
  rw [StmtTable.kind_add_other]
  split
  · exact .inr hs
  · exact .inl rfl

/-- Copy statements, whatever becomes of them. -/
def CopiesStmts (p : Tables) (G : Gaps) (f : StmtId → StateM NodeTables StmtId) : Prop :=
  ∀ x b, Copies (view p) G x (f b) fun _ _ => True

section

variable {f : StmtId → StateM NodeTables StmtId} (hf : CopiesStmts p G f)
include hf

theorem CopiesStmts.sweeps {y : NodeTables} {as bs : List Node} (h : Sweeps (copyNode f) x as y bs)
    (has : ∀ e, .expr e ∈ as → e.In (view p x).reach) (hx : (view p x).Sound G) :
    (view p x).Onward (view p y) ∧ (view p y).Sound G ∧
      ∀ e, .expr e ∈ bs → e.In (view p y).reach := by
  let Q (q : Tables) (_ b : Node) : Prop := ∀ e, b = .expr e → e.In q.reach
  have hcopy : ∀ a ∈ as, ∀ y, (view p x).Onward (view p y) →
      Copies (view p) G y (copyNode f a) fun q b => Q q a b := by
    intro a ha y hxy
    cases a with
    | expr e =>
      refine .bind (copyExpr_copies (hxy.inside (has e ha))) fun r _ _ _ hr => .pure ?_
      rintro _ ⟨⟩
      exact hr
    | stmt s => exact .bind (hf y s) fun _ _ _ _ _ => .pure nofun
  obtain ⟨hxy, hy, hbs⟩ := Copies.sweeps h (fun hqr hb e he => hqr.inside (hb e he)) hcopy hx
  refine ⟨hxy, hy, fun e he => ?_⟩
  obtain ⟨_, _, hin⟩ := hbs _ he
  exact hin e rfl

theorem CopiesStmts.function {d : FunctionDecl} (hd : d.Fits (view p x).reach) :
    Copies (view p) G x (copyFunctionWith f d) fun q d' => d'.Fits q.reach := by
  intro hx
  have hdefault (e : ExprId) (he : .expr e ∈ d.parts) : e.In (view p x).reach := by
    obtain ⟨a, ha, he⟩ := FunctionDecl.expr_mem_parts.mp he
    exact (hd.params a ha).default e he
  obtain ⟨hxy, hy, hparts⟩ := hf.sweeps (sweeps_copyFunctionWith f d x) hdefault hx
  refine ⟨hxy, hy, hxy.known hd.result, fun b hb => ⟨?_, fun e he => ?_⟩⟩
  · obtain ⟨a, ha, z, rfl⟩ := (Sweeps.mapM d.params).exists_of_mem hb
    exact hxy.known (hd.params a ha).type
  · exact hparts e (FunctionDecl.expr_mem_parts.mpr ⟨b, hb, he⟩)

theorem CopiesStmts.kind {s : Stmt} (hs : s.Fits (view p x).reach) :
    Copies (view p) G x (copyKindWith f s) fun q s' => s'.Fits q.reach := by
  intro hx
  have hexpr (e : ExprId) (he : .expr e ∈ s.parts) : e.In (view p x).reach := by
    obtain he | ⟨d, symbol, hfunc, he⟩ := Stmt.expr_mem_parts.mp he
    · exact hs.exprs e he
    · obtain ⟨a, ha, he⟩ := FunctionDecl.expr_mem_parts.mp he
      exact ((hs.function hfunc).params a ha).default e he
  obtain ⟨hxy, hy, hparts⟩ := hf.sweeps (sweeps_copyKindWith f s x) hexpr hx
  refine ⟨hxy, hy, fun e he => hparts e (Stmt.expr_mem_parts.mpr (.inl he)), ?_, ?_⟩
  · intro name type init storage symbol heq
    cases s with
    | varDecl _ _ init' =>
      cases heq
      have hv := hs.declared rfl
      have hinit (e : ExprId) (he : e ∈ ((init'.mapM copyExpr).run x).1) := hparts e
        (Stmt.expr_mem_parts.mpr (.inl (mem_toList.mpr he)))
      refine ⟨?_, hv.eager, fun t ht => hxy.known (hv.known t ht), hinit⟩
      cases init' <;> exact hv.given
    | _ => cases heq
  · intro d symbol heq
    cases s with
    | funcDecl d' =>
      cases heq
      exact (hf.function (hs.function rfl) hx).2.2
    | _ => cases heq

end

theorem copyStmtTo_copies (depth : Nat) : CopiesStmts p G (copyStmtTo depth) := by
  induction depth with
  | zero => exact fun x b => .pure trivial
  | succ depth ih =>
    refine fun x b => .intro fun hx => .get ?_
    exact .bind (ih.kind (hx.stmts b)) fun k y _ _ hk => addStmt_copies hk

end NodeTables

theorem copyFunction_ok {d : FunctionDecl} (hd : d.Fits p.reach) :
    Reports h G p (copyFunction d) fun q d' => d'.Fits q.reach := by
  refine action_ok fun hp c hc _ => ?_
  subst hc
  exact NodeTables.CopiesStmts.function (p := c.toTables) (x := ⟨c.exprs, c.stmts⟩)
    (fun y b => NodeTables.copyStmtTo_copies (y.stmts.size + 1) y b) hd hp

end DCompiler
