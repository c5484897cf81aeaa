import DCompiler.Proofs.Sentinels.Actions

/-!
# Types by name, without silent failures

Looking up the names in a known type gives a known type, or a report. Only while names are declared
can a type lead to a struct that is still without a type; then the result is the error type.
-/

namespace DCompiler

open Analyse List

variable {α β : Type} {h : Analyser} {G : Gaps} {p : Tables}
variable {k : TypeKind} {sc : ScopeId} {place : Span} {p0 : Tables} {next type : TypeId}

/-! ## Entering types -/

section

variable {t : TypeTable} {n : Nat}

theorem TypeTable.Admits.single {c : TypeId} (hc : c.Known ⟨n, t.size⟩)
    (hk : k = .pointer c ∨ k = .dynArray c ∨ ∃ length, k = .staticArray c length) :
    t.Admits n k := by
  rcases hk with rfl | rfl | ⟨_, rfl⟩ <;>
    exact ⟨by simpa [TypeKind.components] using hc, by simp, by simp [TypeKind.defaults]⟩

theorem TypeTable.Admits.delegate_of {f : TypeId} (hf : t.IsFunction f) (h : t.WellFormed n) :
    t.Admits n (.delegate f) := by
  refine ⟨by simpa [TypeKind.components] using hf.known h, ?_, by simp [TypeKind.defaults]⟩
  rintro _ ⟨⟩
  exact hf

theorem TypeTable.Admits.tuple {elems : List TypeId} (helems : ∀ c ∈ elems, c.Known ⟨n, t.size⟩) :
    t.Admits n (.tuple elems) :=
  ⟨helems, nofun, by simp [TypeKind.defaults]⟩

theorem TypeTable.Admits.function {sig : Signature} (hresult : sig.result.Known ⟨n, t.size⟩)
    (hparams : ∀ q ∈ sig.params, q.type.Known ⟨n, t.size⟩ ∧ ∀ d ∈ q.default, d.index < n) :
    t.Admits n (.function sig) := by
  refine ⟨fun c hc => ?_, nofun, fun d hd => ?_⟩
  · simp only [TypeKind.components, mem_cons, mem_map] at hc
    rcases hc with rfl | ⟨q, hq, rfl⟩
    · exact hresult
    · exact (hparams q hq).1
  · simp only [TypeKind.defaults, mem_filterMap] at hd
    obtain ⟨q, hq, hd⟩ := hd
    exact (hparams q hq).2 d hd

end

theorem intern_single_ok {c : TypeId} (hc : c.Known p.reach)
    (hk : k = .pointer c ∨ k = .dynArray c ∨ ∃ length, k = .staticArray c length) :
    Reports h G p (intern k) fun q t =>
      t.Known q.reach ∧ q.types.kinds[t.index]? = some k ∧ q.exprs = p.exprs := by
  refine .imp (intern_ok fun _ _ => .single hc hk) fun q t _ hq ht => ⟨?_, ht⟩
  refine hq.types.known_of_kind (k := k) (by simp [TypeTable.kind, ht.1]) ?_
  rcases hk with rfl | rfl | ⟨_, rfl⟩ <;> simp

theorem intern_function_ok {sig : Signature} (hresult : sig.result.Known p.reach)
    (hparams : ∀ q ∈ sig.params, q.type.Known p.reach ∧ ∀ d ∈ q.default, d.In p.reach) :
    Reports h G p (intern (.function sig)) fun q t => q.types.IsFunction t :=
  .imp (intern_ok fun _ _ => .function hresult hparams) fun _ _ _ _ ht => ⟨sig, ht.1⟩

theorem intern_delegate_ok {f : TypeId} (hf : p.types.IsFunction f) :
    Reports h G p (intern (.delegate f)) fun q t => q.types.IsDelegate t :=
  .imp (intern_ok fun hp _ => .delegate_of hf hp.types) fun _ _ _ _ ht => ⟨f, ht.1⟩

theorem intern_tuple_ok {elems : List TypeId} (helems : ∀ c ∈ elems, c.Known p.reach) :
    Reports h G p (intern (.tuple elems)) fun q t => t.Known q.reach := by
  refine .imp (intern_ok fun _ _ => .tuple helems) fun q t _ hq ht => ?_
  exact hq.types.known_of_kind (k := .tuple elems) (by simp [TypeTable.kind, ht.1]) nofun

theorem stringType_ok : Reports h G p stringType fun q t => t.Known q.reach ∧ q.exprs = p.exprs :=
  .imp (intern_single_ok TypeId.known_ofScalar (.inr (.inl rfl))) fun _ _ _ _ ht => ⟨ht.1, ht.2.2⟩

theorem known_sizeType {t : Target} {r : Reach} : t.sizeType.Known r := TypeId.known_ofScalar

theorem sizeType_ok : Reports h G p sizeType fun q t => t.Known q.reach :=
  .asked known_sizeType

theorem known_null (r : Reach) : TypeId.null.Known r :=
  ⟨Nat.lt_of_lt_of_le (by decide) (Nat.le_max_left _ _), by decide⟩

theorem known_typeInfo (r : Reach) : TypeId.typeInfo.Known r :=
  ⟨Nat.lt_of_lt_of_le (by decide) (Nat.le_max_left _ _), by decide⟩

/-! ## Names -/

theorem undefinedIdentifier_ok {E R : Tables → α → Prop} {G2 : Gaps} {name : String}
    {span : Span} {f : Unit → Analyse α} :
    ReportsOr E h G G2 p (undefinedIdentifier name sc span >>= f) R := by
  unfold undefinedIdentifier
  rw [bind_assoc]
  exact .tables .error

theorem namedType_ok {name : String} :
    Reports h G p (namedType name sc place) fun q t => t.KnownOr q.reach G.declaring := by
  unfold namedType
  split
  · exact sizeType_ok.imp fun _ _ _ _ ht => .inl ht
  split
  · exact stringType_ok.imp fun _ _ _ _ ht => .inl ht.1
  refine .tables ?_
  split
  · exact undefinedIdentifier_ok
  rename_i symbol _ _
  refine .intro fun hp => .ask ?_
  have hs := hp.symbols symbol
  split <;> rename_i hk
  · rw [hk] at hs
    exact .pure (hs.known.weaken fun hgap => ⟨symbol, hgap⟩)
  · rw [hk] at hs
    exact .pure (TypeId.KnownOr.weaken hs fun hgap => ⟨symbol, hgap⟩)
  · rw [hk] at hs
    exact .pure (.inl hs)
  · exact .error

/-- Apply a rule to a list, where the rule refuses an element only if `D`. -/
theorem mapUntilNone_ok {f : α → Analyse (Option β)} {P : Tables → β → Prop} {D : Prop}
    (hP : ∀ {q r b}, q.Onward r → P q b → P r b) (as : List α)
    (hf : ∀ a ∈ as, ∀ q, p.Onward q →
      Reports h G q (f a) fun r b => (b = none → D) ∧ ∀ c ∈ b, P r c) :
    Reports h G p (mapUntilNone f as) fun q bs => (bs = none → D) ∧ ∀ cs ∈ bs, ∀ c ∈ cs, P q c := by
  induction as generalizing p with
  | nil =>
    refine .pure ⟨nofun, ?_⟩
    nofun
  | cons a as ih =>
    refine .bind (hf a mem_cons_self p .refl) fun b q hpq _ hb => ?_
    cases b with
    | none => exact .pure ⟨fun _ => hb.1 rfl, nofun⟩
    | some b =>
      refine .bind (ih fun c hc r hqr => hf c (mem_cons_of_mem a hc) r (hpq.trans hqr))
        fun bs r hqr _ hbs => .pure ⟨fun hnone => hbs.1 (Option.map_eq_none_iff.mp hnone), ?_⟩
      intro cs hcs c hc
      obtain ⟨ds, hds, rfl⟩ := Option.map_eq_some_iff.mp hcs
      rcases mem_cons.mp hc with rfl | hc
      · exact hP hqr (hb.2 _ rfl)
      · exact hbs.2 ds hds c hc

/-- What becomes of a component: a known type, and a function if it was one. -/
def Resolves (G : Gaps) (p q : Tables) (next : TypeId) (found : Option TypeId) : Prop :=
  (found = none → G.declaring) ∧
    ∀ c ∈ found, c.Known q.reach ∧ (p.types.IsFunction next → q.types.IsFunction c)

/-- What looking up the names in a type gives. -/
def Resolved (G : Gaps) (p : Tables) (type : TypeId) (q : Tables) (t : TypeId) : Prop :=
  t.KnownOr q.reach G.declaring ∧ (p.types.IsFunction type → q.types.IsFunction t ∨ t = .error)

theorem Resolved.of_kind {q : Tables} {t : TypeId} (ht : t.KnownOr q.reach G.declaring)
    (hk : p.types.kind type = k) (hne : ∀ sig, k ≠ .function sig) : Resolved G p type q t := by
  refine ⟨ht, fun ⟨sig, hsig⟩ => ?_⟩
  exact absurd (by simpa [TypeTable.kind, hsig] using hk.symm) (hne sig)

theorem internOf_ok {found : Option TypeId} {make : TypeId → TypeKind}
    (hfound : Resolves G p0 p next found) (hk : p0.types.kind type = k)
    (hne : ∀ sig, k ≠ .function sig)
    (hmake : ∀ c, c.Known p.reach → (p0.types.IsFunction next → p.types.IsFunction c) →
      p.Sound G → p.types.Admits p.exprs.size (make c))
    (herror : ∀ c, make c ≠ .error) :
    Reports h G p (internOf found make) (Resolved G p0 type) := by
  cases found with
  | none => exact .pure (.of_kind (.inr ⟨rfl, hfound.1 rfl⟩) hk hne)
  | some c =>
    obtain ⟨hknown, hfunction⟩ := hfound.2 c rfl
    refine .imp (intern_ok fun hp _ => hmake c hknown hfunction hp) fun q t _ hq ht => ?_
    have hkind : q.types.kind t = make c := by simp [TypeTable.kind, ht.1]
    exact .of_kind (.inl (hq.types.known_of_kind hkind (herror c))) hk hne

theorem component_ok (hbefore : next.index < type.index) (hp0 : p0.types.Grows p.types)
    (hrec : Reports h G p (resolveType next sc place) (Resolved G p next)) :
    Reports h G p (component type sc place next) fun q found => Resolves G p0 q next found := by
  unfold component
  rw [if_pos hbefore]
  refine .bind hrec fun found q hpq hq hfound => .ask ?_
  rcases hfound.1 with hknown | ⟨rfl, hdeclaring⟩
  · refine .pure ?_
    rw [hq.types.isError_eq hknown]
    refine ⟨by simp, ?_⟩
    rintro _ ⟨⟩
    exact ⟨hknown, fun hf => (hfound.2 (hf.grows hp0)).resolve_right hknown.2⟩
  · refine .pure ?_
    have herror : q.types.isError .error = true := by
      rw [TypeTable.isError, hq.types.kind_error]
      rfl
    rw [herror]
    exact ⟨fun _ => hdeclaring, by simp⟩

theorem resolveType_ok (ht : type.Known p.reach) :
    Reports h G p (resolveType type sc place) (Resolved G p type) := by
  -- components stand before what is built on them, so the recursion descends along places
  induction hn : type.index using Nat.strongRecOn generalizing p type with
  | ind n ih =>
    subst hn
    refine .intro fun hp => ?_
    rw [resolveType_eq]
    refine .ask ?_
    have hbefore {c : TypeId} {k : TypeKind} (hk : p.types.kind type = k)
        (hc : c ∈ k.components) : c.index < type.index := by
      have hne : k ≠ .error := by
        rintro rfl
        simp [TypeKind.components] at hc
      exact (hp.types.ordered (TypeTable.kinds_of_kind hk hne) c hc).1
    have hcomponent {c : TypeId} {k : TypeKind} (hk : p.types.kind type = k) {q : Tables}
        (hpq : p.Onward q) (hc : c ∈ k.components := by simp [TypeKind.components]) :
        Reports h G q (component type sc place c) fun r found => Resolves G p r c found :=
      component_ok (hbefore hk hc) hpq.types
        (ih c.index (hbefore hk hc) (hpq.known (hp.types.known_component hk hc)) rfl)
    cases hk : p.types.kind type with
    | error => exact absurd hk (hp.types.known_iff.mp ht)
    | scalar _ | null | typeInfo | structType _ _ | classType _ _ | enumType _ _ _ =>
      exact .pure (.of_kind (.inl ht) hk (by simp))
    | named name => exact namedType_ok.imp fun _ _ _ _ ht => .of_kind ht hk (by simp)
    | pointer next =>
      refine .bind (hcomponent hk .refl) fun found q hpq _ hf => ?_
      exact internOf_ok hf hk (by simp) (fun c hc _ _ => .single hc (.inl rfl)) (by simp)
    | dynArray next =>
      refine .bind (hcomponent hk .refl) fun found q hpq _ hf => ?_
      exact internOf_ok hf hk (by simp) (fun c hc _ _ => .single hc (.inr (.inl rfl))) (by simp)
    | staticArray next length =>
      refine .bind (hcomponent hk .refl) fun found q hpq _ hf => ?_
      exact internOf_ok hf hk (by simp) (fun c hc _ _ => .single hc (.inr (.inr ⟨_, rfl⟩)))
        (by simp)
    | delegate func =>
      have hfunc : p.types.IsFunction func :=
        hp.types.delegates (TypeTable.kinds_of_kind hk (by simp))
      refine .bind (hcomponent hk .refl) fun found q hpq _ hf => ?_
      exact internOf_ok hf hk (by simp) (fun c _ hc hq => .delegate_of (hc hfunc) hq.types)
        (by simp)
    | assocArray key value =>
      refine .bind (hcomponent hk .refl) fun key' q hpq _ hkey => ?_
      refine .bind (hcomponent hk hpq) fun value' r hqr _ hv => ?_
      cases key' with
      | none => exact .pure (.of_kind (.inr ⟨rfl, hkey.1 rfl⟩) hk (by simp))
      | some key' =>
        have hkey' := hqr.known (hkey.2 key' rfl).1
        refine internOf_ok hv hk (by simp) (fun c hc _ _ => ⟨?_, by simp, forall_mem_nil _⟩)
          (by simp)
        simpa [TypeKind.components] using ⟨hkey', hc⟩
    | tuple elems =>
      refine .bind (mapUntilNone_ok (P := fun q c => c.Known q.reach) (D := G.declaring)
        (fun hqr hc => hqr.known hc) elems fun c hc q hpq =>
          (hcomponent hk hpq hc).imp fun _ _ _ _ hf => ⟨hf.1, fun d hd => (hf.2 d hd).1⟩)
        fun found q _ _ hfound => ?_
      cases found with
      | none => exact .pure (.of_kind (.inr ⟨rfl, hfound.1 rfl⟩) hk (by simp))
      | some found =>
        refine .imp (intern_tuple_ok (hfound.2 found rfl)) ?_
        exact fun _ _ _ _ ht => .of_kind (.inl ht) hk (by simp)
    | function sig =>
      refine .bind (hcomponent hk .refl) fun result q hpq _ hres => ?_
      cases result with
      | none => exact .pure ⟨.inr ⟨rfl, hres.1 rfl⟩, fun _ => .inr rfl⟩
      | some result =>
        have hparam : ∀ a ∈ sig.params, ∀ r, q.Onward r →
            Reports h G r (param type sc place a) fun u b => (b = none → G.declaring) ∧
              ∀ c ∈ b, c.type.Known u.reach ∧ ∀ d ∈ c.default, d.In u.reach := by
          intro a ha r hqr
          have hmem : a.type ∈ (TypeKind.function sig).components :=
            mem_cons_of_mem _ (mem_map_of_mem ha)
          have hdefault : ∀ d ∈ a.default, d.In p.reach := fun d hd =>
            hp.types.defaults (TypeTable.kinds_of_kind hk (by simp)) d
              (mem_filterMap.mpr ⟨a, ha, hd⟩)
          refine .bind (hcomponent hk (hpq.trans hqr) hmem) fun found u hru _ hf =>
            .pure ⟨fun hnone => hf.1 (Option.map_eq_none_iff.mp hnone), fun c hc => ?_⟩
          obtain ⟨t, ht, rfl⟩ := Option.map_eq_some_iff.mp hc
          exact ⟨(hf.2 t ht).1, fun d hd => (hpq.trans (hqr.trans hru)).inside (hdefault d hd)⟩
        refine .bind (mapUntilNone_ok
          (P := fun u c => c.type.Known u.reach ∧ ∀ d ∈ c.default, d.In u.reach)
          (fun huv hc => ⟨huv.known hc.1, fun d hd => huv.inside (hc.2 d hd)⟩) sig.params hparam)
          fun params r hqr _ hparams => ?_
        cases params with
        | none => exact .pure ⟨.inr ⟨rfl, hparams.1 rfl⟩, fun _ => .inr rfl⟩
        | some params =>
          refine .imp (intern_function_ok (hqr.known (hres.2 result rfl).1)
            (hparams.2 params rfl)) fun u t _ hu hfunction => ?_
          exact ⟨.inl (hfunction.known hu.types), fun _ => .inl hfunction⟩

theorem resolveType_known (hG : ¬ G.declaring) (ht : type.Known p.reach) :
    Reports h G p (resolveType type sc place) fun q t =>
      t.Known q.reach ∧ (p.types.IsFunction type → q.types.IsFunction t) := by
  refine (resolveType_ok ht).imp fun q t _ _ hres => ?_
  have hknown := hres.1.known hG
  exact ⟨hknown, fun hf => (hres.2 hf).resolve_right hknown.2⟩

end DCompiler
