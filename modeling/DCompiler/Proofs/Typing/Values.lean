import DCompiler.Proofs.Typing.Yields

/-!
# Types of values, names and members

A conversion gives an expression that has a type if it is given one; other rules begin with an
answer of the analyser, which has a type. A name stands for the entry it was written in or for a
copy of a constant's value, which takes over its type.

An index of a tuple gives an element of it. This is where it matters that the elements of a tuple
have types.
-/

namespace DCompiler

open Analyse List

variable {h : Analyser} {t : ExprTable}
variable {sc : ScopeId} {elems args : List ExprId} {e operand : ExprId} {target : TypeId}
  {name : String} {arg : ExprId}

@[grind ←] theorem resolveType_quiet {place : Span} : Quiet h (resolveType target sc place) :=
  Alone.quiet resolveType_alone

/-! ## Conversions -/

theorem castTo_yields : Yields h t (castTo e target) fun u r => t.IsTyped e → u.IsTyped r := by
  refine .tables fun p _ => ?_
  dsimp only
  split
  · exact .pure id
  refine .imp (typed_gives ?_) fun _ _ _ hr _ => hr
  split
  · rename_i source target' _ _
    cases hfolded : foldedCast (p.exprs.kind e) source target' with
    | none => rfl
    | some k => rcases foldedCast_literal hfolded with ⟨_, rfl⟩ | ⟨_, rfl⟩ <;> rfl
  · rfl

@[grind ←] theorem castTo_quiet : Quiet h (castTo e target) := Yields.quiet fun _ => castTo_yields

theorem convert_yields : Yields h t (convert e target) fun u r => t.IsTyped e → u.IsTyped r := by
  induction hn : target.index using Nat.strongRecOn generalizing t e target with
  | ind n ih =>
    subst hn
    rw [convert]
    refine .tables fun p hp => ?_
    subst hp
    dsimp only
    split
    · exact .pure id
    split
    · exact .imp fail_gives fun _ _ _ hr _ => hr
    have harray (elems : List ExprId) (elem : TypeId) (hkind : p.exprs.kind e = .array elems) :
        Yields h p.exprs (do
          let elems ← elems.mapM fun x =>
            if elem.index < target.index then convert x elem else pure x
          settle e (.array elems) target) fun u r => p.exprs.IsTyped e → u.IsTyped r := by
      have he : p.exprs.Proper e := .of_kind hkind rfl
      refine .after (.mapM (fun x => ?_) elems) fun elems u htu => ?_
      · split
        · exact Yields.quiet fun _ => ih _ ‹_› rfl
        · exact .pure
      · exact .imp (settle_gives (htu.proper he) rfl) fun _ _ _ hr _ => hr
    have haddress (s : SymbolId) : Yields h p.exprs
        (if p.isFunction s = true then do
          noteFunc s .addressTaken
          typed (.unary .addressOf e) (p.exprs.span e) target
        else castTo e target) fun u r => p.exprs.IsTyped e → u.IsTyped r := by
      split
      · exact .after noteFunc_quiet fun _ _ _ =>
          .imp (typed_gives rfl) fun _ _ _ hr _ => hr
      · exact castTo_yields
    split
    · exact harray _ _ ‹_›
    · exact harray _ _ ‹_›
    · exact haddress _
    · exact haddress _
    · exact castTo_yields

theorem convert_gives (he : t.IsTyped e) : GivesTyped h t (convert e target) :=
  .imp convert_yields fun _ _ _ hr => hr he

@[grind ←] theorem convert_quiet : Quiet h (convert e target) :=
  Yields.quiet fun _ => convert_yields

/-! ## Values -/

theorem checkValue_gives (he : t.IsTyped e) : GivesTyped h t (checkValue e) := by
  refine .ask fun p _ => ?_
  have hrefused : GivesTyped h t (do fail (← span e) (.noValue (← text e))) :=
    .ask fun _ _ => .ask fun _ _ => fail_gives
  split
  · exact hrefused
  · exact hrefused
  · exact hrefused
  · exact .pure he

theorem toValue_gives (he : t.IsTyped e) : GivesTyped h t (toValue e sc) := by
  refine .tables fun p _ => ?_
  split
  · exact .pure he
  split
  · split
    · exact made_gives
    split
    · exact typed_gives rfl
    · exact checkValue_gives he
  · split
    · exact made_gives
    · exact checkValue_gives he
  · exact checkValue_gives he

theorem value_gives : GivesTyped h t (value e sc) :=
  .bind analyseExpr_gives fun _ _ _ he => toValue_gives he

@[grind ←] theorem value_quiet : Quiet h (value e sc) := Yields.quiet fun _ => value_gives

theorem ExprTable.AllTyped.cons {v : ExprId} {r : Except ExprId (List ExprId)} (hr : t.AllTyped r)
    (hv : t.IsTyped v) : t.AllTyped (r.map (v :: ·)) := by
  cases r with
  | error fault => exact hr
  | ok vs => exact forall_mem_cons.mpr ⟨hv, hr⟩

theorem values_yields (es : List ExprId) :
    Yields h t (values sc es) fun u r => u.AllTyped r ∧ (r = .ok [] → es = []) := by
  induction es generalizing t with
  | nil => exact .pure ⟨nofun, fun _ => rfl⟩
  | cons e es ih =>
    refine .bind value_gives fun v u _ hv => .unlessError (.pure ⟨hv, by simp⟩) ?_
    refine .bind ih fun r w huw hr => .pure ⟨hr.1.cons (huw.typed hv), ?_⟩
    cases r <;> rintro ⟨⟩

theorem condition_gives : GivesTyped h t (condition e sc) := by
  refine .bind value_gives fun v u _ hv => .unlessError (.pure hv) (.tables fun p _ => ?_)
  split
  · exact fail_gives
  dsimp only
  split
  · exact .pure hv
  · exact fail_gives

@[grind ←] theorem condition_quiet : Quiet h (condition e sc) :=
  Yields.quiet fun _ => condition_gives

theorem modifiable_gives (he : t.IsTyped e) : GivesTyped h t (modifiable e) := by
  refine .tables fun p _ => ?_
  split
  · exact .pure he
  split
  · exact fail_gives
  split
  · split
    · exact fail_gives
    · exact .pure he
  · exact .pure he

@[grind ←] theorem modifiable_quiet : Quiet h (modifiable e) := by
  grind [modifiable]

@[grind ←] theorem refuseArrayOperation_quiet : Quiet h (refuseArrayOperation e) := by
  grind [refuseArrayOperation]

theorem operatorCall_yields {base : ExprId} : MayGive h t (operatorCall e base name args sc) := by
  refine .tables fun p _ => ?_
  split
  · exact .none
  · exact .after addExpr_quiet fun _ _ _ => .after addExpr_quiet fun _ _ _ =>
      some_yields analyseExpr_gives

/-! ## Literals -/

theorem convertAll_yields (es : List ExprId) (hes : ∀ e ∈ es, t.IsTyped e) :
    Yields h t (convertAll target es) fun u r => u.AllTyped r := by
  induction es generalizing t with
  | nil => exact .pure nofun
  | cons e es ih =>
    refine .bind (convert_gives (hes e mem_cons_self)) fun v u htu hv => ?_
    refine .unlessError (.pure hv) ?_
    refine .bind (ih fun c hc => htu.typed (hes c (mem_cons_of_mem e hc))) fun r w huw hr => ?_
    exact .pure (hr.cons (huw.typed hv))

theorem arrayLiteral_gives (hk : t.kind e = .array elems) :
    GivesTyped h t (arrayLiteral e elems sc) := by
  have hplain : (t.kind e).isPlain := by
    rw [hk]
    rfl
  cases elems with
  | nil =>
    -- Nothing was analysed, so the entry is still an array literal when it gets its type.
    refine .bind (x := intern (.dynArray (.ofScalar .void))) intern_yields fun type u _ hu => ?_
    subst hu
    exact setType_gives hplain
  | cons elem elems =>
    refine .bind (values_yields (elem :: elems)) fun r u htu hr => ?_
    rcases r with fault | _ | ⟨first, rest⟩
    · exact .pure hr.1
    · cases hr.2 rfl
    refine .tables fun p _ => ?_
    split
    · exact fail_gives
    refine .bind (convertAll_yields (first :: rest) hr.1) fun r v huv hr => ?_
    cases r with
    | error fault => exact .pure hr
    | ok vs =>
      refine .after intern_quiet fun type w hvw => settle_gives ?_ rfl
      exact (htu.trans (huv.trans hvw)).proper (.of_plain hplain)

theorem fieldValues_yields (fields : List (ExprId × SymbolId)) :
    Yields h t (fieldValues sc fields) fun u r => u.AllTyped r := by
  induction fields generalizing t with
  | nil => exact .pure nofun
  | cons f fields ih =>
    refine .bind value_gives fun v u _ hv => .ask fun p _ => ?_
    refine .bind (convert_gives hv) fun c w _ hc => .unlessError (.pure hc) ?_
    exact .bind ih fun r x hwx hr => .pure (hr.cons (hwx.typed hc))

theorem structValue_gives {s : SymbolId} (he : t.Proper e) :
    GivesTyped h t (structValue e s elems sc) := by
  refine .ask fun p _ => .ask fun p _ => ?_
  split
  · exact fail_gives
  split
  · exact fail_gives
  refine .bind (fieldValues_yields _) fun r u htu hr => ?_
  cases r with
  | error fault => exact .pure hr
  | ok vs => exact settle_gives (htu.proper he) rfl

/-! ## Casts -/

theorem castByCall_yields : MayGive h t (castByCall e operand target sc) := by
  refine .tables fun p _ => ?_
  dsimp only
  split
  · exact .none
  refine .bind (typed_gives rfl) fun callee u _ _ => ?_
  refine .after addExpr_quiet fun call v _ => ?_
  refine .bind (.gagged analyseExpr_gives) fun r w _ hr => ?_
  split
  · exact .none
  refine .ask fun p _ => .pure ?_
  split
  · simp
  · rintro _ ⟨⟩
    exact hr

theorem castValue_gives (he : t.Proper e) (ho : t.IsTyped operand) :
    GivesTyped h t (castValue e operand target) := by
  refine .tables fun p _ => .after sizeOf_quiet fun _ u htu => ?_
  refine .after sizeOf_quiet fun _ v huv => ?_
  have htv := htu.trans huv
  split
  · refine .bind castTo_yields fun r w hvw hr => ?_
    split
    · exact settle_gives (hvw.proper (htv.proper he)) rfl
    · exact .pure (hr (htv.typed ho))
  · exact fail_gives

theorem castExpr_gives (he : t.Proper e) : GivesTyped h t (castExpr e operand target sc) := by
  refine .ask fun p _ => .bind value_gives fun v u htu hv => .unlessError (.pure hv) ?_
  refine .after (Alone.quiet resolveType_alone) fun type w huw => .ask fun p _ => ?_
  have he := (htu.trans huw).proper he
  split
  · exact errorExpr_gives
  refine .ask fun p _ => ?_
  split
  · exact settle_gives he rfl
  refine .bind castByCall_yields fun call x hwx hcall => ?_
  cases call with
  | some call => exact .pure (hcall call rfl)
  | none => exact castValue_gives (hwx.proper he) ((huw.trans hwx).typed hv)

/-! ## Attempts -/

@[grind ←] theorem trial_quiet : Quiet h (trial e sc) := by
  refine fun t => .bind analyseExpr_gives fun r u _ hr => .kind ?_
  split
  · exact .pure trivial
  · exact (toValue_gives hr).imp fun _ _ _ _ => trivial

@[grind ←] theorem prepareTrial_quiet : Quiet h (prepareTrial sc arg) := by
  grind [prepareTrial]

@[grind ←] theorem attempt_quiet : Quiet h (attempt sc arg) := by
  grind [attempt]

@[grind ←] theorem attemptAll_quiet : Quiet h (attemptAll sc args) := by
  induction args with
  | nil => exact .pure
  | cons arg args ih => exact .bind attempt_quiet fun _ => .whenever ih .pure

theorem compiles_gives : GivesTyped h t (compiles e args sc) := by
  refine .ask fun p _ => ?_
  split
  · exact .after .pure fun _ _ _ => integer_gives
  · exact .after attemptAll_quiet fun _ _ _ => integer_gives

/-! ## Names -/

variable {base : ExprId} {s : SymbolId} {type : TypeId}

theorem thisExpr_gives (he : t.Proper e) : GivesTyped h t (thisExpr e sc) := by
  refine .tables fun p _ => ?_
  split
  · exact fail_gives
  · exact settle_gives he rfl

theorem superExpr_gives (he : t.Proper e) : GivesTyped h t (superExpr e sc) := by
  refine .tables fun p _ => ?_
  dsimp only
  split
  · exact fail_gives
  split
  · exact fail_gives
  · exact .bind (typed_gives rfl) fun _ _ htu _ => settle_gives (htu.proper he) rfl

/-! ## Symbols -/

theorem memberOfThis_gives (he : t.Proper e) : GivesTyped h t (memberOfThis e s type sc) := by
  refine .ask fun _ _ => .bind addExpr_yields fun this u htu hthis => ?_
  refine .bind (thisExpr_gives (.of_kind hthis rfl)) fun this v huv hr => ?_
  refine .unlessError (.pure hr) ?_
  exact settle_gives ((htu.trans huv).proper he) rfl

@[grind ←] theorem noteNestedUse_quiet : Quiet h (noteNestedUse s sc) := by
  grind [noteNestedUse]

theorem isTyped_manifestValue {p : Tables} {v : Variable} {init : ExprId}
    (hinit : manifestValue? p v = some init) : p.exprs.IsTyped init := by
  simp only [manifestValue?, Option.bind_eq_bind, Option.bind_eq_some_iff] at hinit
  obtain ⟨value, -, hvalue⟩ := hinit
  split at hvalue
  · rename_i hcond
    cases hvalue
    exact (Bool.and_eq_true_iff.mp hcond).2
  · cases hvalue

section

variable (he : t.Proper e)
include he

theorem variableExpr_gives {v : Variable} : GivesTyped h t (variableExpr e s v sc) := by
  refine .tables fun p hp => ?_
  subst hp
  split
  · rename_i init hinit
    refine .bind copyExpr_yields fun copied u _ hcopied => ?_
    have htyped := hcopied (isTyped_manifestValue hinit)
    exact .bind (setSpan_yields htyped) fun _ _ _ hr => .pure hr
  · split
    · exact memberOfThis_gives he
    · exact .after noteNestedUse_quiet fun _ _ htu => settle_gives (htu.proper he) rfl

theorem functionExpr_gives {f : Function} : GivesTyped h t (functionExpr e s f sc) := by
  refine .ask fun _ _ => .after .request fun _ u htu => .ask fun _ _ => ?_
  split
  · exact memberOfThis_gives (htu.proper he)
  · exact settle_gives (htu.proper he) rfl

theorem symbolExpr_gives : GivesTyped h t (symbolExpr e s sc) := by
  refine .ask fun p _ => ?_
  split
  · refine .after copyExpr_quiet fun _ u htu => .bind analyseExpr_gives fun c v huv hc => ?_
    exact .unlessError (.pure hc) (settle_gives ((htu.trans huv).proper he) rfl)
  · exact variableExpr_gives he
  · exact functionExpr_gives he
  · exact settle_gives he rfl
  · exact settle_gives he rfl
  · exact settle_gives he rfl
  · exact settle_gives he rfl
  · exact settle_gives he rfl
  · exact settle_gives he rfl

theorem identifier_gives : GivesTyped h t (identifier e name sc) := by
  refine .tables fun p _ => ?_
  split
  · exact symbolExpr_gives he
  · exact .ask fun _ _ => .after undefinedIdentifier_quiet fun _ _ _ => errorExpr_gives

theorem dollar_gives : GivesTyped h t (dollar e sc) := by
  refine .tables fun p _ => ?_
  split
  · exact .after (.aside fun _ => rfl) fun _ _ htu => symbolExpr_gives (htu.proper he)
  · exact .ask fun _ _ => fail_gives

/-! ## Members -/

theorem memberExpr_gives {member : SymbolId} : GivesTyped h t (memberExpr e base member sc) := by
  refine .ask fun p _ => ?_
  split
  · split
    · exact symbolExpr_gives he
    · exact settle_gives he rfl
  · split
    · exact symbolExpr_gives he
    · exact .after .request fun _ _ htu => .ask fun _ _ =>
        settle_gives (htu.proper he) rfl
  · exact symbolExpr_gives he

end

theorem initialValue_yields {place : Span} : MayGive h t (initialValue type place) := by
  refine .ask fun p _ => ?_
  have hnull : Yields h t (do
      let null ← typed .null place .null
      return some (← typed (.cast null type) place type)) fun u r => ∀ c ∈ r, u.IsTyped c :=
    .bind (typed_gives rfl) fun _ _ _ _ => some_yields (typed_gives rfl)
  split
  · split
    · exact some_yields integer_gives
    split
    · exact some_yields (typed_gives rfl)
    · exact .none
  · exact hnull
  · exact hnull
  · exact hnull
  · exact hnull
  · exact hnull
  · exact .none

section

variable (he : t.Proper e)
include he

theorem typeMember_gives : GivesTyped h t (typeMember e type name sc) := by
  refine .tables fun p _ => ?_
  split
  · exact symbolExpr_gives he
  · exact fail_gives

theorem typeProperty_gives : GivesTyped h t (typeProperty e type name sc) := by
  refine .ask fun p _ => ?_
  split
  · exact .after sizeOf_quiet fun _ _ _ => .ask fun _ _ => integer_gives
  split
  · refine .bind initialValue_yields fun init u htu hinit => ?_
    cases init with
    | some init => exact .pure (hinit init rfl)
    | none => exact typeMember_gives (htu.proper he)
  · exact typeMember_gives he

theorem moduleMember_gives : GivesTyped h t (moduleMember e s name sc) := by
  refine .tables fun p _ => ?_
  dsimp only
  split
  · exact symbolExpr_gives he
  · exact fail_gives

theorem valueMember_gives : GivesTyped h t (valueMember e base name sc) := by
  refine .tables fun p _ => ?_
  extract_lets place rest
  have hrest {u : ExprTable} (base : ExprId) (htu : t.Forward u) : GivesTyped h u (rest base) := by
    refine .ask fun _ _ => ?_
    split
    · exact memberExpr_gives (htu.proper he)
    · exact .ask fun _ _ => .ask fun _ _ => fail_gives
  split
  · split
    · exact .bind (typed_gives rfl) fun base _ htu _ => hrest base htu
    · exact .given (hrest base .refl)
  · exact .given (hrest base .refl)

theorem valueProperty_gives : GivesTyped h t (valueProperty e base name sc) := by
  refine .tables fun p _ => ?_
  have hpointer (elem : TypeId) : GivesTyped h t (do
      let pointer ← intern (.pointer elem)
      settle e (.cast base pointer) pointer) :=
    .after intern_quiet fun _ _ htu => settle_gives (htu.proper he) rfl
  split
  · exact .ask fun _ _ => integer_gives
  · exact .ask fun _ _ => settle_gives he rfl
  · exact hpointer _
  · exact hpointer _
  · exact .after sizeOf_quiet fun _ _ _ => .ask fun _ _ => integer_gives
  · exact valueMember_gives he

theorem dot_gives : GivesTyped h t (dot e base name sc) := by
  refine .bind analyseExpr_gives fun b u htu hb => .unlessError (.pure hb) (.kind ?_)
  split
  · exact typeProperty_gives (htu.proper he)
  · exact moduleMember_gives (htu.proper he)
  · refine .bind (toValue_gives hb) fun v w huw hv => .unlessError (.pure hv) ?_
    exact valueProperty_gives ((htu.trans huw).proper he)

theorem knownMember_gives : GivesTyped h t (knownMember e base s sc) :=
  .bind analyseExpr_gives fun _ _ htu hb =>
    .unlessError (.pure hb) (memberExpr_gives (htu.proper he))

theorem arrayLength_gives {operand : ExprId} : GivesTyped h t (arrayLength e operand sc) :=
  .bind analyseExpr_gives fun _ _ htu ho =>
    .unlessError (.pure ho) (.ask fun _ _ => settle_gives (htu.proper he) rfl)

end

/-! ## Indices and slices -/

variable {tuple : ExprId} {es : List ExprId} {lower upper : Option ExprId}

@[grind ←] theorem lengthScope_quiet : Quiet h (lengthScope base sc) := by
  refine .bind .tables fun p => .bind .ask fun size => .bind pushScope_quiet fun inner => ?_
  have hinteger (value : UInt64) : Quiet h (integer value size (p.exprs.span base)) :=
    Yields.quiet fun _ => integer_gives
  have hlength : Quiet h (typed (.length base) (p.exprs.span base) size) :=
    Yields.quiet fun _ => typed_gives rfl
  extract_lets rest
  have hrest (length : ExprId × StorageClass) : Quiet h (rest length) :=
    .bind declareTemp_quiet fun _ => .bind noteVar_quiet fun _ => .pure
  split
  · exact .bind (hinteger _) fun _ => .bind .pure hrest
  · exact .bind (hinteger _) fun _ => .bind .pure hrest
  · exact .bind hlength fun _ => .bind .pure hrest

@[grind ←] theorem usedLength_quiet {var : SymbolId} : Quiet h (usedLength var) := by
  grind [usedLength]

/-! ## Tuples -/

theorem isTyped_expandTuplesWithin {p : Tables} (hp : p.exprs.Coherent) (depth : Nat)
    (hes : ∀ e ∈ es, p.exprs.IsTyped e) :
    ∀ e ∈ expandTuplesWithin p depth es, p.exprs.IsTyped e := by
  induction depth generalizing es with
  | zero => exact hes
  | succ depth ih =>
    intro e he
    obtain ⟨c, hc, he⟩ := mem_flatMap.mp he
    split at he
    · exact ih (hp.elems (hes c hc) ‹_›) e he
    · rw [mem_singleton.mp he]
      exact hes c hc

theorem settle_tuple_gives (he : t.Proper e) (hes : ∀ c ∈ es, t.IsTyped c) :
    GivesTyped h t (do settle e (.tuple es) (← tupleType es)) := by
  refine .after (.bind .tables fun _ => intern_quiet) fun type u htu => ?_
  refine settle_coherent (htu.proper he) ?_ rfl
  rintro _ ⟨⟩ c hc
  exact htu.typed (hes c hc)

theorem tupleExpr_gives (he : t.Proper e) : GivesTyped h t (tupleExpr e elems sc) := by
  refine .bind (values_yields elems) fun r u htu hr => ?_
  cases r with
  | error fault => exact .pure hr.1
  | ok vs =>
    refine .intro fun hu => .ask fun p hp => ?_
    subst hp
    exact settle_tuple_gives (htu.proper he) (isTyped_expandTuplesWithin hu _ hr.1)

@[grind ←] theorem tupleBound_quiet {bound : ExprId} : Quiet h (tupleBound bound sc) := by
  refine .bind value_quiet fun v => .bind .ask fun failed => ?_
  grind

theorem tupleIndex_gives {index : ExprId} (helems : ∀ c ∈ elems, t.IsTyped c) :
    GivesTyped h t (tupleIndex e tuple elems index sc) := by
  refine .ask fun p _ => .after lengthScope_quiet fun scope u htu => ?_
  refine .after tupleBound_quiet fun n v huv => ?_
  cases n with
  | none => exact errorExpr_gives
  | some n =>
    dsimp only
    split
    · rename_i elem helem
      exact .pure ((htu.trans huv).typed (helems elem (mem_of_getElem? helem)))
    · exact fail_gives

@[grind ←] theorem tupleBounds_quiet {length : Nat} :
    Quiet h (tupleBounds tuple length lower upper sc) := by
  unfold tupleBounds
  grind

theorem tupleSlice_gives (he : t.Proper e) (helems : ∀ c ∈ elems, t.IsTyped c) :
    GivesTyped h t (tupleSlice e tuple elems lower upper sc) := by
  refine .ask fun p _ => .after tupleBounds_quiet fun bounds u htu => ?_
  cases bounds with
  | none => exact errorExpr_gives
  | some bounds =>
    dsimp only
    split
    · exact fail_gives
    · refine settle_tuple_gives (htu.proper he) fun c hc => htu.typed (helems c ?_)
      exact mem_of_mem_take (mem_of_mem_drop hc)

/-! ## Slices -/

theorem bound_gives : GivesTyped h t (bound e sc) :=
  .bind value_gives fun _ _ _ hv => .ask fun _ _ => convert_gives hv

theorem boundedSlice_gives {lower upper : ExprId} {elem : TypeId} (he : t.Proper e) :
    GivesTyped h t (boundedSlice e base lower upper elem sc) := by
  refine .ask fun p _ => ?_
  extract_lets rest
  have hrest {u : ExprTable} (htu : t.Forward u) (found : ScopeId × Option SymbolId) :
      GivesTyped h u (rest found) := by
    refine .bind bound_gives fun lower v huv hlower => ?_
    refine .bind bound_gives fun upper w hvw hupper => ?_
    refine .unlessError (.pure (hvw.typed hlower)) (.unlessError (.pure hupper) ?_)
    extract_lets finish
    have hfinish {x : ExprTable} (hwx : w.Forward x) (var : Option SymbolId) :
        GivesTyped h x (finish var) := by
      refine .ask fun p _ => ?_
      split
      · exact .ask fun _ _ => fail_gives
      · refine .after intern_quiet fun type y hxy => settle_gives ?_ rfl
        exact (htu.trans (huv.trans (hvw.trans (hwx.trans hxy)))).proper he
    split
    · exact .after usedLength_quiet fun var x hwx => hfinish hwx var
    · exact .given (hfinish .refl none)
  split
  · exact .given (hrest .refl (sc, none))
  · exact .after lengthScope_quiet fun found u htu => .given (hrest htu (found.1, some found.2))

theorem slice_gives (he : t.Proper e) : GivesTyped h t (slice e base lower upper sc) := by
  refine .bind value_gives fun v u htu hv => .unlessError (.pure hv) (.kind ?_)
  split
  · rename_i elems hk
    exact .intro fun hu => tupleSlice_gives (htu.proper he) (hu.elems hv hk)
  refine .bind operatorCall_yields fun call w huw hcall => ?_
  have he := (htu.trans huw).proper he
  cases call with
  | some call => exact .pure (hcall call rfl)
  | none =>
    refine .ask fun p _ => ?_
    split
    · exact .ask fun _ _ => fail_gives
    split
    · exact boundedSlice_gives he
    · exact .after intern_quiet fun _ _ hwx => settle_gives (hwx.proper he) rfl

/-! ## Indices -/

theorem arrayIndex_gives {index : ExprId} {elem : TypeId} (he : t.Proper e) :
    GivesTyped h t (arrayIndex e base index elem sc) := by
  refine .after lengthScope_quiet fun inner u htu => ?_
  refine .bind bound_gives fun i v huv hi => .unlessError (.pure hi) (.tables fun p _ => ?_)
  dsimp only
  split
  · exact fail_gives
  · refine .after usedLength_quiet fun var w hvw => settle_gives ?_ rfl
    exact (htu.trans (huv.trans hvw)).proper he

theorem index_gives {place : ExprId} (he : t.Proper e) :
    GivesTyped h t (index e base place sc) := by
  refine .bind value_gives fun v u htu hv => .unlessError (.pure hv) (.kind ?_)
  split
  · rename_i elems hk
    exact .intro fun hu => tupleIndex_gives (hu.elems hv hk)
  refine .bind operatorCall_yields fun call w huw hcall => ?_
  have he := (htu.trans huw).proper he
  cases call with
  | some call => exact .pure (hcall call rfl)
  | none =>
    refine .tables fun p _ => ?_
    dsimp only
    split
    · refine .bind value_gives fun i x hwx hi => .bind (convert_gives hi) fun c y hxy hc => ?_
      exact .unlessError (.pure hc) (settle_gives ((hwx.trans hxy).proper he) rfl)
    · refine .bind bound_gives fun i x hwx hi => ?_
      exact .unlessError (.pure hi) (settle_gives (hwx.proper he) rfl)
    · exact arrayIndex_gives he
    · exact arrayIndex_gives he
    · exact fail_gives

end DCompiler
