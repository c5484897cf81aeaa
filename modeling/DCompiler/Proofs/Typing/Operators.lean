import DCompiler.Proofs.Typing.Values

/-!
# Types of operators and assignments

An operator gives a call, an error expression, or the entry it stands in, which gets its type. A few
operators give the entry its type without replacing it: it was made an operator on the analysed
operands just before, so it is no tuple.

An assignment to a tuple becomes the tuple of the assignments to its elements, which have types by
then. An array operation gives its entry a type first and a call afterwards.
-/

namespace DCompiler

open Analyse

variable {h : Analyser} {t : ExprTable}
variable {e lhs rhs operand : ExprId} {sc : ScopeId} {op : BinaryOp}

theorem incompatible_gives {op : String} : GivesTyped h t (incompatible e op lhs rhs) :=
  .tables fun _ _ => fail_gives

/-! ## Arrays and members -/

theorem arrayOperation_gives {array : TypeId} (hk : (t.kind e).isPlain) :
    GivesTyped h t (arrayOperation e array) := by
  refine .ask fun _ _ => .ask fun _ _ => .ask fun _ _ => ?_
  split
  · exact fail_gives
  refine .bind intern_yields fun type u _ hu => ?_
  subst hu
  refine .bind (setType_gives hk) fun r v _ hr => .ask fun _ _ => ?_
  split
  · exact .pure hr
  · exact .ask fun _ _ => fail_gives

theorem spelledOperatorCall_gives {base : ExprId} {name spelling : String} {args : List ExprId} :
    GivesTyped h t (spelledOperatorCall e base name spelling args sc) :=
  .ask fun _ _ => .after addExpr_quiet fun _ _ _ => .after addExpr_quiet fun _ _ _ =>
    made_gives

theorem binaryMember_yields :
    Yields h t (binaryMember e op lhs rhs sc) fun u r =>
      (∀ c ∈ r, u.IsTyped c) ∧ (r = none → u = t) := by
  refine .tables fun p _ => ?_
  split
  · split
    · refine .bind spelledOperatorCall_gives fun r u _ hr => .pure ⟨?_, by simp⟩
      rintro _ ⟨⟩
      exact hr
    · exact .pure ⟨by simp, fun _ => rfl⟩
  · exact .pure ⟨by simp, fun _ => rfl⟩

/-! ## Comparisons and arithmetic -/

theorem settle_binary_gives {lt rt type : TypeId} (he : t.Proper e) : GivesTyped h t (do
      let lhs ← castTo lhs lt
      let rhs ← castTo rhs rt
      settle e (.binary op lhs rhs) type) :=
  .bind castTo_yields fun _ _ htu _ => .bind castTo_yields fun _ _ huv _ =>
    settle_gives ((htu.trans huv).proper he) rfl

theorem comparison_gives (hk : (t.kind e).isPlain) : GivesTyped h t (comparison e op lhs rhs) := by
  refine .tables fun p _ => ?_
  split
  · split
    · exact incompatible_gives
    · exact settle_binary_gives (.of_plain hk)
  split
  · exact setType_gives hk
  · exact incompatible_gives

theorem scaleIndex_yields {index : ExprId} {elem : TypeId} :
    Yields h t (scaleIndex index elem) fun u r => t.IsTyped index → u.IsTyped r := by
  refine .ask fun _ _ => .bind castTo_yields fun i u _ hi => ?_
  refine .after sizeOf_quiet fun size v huv => ?_
  split
  · exact .pure fun hindex => huv.typed (hi hindex)
  refine .ask fun _ _ => .ask fun _ _ => ?_
  split
  · exact .imp integer_gives fun _ _ _ hr _ => hr
  · exact .bind integer_gives fun _ _ _ _ => .imp (typed_gives rfl) fun _ _ _ hr _ => hr

theorem pointerDifference_gives {elem : TypeId} (he : t.Proper e) :
    GivesTyped h t (pointerDifference e lhs rhs elem) := by
  refine .ask fun _ _ => .ask fun _ _ => .bind (typed_gives rfl) fun difference u htu _ => ?_
  refine .after sizeOf_quiet fun size v huv => ?_
  have he := (htu.trans huv).proper he
  dsimp only
  split
  · exact settle_gives he rfl
  · exact .bind integer_gives fun _ _ hvw _ => settle_gives (hvw.proper he) rfl

theorem pointerArithmetic_yields (he : t.Proper e) :
    MayGive h t (pointerArithmetic e op lhs rhs) := by
  refine .tables fun p _ => ?_
  dsimp only
  split
  · split
    · split
      · exact some_yields (pointerDifference_gives he)
      · exact some_yields incompatible_gives
    · exact some_yields incompatible_gives
  · split
    · exact .bind scaleIndex_yields fun _ _ htu _ => some_yields (settle_gives (htu.proper he) rfl)
    · exact some_yields incompatible_gives
  · split
    · exact .bind scaleIndex_yields fun _ _ htu _ => some_yields (settle_gives (htu.proper he) rfl)
    · exact some_yields incompatible_gives
  · exact .none

theorem arithmetic_gives (he : t.Proper e) : GivesTyped h t (arithmetic e op lhs rhs) := by
  refine .tables fun p _ => ?_
  split
  · split
    · exact fail_gives
    split
    · exact .bind castTo_yields fun _ _ htu _ => settle_gives (htu.proper he) rfl
    split
    · exact incompatible_gives
    · exact settle_binary_gives he
  · exact incompatible_gives

theorem logical_gives (he : t.Proper e) : GivesTyped h t (logical e op lhs rhs sc) := by
  refine .bind condition_gives fun l u htu hl => .bind condition_gives fun r v huv hr => ?_
  refine .unlessError (.pure (huv.typed hl)) (.unlessError (.pure hr) ?_)
  exact settle_gives ((htu.trans huv).proper he) rfl

theorem plainBinary_gives (hk : (t.kind e).isPlain) :
    GivesTyped h t (plainBinary e op lhs rhs sc) := by
  refine .tables fun p _ => ?_
  split
  · exact logical_gives (.of_plain hk)
  split
  · exact comparison_gives hk
  split
  · exact arrayOperation_gives hk
  split
  · exact arrayOperation_gives hk
  split
  · refine .bind (pointerArithmetic_yields (.of_plain hk)) fun r u htu hr => ?_
    cases r with
    | some r => exact .pure (hr r rfl)
    | none => exact arithmetic_gives (htu.proper (.of_plain hk))
  · exact arithmetic_gives (.of_plain hk)

theorem binary_gives (he : t.Proper e) : GivesTyped h t (binary e op lhs rhs sc) := by
  refine .bind value_gives fun l u htu hl => .bind value_gives fun r v huv hr => ?_
  refine .unlessError (.pure (huv.typed hl)) (.unlessError (.pure hr) ?_)
  have he := (htu.trans huv).proper he
  refine .bind (setKind_yields he rfl) fun _ w hvw hkind => ?_
  refine .bind binaryMember_yields fun call x hwx hcall => ?_
  cases call with
  | some call => exact .pure (hcall.1 call rfl)
  | none =>
    rw [hcall.2 rfl]
    refine plainBinary_gives ?_
    rw [hkind]
    rfl

/-! ## Prefix operators -/

theorem foldedUnary_plain {op : UnaryOp} {s : Scalar} {k folded : Expr}
    (hfolded : foldedUnary op s k = some folded) : folded.isPlain := by
  revert hfolded
  fun_cases foldedUnary op s k <;> rintro ⟨⟩ <;> rfl

theorem scalarUnary_gives {op : UnaryOp} {s : Scalar} (he : t.Proper e) :
    GivesTyped h t (scalarUnary e op operand s) := by
  refine .bind castTo_yields fun o u htu _ => .kind (settle_gives (htu.proper he) ?_)
  cases hfolded : foldedUnary op s (u.kind o) with
  | none => rfl
  | some k => exact foldedUnary_plain hfolded

theorem negation_gives {op : UnaryOp} (hk : (t.kind e).isPlain) :
    GivesTyped h t (negation e op operand sc) := by
  refine .tables fun p _ => ?_
  dsimp only
  split
  · exact arrayOperation_gives hk
  split
  · exact spelledOperatorCall_gives
  split
  · exact fail_gives
  split
  · exact fail_gives
  · exact scalarUnary_gives (.of_plain hk)

theorem dereference_gives (hk : (t.kind e).isPlain) : GivesTyped h t (dereference e operand) := by
  refine .tables fun p _ => ?_
  dsimp only
  split
  · exact setType_gives hk
  · exact fail_gives

theorem addressOf_gives (he : t.Proper e) : GivesTyped h t (addressOf e operand) := by
  refine .tables fun p _ => ?_
  extract_lets type address place
  have haddress {u : ExprTable} (htu : t.Forward u) (k : TypeKind) : GivesTyped h u (address k) :=
    .after intern_quiet fun _ _ huv => settle_gives (huv.proper (htu.proper he)) rfl
  have hplace {u : ExprTable} (htu : t.Forward u) : GivesTyped h u place := by
    unfold place
    split
    · exact haddress htu _
    · exact fail_gives
  split
  · split
    · exact .after noteFunc_quiet fun _ _ htu => haddress htu _
    split
    · exact .after noteVar_quiet fun _ _ htu => hplace htu
    · exact hplace .refl
  · split
    · exact haddress .refl _
    · exact hplace .refl
  · exact hplace .refl

theorem unary_gives {op : UnaryOp} (he : t.Proper e) : GivesTyped h t (unary e op operand sc) := by
  refine .bind analyseExpr_gives fun o u htu ho => ?_
  split
  · exact .unlessError (.pure ho) (addressOf_gives (htu.proper he))
  refine .bind (toValue_gives ho) fun v w huw hv => .unlessError (.pure hv) ?_
  have he := (htu.trans huw).proper he
  refine .bind (setKind_yields he rfl) fun _ x hwx hkind => ?_
  have hk : (x.kind e).isPlain := by
    rw [hkind]
    rfl
  split
  · refine .bind condition_gives fun c y hxy hc => .unlessError (.pure hc) ?_
    exact settle_gives (hxy.proper (.of_plain hk)) rfl
  · exact dereference_gives hk
  · exact negation_gives hk

/-! ## Comma and choice -/

theorem comma_gives (he : t.Proper e) : GivesTyped h t (comma e lhs rhs sc) := by
  refine .bind analyseExpr_gives fun l u htu hl => .bind value_gives fun r v huv hr => ?_
  refine .unlessError (.pure (huv.typed hl)) (.unlessError (.pure hr) (.ask fun _ _ => ?_))
  exact settle_gives ((htu.trans huv).proper he) rfl

theorem cond_gives {test yes no : ExprId} (he : t.Proper e) :
    GivesTyped h t (cond e test yes no sc) := by
  refine .bind condition_gives fun c u htu hc => .bind value_gives fun y v huv hy => ?_
  refine .bind value_gives fun n w hvw hn => .unlessError (.pure ((huv.trans hvw).typed hc)) ?_
  refine .unlessError (.pure (hvw.typed hy)) (.unlessError (.pure hn) (.ask fun _ _ => ?_))
  split
  · exact incompatible_gives
  refine .after convert_quiet fun _ x hwx => .after convert_quiet fun _ z hxz => ?_
  have htz := htu.trans (huv.trans (hvw.trans (hwx.trans hxz)))
  exact settle_gives (htz.proper he) rfl

variable {place : Span} {op : AssignOp} {element : ExprId} {name : String} {params : List Param}

/-! ## Array operations -/

@[grind ←] theorem makeArrayOp_quiet {result : TypeId} :
    Quiet h (makeArrayOp name result params element place) := by
  refine .bind intern_quiet fun type => .bind (Alone.quiet arrayOpBody_alone) fun body => ?_
  refine .bind (globalScope_alone True).quiet fun scope => .bind .context fun c => ?_
  refine .bind addSymbol_quiet fun made => .bind (Alone.quiet addToModule_alone) fun _ => ?_
  refine .bind (.gagged (by grind)) fun r => ?_
  grind

@[grind ←] theorem buildArrayOp_quiet : Quiet h (buildArrayOp name e params) := by
  exact .bind .tables fun _ => .bind (Alone.quiet elementExpr_alone) fun _ => makeArrayOp_quiet

theorem arrayOp_gives : GivesTyped h t (arrayOp e) := by
  refine .tables fun p _ => ?_
  split
  · exact errorExpr_gives
  split
  · exact fail_gives
  refine .after .request fun entry u _ => ?_
  split
  · exact .ask fun _ _ => .ask fun _ _ => fail_gives
  · exact .ask fun _ _ => .bind (typed_gives rfl) fun _ _ _ _ => typed_gives rfl

/-! ## Assignments that become calls -/

theorem indexedAssign_yields : MayGive h t (indexedAssign e lhs rhs sc) := by
  refine .tables fun p hp => ?_
  subst hp
  extract_lets call
  have hcall (base : ExprId) (name : String) (extra : List ExprId) (withBase : ExprId → Expr)
      (hlhs : p.exprs.Proper lhs) (hbase : ∀ base, (withBase base).isPlain) :
      Yields h p.exprs (call base name extra withBase) fun u r => ∀ c ∈ r, u.IsTyped c := by
    unfold call
    split
    · exact .none
    refine .bind analyseExpr_gives fun b u hpu _ => .ask fun _ _ => ?_
    extract_lets rest
    have hrest (v : ExprTable) : Yields h v (rest ()) fun u r => ∀ c ∈ r, u.IsTyped c :=
      .unlessError (.none) operatorCall_yields
    split
    · exact .bind (setKind_yields (hpu.proper hlhs) (hbase b)) fun _ v _ _ => hrest v
    · exact hrest u
  split
  · rename_i hkind
    exact hcall _ _ _ _ (.of_kind hkind rfl) fun _ => rfl
  · rename_i hkind
    exact hcall _ _ _ _ (.of_kind hkind rfl) fun _ => rfl
  · exact .none

theorem propertyAssign_yields : MayGive h t (propertyAssign e lhs rhs sc) := by
  refine .tables fun p _ => ?_
  have hcall (s : SymbolId) : Yields h t
      (if p.isFunction s = true then do
        return some (← analyseExpr (← addExpr (.call lhs [rhs]) (p.exprs.span e)) sc)
      else return none) fun u r => ∀ c ∈ r, u.IsTyped c := by
    split
    · exact .after addExpr_quiet fun _ _ _ => some_yields analyseExpr_gives
    · exact .none
  split
  · exact hcall _
  · exact hcall _
  · exact .none

theorem compoundMember_yields : MayGive h t (compoundMember e op lhs rhs sc) := by
  unfold compoundMember
  split
  · exact .none
  refine .ask fun _ _ => ?_
  split
  · exact .ask fun _ _ => .after addExpr_quiet fun _ _ _ => operatorCall_yields
  · exact .none

/-! ## Tuples -/

theorem assignParts_yields (parts : List (ExprId × ExprId)) :
    Yields h t (assignParts op place sc parts) fun u r => u.AllTyped r := by
  induction parts generalizing t with
  | nil => exact .pure nofun
  | cons part parts ih =>
    refine .after addExpr_quiet fun _ u _ => .bind analyseExpr_gives fun r v _ hr => ?_
    refine .unlessError (.pure hr) (.bind ih fun rs w hvw hrs => .pure ?_)
    exact hrs.cons (hvw.typed hr)

theorem tupleAssign_gives {targets sources : List ExprId} (he : t.Proper e) :
    GivesTyped h t (tupleAssign e op targets sources sc) := by
  refine .ask fun _ _ => ?_
  split
  · exact fail_gives
  refine .bind (assignParts_yields _) fun r u htu hr => ?_
  cases r with
  | error fault => exact .pure hr
  | ok parts =>
    refine .tables fun p _ => .after intern_quiet fun type v huv => ?_
    refine settle_coherent ((htu.trans huv).proper he) ?_ rfl
    rintro _ ⟨⟩ c hc
    exact huv.typed (hr c hc)

/-! ## Values -/

theorem sliceAssign_gives (hk : (t.kind e).isPlain) (hr : t.IsTyped rhs) :
    GivesTyped h t (sliceAssign e op lhs rhs) := by
  refine .tables fun p _ => ?_
  extract_lets type store
  have hstore (target : TypeId) (fill : Bool) : GivesTyped h t (store target fill) :=
    .bind (convert_gives hr) fun _ _ htu hc =>
      .unlessError (.pure hc) (settle_gives (htu.proper (.of_plain hk)) rfl)
  have hoperation : GivesTyped h t (do arrayOp (← setType e type)) :=
    .bind (setType_gives hk) fun _ _ _ _ => arrayOp_gives
  split
  · split
    · exact hoperation
    · exact fail_gives
  split
  · exact hoperation
  split
  · exact hstore _ _
  · exact hstore _ _

theorem compoundOperand_yields {op : BinaryOp} (hr : t.IsTyped rhs) :
    MayGive h t (compoundOperand e op lhs rhs) := by
  refine .tables fun p _ => ?_
  extract_lets place t1 t2 arithmetic
  have harithmetic : Yields h t arithmetic fun u r => ∀ c ∈ r, u.IsTyped c := by
    unfold arithmetic
    split
    · split
      · exact .after .error fun _ _ _ => .none
      split
      · exact some_yields (.pure hr)
      split
      · exact .none
      · exact some_yields (.imp castTo_yields fun _ _ _ hc => hc hr)
    · exact .after .error fun _ _ _ => .none
  split
  · split
    · exact some_yields (.imp scaleIndex_yields fun _ _ _ hc => hc hr)
    · exact harithmetic
  · exact harithmetic

theorem scalarAssign_gives (he : t.Proper e) (hl : t.IsTyped lhs) (hr : t.IsTyped rhs) :
    GivesTyped h t (scalarAssign e op lhs rhs) := by
  refine .ask fun _ _ => .bind (modifiable_gives hl) fun l u htu hl => .unlessError (.pure hl) ?_
  have hr := htu.typed hr
  extract_lets rest
  have hrest {v : ExprTable} (r : Option ExprId) (huv : u.Forward v) (hr : ∀ c ∈ r, v.IsTyped c) :
      GivesTyped h v (rest r) := by
    cases r with
    | none => exact .ask fun _ _ => errorExpr_gives
    | some r =>
      exact .unlessError (.pure (hr r rfl)) (settle_gives ((htu.trans huv).proper he) rfl)
  split
  · refine .bind (convert_gives hr) fun c v huv hc => .given (hrest (some c) huv ?_)
    rintro _ ⟨⟩
    exact hc
  · exact .bind (compoundOperand_yields hr) fun r v huv hr => hrest r huv hr

theorem assignValue_gives (he : t.Proper e) (hl : t.IsTyped lhs) (hr : t.IsTyped rhs) :
    GivesTyped h t (assignValue e op lhs rhs sc) := by
  refine .bind (setKind_yields he rfl) fun _ u htu hkind => .tables fun p _ => ?_
  have hk : (u.kind e).isPlain := by
    rw [hkind]
    rfl
  have he := htu.proper he
  have hr := htu.typed hr
  split
  · exact tupleAssign_gives he
  · exact sliceAssign_gives hk hr
  · exact .ask fun _ _ => .after convert_quiet fun _ _ huv =>
      settle_gives (huv.proper he) rfl
  dsimp only
  split
  · exact fail_gives
  refine .bind compoundMember_yields fun call v huv hcall => ?_
  cases call with
  | some call => exact .pure (hcall call rfl)
  | none => exact scalarAssign_gives (huv.proper he) ((htu.trans huv).typed hl) (huv.typed hr)

theorem simpleAssign_gives (he : t.Proper e) : GivesTyped h t (simpleAssign e op lhs rhs sc) := by
  unfold simpleAssign
  extract_lets rest
  have hrest {u : ExprTable} (call : Option ExprId) (htu : t.Forward u)
      (hcall : ∀ c ∈ call, u.IsTyped c) : GivesTyped h u (rest call) := by
    cases call with
    | some call => exact .pure (hcall call rfl)
    | none =>
      refine .bind analyseExpr_gives fun l v huv hl => .unlessError (.pure hl) ?_
      extract_lets finish
      have hfinish {w : ExprTable} (call : Option ExprId) (hvw : v.Forward w)
          (hcall : ∀ c ∈ call, w.IsTyped c) : GivesTyped h w (finish call) := by
        cases call with
        | some call => exact .pure (hcall call rfl)
        | none =>
          refine .bind (checkValue_gives (hvw.typed hl)) fun l x hwx hl => ?_
          refine .bind value_gives fun r y hxy hr => ?_
          refine .unlessError (.pure (hxy.typed hl)) (.unlessError (.pure hr) ?_)
          have hty := htu.trans (huv.trans (hvw.trans (hwx.trans hxy)))
          exact assignValue_gives (hty.proper he) (hxy.typed hl) hr
      split
      · exact .bind propertyAssign_yields fun call _ hvw hcall => hfinish call hvw hcall
      · exact .given (hfinish none .refl (by simp))
  split
  · exact .bind indexedAssign_yields fun call _ htu hcall => hrest call htu hcall
  · exact .given (hrest none .refl (by simp))

theorem assign_gives (he : t.Proper e) : GivesTyped h t (assign e op lhs rhs sc) := by
  refine .tables fun p _ => ?_
  split
  · exact .after addExpr_quiet fun _ _ _ => made_gives
  · exact simpleAssign_gives he

end DCompiler
