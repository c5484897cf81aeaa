import DCompiler.Proofs.Typing.Values

/-!
# Types of calls

Variables, functions, statements and modules do nothing to expressions but analyse them, convert
them and add new ones without a type. So none of their rules does harm, and neither do the passes
over a function (`Pass.parts_exprs`).

A call gives the entry it stands in, which gets the type of the result, another call that is
analysed in its place, or an error expression. Its arguments need no types of their own for that.
-/

namespace DCompiler

open Analyse

variable {h : Analyser}
variable {sc : ScopeId} {place : Span} {type result : TypeId} {init : Option ExprId}
  {d : FunctionDecl} {name : String} {f : Function} {sig : Signature} {symbol : SymbolId}
  {item : PendingItem} {param : Param} {storage : StorageClass} {parent : SymbolId}

@[grind ←] theorem declScope_quiet : Quiet h (declScope symbol) := Alone.quiet declScope_alone

/-! ## Variables -/

@[grind ←] theorem initializer_quiet {init : ExprId} : Quiet h (initializer init sc place) := by
  grind [initializer]

@[grind ←] theorem storeVariable_quiet : Quiet h (storeVariable symbol type init) := by
  grind [storeVariable]

@[grind ←] theorem initVariable_quiet {type : Option TypeId} :
    Quiet h (initVariable symbol type init sc) := by
  refine .bind .tables fun p => ?_
  extract_lets place store
  have hstore (found : TypeId × Option ExprId) : Quiet h (store found) := by grind
  clear_value store
  refine .bind (.option (fun _ => resolveType_quiet) type) fun declared => ?_
  grind

/-! ## Functions -/

@[grind ←] theorem declareFunction_quiet {parent outer : Option SymbolId} :
    Quiet h (declareFunction d sc parent outer) := by
  grind [declareFunction]

@[grind ←] theorem declareTemplate_quiet {parent : Option SymbolId} :
    Quiet h (declareTemplate d sc parent) := by
  grind [declareTemplate]

@[grind ←] theorem defaultArgument_quiet : Quiet h (defaultArgument sc param) := by
  grind [defaultArgument]

@[grind ←] theorem defaultArguments_quiet : Quiet h (defaultArguments symbol sig) := by
  grind [defaultArguments]

@[grind ←] theorem declareThis_quiet : Quiet h (declareThis symbol storage sc place) := by
  grind [declareThis]

@[grind ←] theorem declareParameter_quiet :
    Quiet h (declareParameter symbol sc place name param) := by
  grind [declareParameter]

/-! ## Contracts and bodies -/

@[grind ←] theorem mergeRequires_quiet {requires : List StmtId} :
    Quiet h (mergeRequires requires place) := by
  grind [mergeRequires]

@[grind ←] theorem ensureBlock_quiet {d : EnsureDecl} : Quiet h (ensureBlock result place d) := by
  grind [ensureBlock]

@[grind ←] theorem mergeEnsures_quiet {ensures : List EnsureDecl} :
    Quiet h (mergeEnsures ensures result place) := by
  grind [mergeEnsures]

@[grind ←] theorem analysed_quiet : Quiet h (do
    analyseSignature symbol
    analyseBody symbol
    return symbol) := by
  grind []

@[grind ←] theorem contractFunction_quiet {outer : SymbolId} {result : Option TypeId}
    {conditions : StmtId} : Quiet h (contractFunction outer name result sc place conditions) := by
  grind [contractFunction]

@[grind ←] theorem contracts_quiet {isVirtual : Bool} {requires ensures : Option StmtId}
    {result : Option TypeId} :
    Quiet h (contracts symbol isVirtual requires ensures result sc place) := by
  grind [contracts]

@[grind ←] theorem openBody_quiet {returnsValue : Bool} :
    Quiet h (openBody symbol f sig returnsValue sc place) := by
  refine .bind declareThis_quiet fun _ => ?_
  refine .bind (.mapM (fun _ => declareParameter_quiet) _) fun params => ?_
  extract_lets rest
  have hrest (further : Option SymbolId × Option SymbolId) : Quiet h (rest further) := by grind
  clear_value rest
  grind

@[grind ←] theorem bodyStep_quiet {body : StmtId} : Quiet h (bodyStep symbol f sig body) := by
  refine .bind .tables fun p => .bind declScope_quiet fun outer => ?_
  refine .bind pushScope_quiet fun sc => .bind noteScope_quiet fun _ => ?_
  refine .bind .ask fun types => .bind openBody_quiet fun merged => ?_
  refine .bind (.nested (by grind)) fun _ => ?_
  grind

/-! ## Statements -/

@[grind ←] theorem frameConstructed_quiet : Quiet h frameConstructed :=
  .bind .context fun _ => .pure

@[grind ←] theorem returnedValue_quiet {v : ExprId} {func : SymbolId} :
    Quiet h (returnedValue v func result place) := by
  grind [returnedValue]

@[grind ←] theorem returnStmt_quiet {v : Option ExprId} : Quiet h (returnStmt v sc place) := by
  refine .bind .tables fun p => ?_
  split
  · exact .pure
  split
  · exact .pure
  split
  · grind
  refine .bind value_quiet fun v => .bind refuseArrayOperation_quiet fun refused => ?_
  grind

@[grind ←] theorem exprStmt_quiet {e : ExprId} : Quiet h (exprStmt e sc) := by
  grind [exprStmt]

@[grind ←] theorem localVariable_quiet {type : Option TypeId} :
    Quiet h (localVariable name type init storage sc place) := by
  grind [localVariable]

@[grind ←] theorem localFunction_quiet : Quiet h (localFunction d sc) := by
  grind [localFunction]

@[grind ←] theorem loopBody_quiet {body : StmtId} : Quiet h (loopBody body sc) := by
  grind [loopBody]

@[grind ←] theorem branches_quiet {yes : StmtId} {no : Option StmtId} :
    Quiet h (branches yes no sc) := by
  refine .bind frameConstructed_quiet fun before => .bind pushScope_quiet fun _ => ?_
  cases no <;> grind

@[grind ←] theorem foreachRange_quiet {lower upper : ExprId} {body : StmtId} :
    Quiet h (foreachRange name lower upper body sc place) := by
  refine .bind pushScope_quiet fun inner => .bind value_quiet fun upper => ?_
  refine .bind value_quiet fun lower => .bind .ask fun failed => ?_
  extract_lets rest
  have hrest (type : TypeId) : Quiet h (rest type) := by grind
  grind

@[grind ←] theorem stmtKind_quiet {s : Stmt} : Quiet h (stmtKind s sc place) := by
  cases s <;> unfold stmtKind <;> grind [checkInLoop]

@[grind ←] theorem statement_quiet {s : StmtId} : Quiet h (statement s sc) := by
  grind [statement]

/-! ## Modules -/

/-- A part of the declarations that keeps tables coherent. -/
def QuietDeclare {α : Type} (h : Analyser) (x : Declare α) : Prop := ∀ pend, Quiet h (x.run pend)

namespace QuietDeclare

variable {α β : Type}

@[grind ←] theorem pure {a : α} : QuietDeclare h (Pure.pure a) := fun _ => .pure

@[grind ←] theorem bind {x : Declare α} {f : α → Declare β} (hx : QuietDeclare h x)
    (hf : ∀ a, QuietDeclare h (f a)) : QuietDeclare h (x >>= f) := by
  intro pend
  exact .bind (hx pend) fun r => hf r.1 r.2

@[grind ←] theorem lift {x : Analyse α} (hx : Quiet h x) : QuietDeclare h (liftM x : Declare α) :=
  fun _ => .bind hx fun _ => .pure

@[grind ←] theorem modify (f : Pending → Pending) : QuietDeclare h (modify f : Declare Unit) :=
  fun _ => .pure

end QuietDeclare

@[grind ←] theorem declareGlobal_quiet {d : VariableDecl} :
    QuietDeclare h (declareGlobal d sc parent) := by
  unfold declareGlobal postpone
  grind

@[grind ←] theorem nextEnumValue_quiet {previous : ExprId} :
    Quiet h (nextEnumValue previous place) := by
  grind [nextEnumValue]

@[grind ←] theorem declareEnumMembers_quiet (enumeration : SymbolId) (type : TypeId)
    (previous : Option ExprId) (members : List EnumMemberDecl) :
    Quiet h (declareEnumMembers enumeration type previous members) := by
  induction members generalizing previous with
  | nil => exact .pure
  | cons d rest ih =>
    unfold declareEnumMembers
    extract_lets next
    have hnext (value : ExprId) : Quiet h (next value) :=
      .bind addSymbol_quiet fun _ => .bind (ih _) fun _ => .pure
    split
    · exact .bind .pure hnext
    · exact .bind addExpr_quiet hnext
    · exact .bind nextEnumValue_quiet hnext

@[grind ←] theorem declareEnum_quiet {d : EnumDecl} : Quiet h (declareEnum d sc parent) := by
  unfold declareEnum
  extract_lets rest
  have hrest (base : TypeId) : Quiet h (rest base) := by grind
  clear_value rest
  grind

mutual

theorem declare_quiet (d : Decl) (sc : ScopeId) (parent : SymbolId) :
    QuietDeclare h (declare d sc parent) := by
  cases d with
  | aggregate name place isClass base members =>
    rw [declare]
    refine .bind (.lift addSymbol_quiet) fun symbol => .bind (.lift intern_quiet) fun type => ?_
    refine .bind (.lift bindName_quiet) fun _ => .bind (.lift pushScope_quiet) fun inner => ?_
    refine .bind (.lift noteScope_quiet) fun _ => ?_
    refine .bind (declareAll_quiet members inner symbol) fun found => ?_
    grind [completeAggregate]
  | _ =>
    rw [declare]
    grind [postpone]

theorem declareAll_quiet (ds : List Decl) (sc : ScopeId) (parent : SymbolId) :
    QuietDeclare h (declareAll ds sc parent) := by
  cases ds with
  | nil =>
    rw [declareAll]
    exact .pure
  | cons d ds =>
    rw [declareAll]
    exact .bind (declare_quiet d sc parent) fun _ => .bind (declareAll_quiet ds sc parent) fun _ =>
      .pure

end

@[grind ←] theorem resolveBase_quiet {b : PendingBase} : Quiet h (resolveBase b) := by
  grind [resolveBase]

@[grind ←] theorem resolveItem_quiet : Quiet h (resolveItem item) := by
  unfold resolveItem
  grind

@[grind ←] theorem analyseItem_quiet : Quiet h (analyseItem item) := by
  cases item <;> grind [analyseItem]

@[grind ←] theorem analyseItemBody_quiet : Quiet h (analyseItemBody item) := by
  cases item <;> grind [analyseItemBody]

@[grind ←] theorem analyseModule_quiet {m : ModuleDecl} : Quiet h (analyseModule m) := by
  refine .bind addSymbol_quiet fun symbol => .bind (.aside fun _ => rfl) fun _ => ?_
  refine .bind (globalScope_alone True).quiet fun sc => ?_
  refine .bind (declareAll_quiet m.decls sc symbol {}) fun found => ?_
  grind

/-! ## Passes -/

section

variable (hh : h.Typing) {s t : Analysis}
include hh

theorem Quiet.leads {α : Type} {x : Analyse α} {a : α} (hx : Quiet h x)
    (hrun : x.run h s = some (a, t)) (hs : s.exprs.Coherent) : s.exprs.Leads t.exprs :=
  (hx s.exprs hh hs s t a rfl hrun).1

theorem Pass.parts_exprs : Pass.Parts h fun s t => s.exprs.Coherent → s.exprs.Leads t.exprs where
  refl _ _ := .refl
  trans hst htu hs := (hst hs).trans (htu ((hst hs).coherent hs))
  progress _ _ _ _ _ := .refl
  declared {s u _ _ _} _ _ hrun hs :=
    declaredType_alone.quiet.leads (s := s.setProgress _ _) (t := u) hh hrun hs
  checked hrun hs := checkDeclaration_alone.quiet.leads hh hrun hs
  defaulted {s _ _ _ type} _ _ hrun hs := by
    have hargs := defaultArguments_quiet.leads (s := s.setProgress _ _) hh hrun hs
    cases type <;> exact hargs
  stepped _ hrun hs := bodyStep_quiet.leads hh hrun hs

end

variable {h : Analyser} {t : ExprTable}
variable {e arg callee : ExprId} {args : List ExprId} {template : SymbolId} {place : Span}
  {sc : ScopeId} {type : TypeId} {sig : Signature} {d : FunctionTemplate} {param : Param}

/-! ## Functions to call -/

@[grind ←] theorem resolveOverload_quiet {first : SymbolId} :
    Quiet h (resolveOverload e first args) := by
  grind [resolveOverload]

@[grind ←] theorem makeInstance_quiet {argument : TypeId} :
    Quiet h (makeInstance template d argument place) := by
  refine .bind copyFunction_quiet fun copied => .bind .ask fun text => ?_
  refine .bind pushScope_quiet fun sc => .bind addSymbol_quiet fun parameter => ?_
  grind

@[grind ←] theorem instantiate_quiet {argument : TypeId} :
    Quiet h (instantiate template d argument place) := by
  grind [instantiate]

/-! ## Arguments -/

@[grind ←] theorem argument_quiet : Quiet h (argument sc arg) := by
  refine fun t => .bind analyseExpr_gives fun a u _ ha => .kind ?_
  have hrefused : Quiet h (do
      error (← span a) (.notAnExpression (← text a))
      return (none : Option ExprId)) :=
    .bind .ask fun _ => .bind .ask fun _ => .bind .error fun _ => .pure
  split
  · exact hrefused _
  · exact hrefused _
  · exact .bind (toValue_gives ha) fun _ _ _ _ => .ask fun _ _ => .pure trivial

@[grind ←] theorem arguments_quiet : Quiet h (arguments args sc) := by
  grind [arguments]

@[grind ←] theorem lazyArgument_quiet {result : TypeId} : Quiet h (lazyArgument arg result sc) := by
  refine .bind .ask fun place => .bind intern_quiet fun type => .bind addStmt_quiet fun body => ?_
  grind

@[grind ←] theorem copyConstruct_quiet : Quiet h (copyConstruct arg) := by
  refine .bind .tables fun p => .whenever .pure ?_
  split
  · exact .pure
  refine .bind (.forM (fun _ => .request) _) fun _ => .bind .ask fun found => ?_
  grind

@[grind ←] theorem adaptArgument_quiet : Quiet h (adaptArgument arg param sc) := by
  grind [adaptArgument]

@[grind ←] theorem packedElements_quiet {elem : TypeId} : Quiet h (packedElements elem args) := by
  unfold packedElements
  grind

@[grind ←] theorem packArguments_quiet : Quiet h (packArguments e type args sc) := by
  refine .bind .ask fun place => .whenever (by grind) (.bind .ask fun next => ?_)
  refine .bind packedElements_quiet fun packed => ?_
  cases packed with
  | none => exact .pure
  | some elems =>
    refine .bind intern_quiet fun array => .bind (typed_quiet rfl) fun literal => ?_
    refine .bind .ask fun count => .bind declareTemp_quiet fun temp => ?_
    grind

@[grind ←] theorem promotedType_quiet {base : TypeKind} : Quiet h (promotedType base) := by
  unfold promotedType
  grind

@[grind ←] theorem furtherArgument_quiet {variadic : Variadic} :
    Quiet h (furtherArgument variadic arg) := by
  grind [furtherArgument]

@[grind ←] theorem furtherArguments_quiet : Quiet h (furtherArguments sig args place) := by
  grind [furtherArguments]

@[grind ←] theorem argumentFor_quiet {i : Nat} : Quiet h (argumentFor e sig args sc i param) := by
  grind [argumentFor]

@[grind ←] theorem passArguments_quiet : Quiet h (passArguments e sig args sc) := by
  grind [passArguments]

/-! ## Calls -/

theorem finishCall_gives {funcType : TypeId} {type : Option TypeId} (he : t.Proper e) :
    GivesTyped h t (finishCall e callee funcType args sc type) := by
  refine .ask fun p _ => ?_
  split
  · exact .ask fun _ _ => errorExpr_gives
  refine .after passArguments_quiet fun passed u htu => ?_
  cases passed with
  | none => exact .ask fun _ _ => errorExpr_gives
  | some args => exact settle_gives (htu.proper he) rfl

theorem functionCall_gives {first : SymbolId} (he : t.Proper e) (hcallee : t.Proper callee) :
    GivesTyped h t (functionCall e callee first args sc) := by
  refine .after resolveOverload_quiet fun chosen u htu => ?_
  cases chosen with
  | none => exact .ask fun _ _ => errorExpr_gives
  | some chosen =>
    refine .ask fun p _ => .kind ?_
    -- The callee becomes a reference to the function or stays a member, and is no tuple either way.
    refine .bind (settle_gives (htu.proper hcallee) ?_) fun _ v huv _ => ?_
    · split <;> rfl
    · exact finishCall_gives ((htu.trans huv).proper he)

theorem templateCall_gives (he : t.Proper e) :
    GivesTyped h t (templateCall e template args sc) := by
  refine .tables fun p _ => ?_
  split
  · split
    · exact fail_gives
    refine .after instantiate_quiet fun made u htu => ?_
    cases made with
    | none => exact errorExpr_gives
    | some made =>
      exact .ask fun _ _ => .bind (typed_gives rfl) fun _ _ huv _ =>
        finishCall_gives ((htu.trans huv).proper he)
  · exact errorExpr_gives

theorem notCallable_gives : GivesTyped h t (notCallable e callee) :=
  .ask fun _ _ => .ask fun _ _ => .ask fun _ _ => .ask fun _ _ => fail_gives

section

variable (he : t.Proper e)
include he

theorem typeCall_gives : GivesTyped h t (typeCall e callee type args sc) := by
  refine .tables fun p _ => ?_
  dsimp only
  split
  · exact notCallable_gives
  split
  · exact fail_gives
  split
  · exact .after addExpr_quiet fun _ _ _ => made_gives
  split
  · exact made_gives
  refine .after resolveOverload_quiet fun chosen u htu => ?_
  cases chosen with
  | none => exact errorExpr_gives
  | some chosen =>
    exact .ask fun _ _ => .bind (typed_gives rfl) fun _ _ huv _ =>
      finishCall_gives ((htu.trans huv).proper he)

theorem valueCall_gives (hc : t.IsTyped callee) : GivesTyped h t (valueCall e callee args sc) := by
  refine .bind (checkValue_gives hc) fun c u htu hc => .unlessError (.pure hc) ?_
  refine .tables fun p _ => ?_
  dsimp only
  split
  · exact finishCall_gives (htu.proper he)
  refine .bind operatorCall_yields fun call v _ hcall => ?_
  cases call with
  | some call => exact .pure (hcall call rfl)
  | none => exact notCallable_gives

theorem delegateConstruction_gives {func constructor : SymbolId} :
    GivesTyped h t (delegateConstruction e callee args func constructor sc) := by
  refine .ask fun p _ => .bind analyseExpr_gives fun base u htu hb => .unlessError (.pure hb) ?_
  refine .after arguments_quiet fun args v huv => ?_
  cases args with
  | none => exact errorExpr_gives
  | some args =>
    refine .after resolveOverload_quiet fun chosen w hvw => ?_
    cases chosen with
    | none => exact errorExpr_gives
    | some chosen =>
      dsimp only
      split
      · exact fail_gives
      · exact .ask fun _ _ => .bind (typed_gives rfl) fun _ _ hwx _ =>
          finishCall_gives ((htu.trans (huv.trans (hvw.trans hwx))).proper he)

theorem constructorCall_gives {isSuper : Bool} :
    GivesTyped h t (constructorCall e callee args isSuper sc) := by
  refine .tables fun p _ => ?_
  dsimp only
  split
  · exact fail_gives
  split
  · exact fail_gives
  split
  · exact fail_gives
  refine .context fun c => .after (.aside fun _ => rfl) fun _ u htu => ?_
  split
  · exact fail_gives
  · exact delegateConstruction_gives (htu.proper he)

theorem plainCall_gives : GivesTyped h t (plainCall e callee args sc) := by
  refine .bind analyseExpr_gives fun c u htu hc => .unlessError (.pure hc) ?_
  refine .after arguments_quiet fun args v huv => ?_
  have he := (htu.trans huv).proper he
  have hc := huv.typed hc
  cases args with
  | none => exact .ask fun _ _ => errorExpr_gives
  | some args =>
    refine .tables fun p hp => ?_
    subst hp
    have hcall (s : SymbolId) (hproper : p.exprs.Proper c) : GivesTyped h p.exprs
        (if p.isFunction s = true then functionCall e c s args sc else valueCall e c args sc) := by
      split
      · exact functionCall_gives he hproper
      · exact valueCall_gives he hc
    split
    · exact templateCall_gives he
    · exact typeCall_gives he
    · rename_i hkind
      exact hcall _ (.of_kind hkind rfl)
    · rename_i hkind
      exact hcall _ (.of_kind hkind rfl)
    · exact valueCall_gives he hc

theorem boundedCall_gives : GivesTyped h t (boundedCall e callee args sc) := by
  refine .tables fun p _ => ?_
  split
  · exact .after addExpr_quiet fun _ _ _ => made_gives
  · exact constructorCall_gives he
  · exact constructorCall_gives he
  · exact plainCall_gives he

theorem call_gives : GivesTyped h t (call e callee args sc) := by
  refine .nested (.context fun c => ?_)
  split
  · exact .ask fun _ _ => .ask fun _ _ => fail_gives
  · exact boundedCall_gives he

end

end DCompiler
