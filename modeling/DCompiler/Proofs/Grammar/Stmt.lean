import DCompiler.Proofs.Grammar.Parser

/-!
# Expressions, statements and functions

Each rule for expressions adds an expression whose parts were added before it. It calls the other
rules only behind a word that it has taken. Each rule for statements adds statements whose
expressions are there, and variables that have a type or an initial value. A declared variable is
never lazy: only parameters can be.
-/

namespace DCompiler.Grammar

open List Stmt TakesWords

variable {n : Nat} {w : Option TokenKind} {r : Reach} {g g' : Rules} (hg : g.Sound n g')

theorem addExprFrom_parses {k : Expr} {start : Span} (hk : k.isWritten = true) (hfits : k.Fits r) :
    Parses n false w r (addExprFrom start k) (addExprFrom start k) fun r' e => e.In r' :=
  .look fun _ => addExpr_parses hk hfits

theorem addExprOver_parses {k : Expr} {first last : ExprId} (hk : k.isWritten = true)
    (hfits : k.Fits r) :
    Parses n false w r (addExprOver first last k) (addExprOver first last k) fun r' e => e.In r' :=
  .look fun _ => .look fun _ => addExpr_parses hk hfits

theorem atom_parses {kind : TokenKind} {k : Expr} (hne : kind ≠ .eof) (hk : k.isWritten = true)
    (hchildren : k.children = []) (htypes : ∀ t ∈ k.types, t.Known r) :
    Parses (n + 1) true (some kind) r (atom k) (atom k) fun r' e => e.In r' :=
  .taken hne fun _ => addExpr_parses hk ⟨by simp [hchildren], htypes⟩

theorem Expr.fits_of_children {k : Expr} (htypes : k.types = [])
    (hchildren : ∀ e ∈ k.children, e.In r) : k.Fits r :=
  ⟨hchildren, by simp [htypes]⟩

theorem ExprId.in_pair {a b : ExprId} (ha : a.In r) (hb : b.In r) : ∀ e ∈ [a, b], e.In r :=
  forall_mem_cons.mpr ⟨ha, forall_mem_singleton.mpr hb⟩

theorem ExprId.in_triple {a b c : ExprId} (ha : a.In r) (hb : b.In r) (hc : c.In r) :
    ∀ e ∈ [a, b, c], e.In r :=
  forall_mem_cons.mpr ⟨ha, in_pair hb hc⟩

theorem nameExpr_parses (name : String) : Parses (n + 1) true (some .ident) r (atom (nameExpr name))
    (atom (nameExpr name)) fun r' e => e.In r' := by
  unfold nameExpr
  split
  · exact atom_parses nofun rfl rfl (forall_mem_singleton.mpr TypeId.known_ofScalar)
  · exact atom_parses nofun rfl rfl nofun

theorem addBinary_parses {op : BinaryOp} {lhs rhs : ExprId} (hlhs : lhs.In r) (hrhs : rhs.In r) :
    Parses n false w r (addExprOver lhs rhs (.binary op lhs rhs))
      (addExprOver lhs rhs (.binary op lhs rhs)) fun r' e => e.In r' :=
  addExprOver_parses rfl (Expr.fits_of_children rfl (ExprId.in_pair hlhs hrhs))

theorem cons_parses {first : ExprId} {x y : Parser (List ExprId)} (hfirst : first.In r)
    (hx : Parses n false w r x y fun r' es => ∀ e ∈ es, e.In r') :
    Parses n false w r (do return first :: (← x)) (do return first :: (← y))
      fun r' es => ∀ e ∈ es, e.In r' := by
  refine .bind hx fun es r1 h1 hes => .pure fun r' hr e he => ?_
  rcases mem_cons.mp he with rfl | he
  · exact (hfirst.mono h1).mono hr
  · exact (hes e he).mono hr

theorem ne_eof_of_some {α : Type} {op? : TokenKind → Option α} {kind : TokenKind} {op : α}
    (heof : op? .eof = none) (h : op? kind = some op) : kind ≠ .eof := by
  rintro rfl
  rw [heof] at h
  cases h

section

include hg

theorem primary_parses : Both g g' (n + 1) true w r primary fun r' e => e.In r' := by
  refine .look fun start => .peek fun kind => ?_
  split
  · refine .look fun text => ?_
    split
    · exact atom_parses nofun rfl rfl nofun
    · exact .fail
  · refine .look fun text => ?_
    split
    · exact atom_parses nofun rfl rfl nofun
    · exact .fail
  · exact .look fun _ => atom_parses nofun rfl rfl nofun
  · exact .look fun _ => atom_parses nofun rfl rfl nofun
  · exact atom_parses nofun rfl rfl nofun
  · exact atom_parses nofun rfl rfl nofun
  · exact atom_parses nofun rfl rfl nofun
  · exact atom_parses nofun rfl rfl nofun
  · exact atom_parses nofun rfl rfl nofun
  · exact atom_parses nofun rfl rfl nofun
  · exact .look fun _ => nameExpr_parses _
  · refine .taken nofun fun _ => .bind hg.expr fun e r1 h1 he => ?_
    exact .expect fun _ => .pure fun r' hr => he.mono hr
  · refine .taken nofun fun _ => .bind (hg.arguments nofun) fun es r1 h1 hes => ?_
    exact addExprFrom_parses rfl (Expr.fits_of_children rfl hes)
  · refine .taken nofun fun _ => .expect fun _ =>
      identifier_takesWords.andThen fun name => ?_
    refine .orFail fun _ => .bind hg.traitArguments fun es r1 h1 hes =>
      .expect fun _ => ?_
    exact addExprFrom_parses rfl (Expr.fits_of_children rfl hes)
  · refine .taken nofun fun _ => .expect fun _ =>
      .bind (wholeType_parses hg).inside fun t r1 h1 ht => .expect fun _ => ?_
    exact addExprFrom_parses rfl ⟨nofun, forall_mem_singleton.mpr ht⟩
  · exact .failAtWord

theorem bracketAccess_parses {base : ExprId} (hbase : base.In r) :
    Both g g' n false w r (bracketAccess · base) fun r' k => k.isWritten = true ∧ k.Fits r' := by
  refine eat_takesWords.andThen fun closed => ?_
  split
  · exact .pure fun r' hr =>
      ⟨rfl, Expr.fits_of_children rfl (forall_mem_singleton.mpr (hbase.mono hr))⟩
  refine .bind hg.assign fun first r1 h1 hfirst => eat_takesWords.andThen fun dots => ?_
  split
  · refine .bind hg.assign fun upper r2 h2 hupper => .expect fun _ =>
      .pure fun r' hr => ⟨rfl, Expr.fits_of_children rfl ?_⟩
    exact ExprId.in_triple (((hbase.mono h1).mono h2).mono hr) ((hfirst.mono h2).mono hr)
      (hupper.mono hr)
  · refine .expect fun _ => .pure fun r' hr => ⟨rfl, Expr.fits_of_children rfl ?_⟩
    exact ExprId.in_pair ((hbase.mono h1).mono hr) (hfirst.mono hr)

theorem accessTail_parses {base : ExprId} (hbase : base.In r) :
    Both g g' (n + 1) false w r (accessTail · base) fun r' e => e.In r' := by
  refine .look fun start => .peek fun kind => ?_
  split
  · refine .taken nofun fun _ => identifier_takesWords.andThen fun name => ?_
    have hparts : ∀ e ∈ [base], e.In r := forall_mem_singleton.mpr hbase
    exact .bind (addExprFrom_parses rfl (Expr.fits_of_children rfl hparts))
      fun e r1 _ he => hg.accessTail he
  · refine .taken nofun fun _ => .bind (hg.arguments nofun) fun es r1 h1 hes => ?_
    refine .bind (addExprFrom_parses rfl (Expr.fits_of_children rfl ?_))
      fun e r2 _ he => hg.accessTail he
    exact forall_mem_cons.mpr ⟨hbase.mono h1, hes⟩
  · refine .taken nofun fun _ => .bind (bracketAccess_parses hg hbase) fun k r1 h1 hk => ?_
    exact .bind (addExprFrom_parses hk.1 hk.2) fun e r2 _ he => hg.accessTail he
  · exact .pure fun r' hr => hbase.mono hr

theorem power_parses : Both g g' (n + 1) true w r power fun r' e => e.In r' := by
  refine .past (primary_parses hg) fun head r1 _ hhead =>
    .bind (hg.accessTail hhead) fun lhs r2 _ hlhs => eat_takesWords.andThen fun taken => ?_
  split
  · exact .bind hg.unary fun rhs r3 h3 hrhs => addBinary_parses (hlhs.mono h3) hrhs
  · exact .pure fun r' hr => hlhs.mono hr

theorem unary_parses : Both g g' (n + 1) true w r unary fun r' e => e.In r' := by
  refine .look fun start => .peek fun kind => ?_
  split
  · next h => exact h ▸ .taken nofun fun _ => hg.unary
  split
  · next h =>
    subst h
    refine .taken nofun fun _ => .expect fun _ =>
      .bind (wholeType_parses hg).inside fun t r1 _ ht => .expect fun _ =>
      .bind hg.unary fun operand r2 h2 hoperand => .look fun _ => ?_
    exact addExpr_parses rfl
      ⟨forall_mem_singleton.mpr hoperand, forall_mem_singleton.mpr (ht.mono h2)⟩
  split
  · next h =>
    refine .taken (ne_eof_of_some rfl h) fun _ => .bind hg.unary fun operand r1 h1 hoperand =>
      .look fun _ => ?_
    exact addExpr_parses rfl
      (Expr.fits_of_children rfl (forall_mem_singleton.mpr hoperand))
  · exact power_parses hg

theorem binaryTail_parses {lhs : ExprId} (least : Nat) (hlhs : lhs.In r) :
    Both g g' (n + 1) false w r (binaryTail · least lhs) fun r' e => e.In r' := by
  refine .peek fun kind => ?_
  split
  · next h =>
    split
    · exact .pure fun r' hr => hlhs.mono hr
    · refine .taken (ne_eof_of_some rfl h) fun _ => .bind (hg.binary _) fun rhs r1 h1 hrhs => ?_
      exact .bind (addBinary_parses (hlhs.mono h1) hrhs) fun e r2 _ he => hg.binaryTail _ he
  · exact .pure fun r' hr => hlhs.mono hr

theorem binary_parses (least : Nat) :
    Both g g' (n + 1) true w r (binary · least) fun r' e => e.In r' :=
  .past (unary_parses hg) fun _ _ _ hlhs => hg.binaryTail least hlhs

theorem cond_parses : Both g g' (n + 1) true w r cond fun r' e => e.In r' := by
  refine .past (binary_parses hg 1) fun test r1 _ htest => eat_takesWords.andThen fun _ => ?_
  split
  · refine .bind hg.expr fun yes r2 h2 hyes => .expect fun _ =>
      .bind hg.cond fun no r3 h3 hno =>
        addExprOver_parses rfl (Expr.fits_of_children rfl ?_)
    exact ExprId.in_triple ((htest.mono h2).mono h3) (hyes.mono h3) hno
  · exact .pure fun r' hr => htest.mono hr

theorem assign_parses : Both g g' (n + 1) true w r assign fun r' e => e.In r' := by
  refine .past (cond_parses hg) fun lhs r1 _ hlhs => .look fun _ => ?_
  split
  · refine advance_takesWords.andThen fun _ => .bind hg.assign fun rhs r2 h2 hrhs =>
      addExprOver_parses rfl (Expr.fits_of_children rfl ?_)
    exact ExprId.in_pair (hlhs.mono h2) hrhs
  · exact .pure fun r' hr => hlhs.mono hr

theorem commaTail_parses {lhs : ExprId} (hlhs : lhs.In r) :
    Both g g' (n + 1) false w r (commaTail · lhs) fun r' e => e.In r' := by
  refine .eat nofun (.bind hg.assign fun rhs r1 h1 hrhs => .bind (addExprOver_parses rfl
    (Expr.fits_of_children rfl ?_)) fun e r2 _ he => hg.commaTail he)
    (.pure fun r' hr => hlhs.mono hr)
  exact ExprId.in_pair (hlhs.mono h1) hrhs

theorem expr_parses : Both g g' (n + 1) true w r expr fun r' e => e.In r' :=
  .past (assign_parses hg) fun _ _ _ hlhs => hg.commaTail hlhs

theorem arguments_parses {close : TokenKind} (hclose : close ≠ .eof) :
    Both g g' (n + 1) false w r (arguments · close) fun r' es => ∀ e ∈ es, e.In r' := by
  refine .eat hclose (.pure fun _ _ => by simp) (.past (assign_parses hg)
    fun first r1 _ hfirst => eat_takesWords.andThen fun _ => ?_)
  split
  · exact cons_parses hfirst (hg.arguments hclose)
  · exact .expect fun _ => .pure fun r' hr => by
      simpa using hfirst.mono hr

theorem traitArguments_parses : Both g g' (n + 1) false w r traitArguments
    fun r' es => ∀ e ∈ es, e.In r' :=
  .eat nofun (.bind hg.assign fun _ _ _ hfirst => cons_parses hfirst hg.traitArguments)
    (.pure fun _ _ => by simp)

end

/-! ## Parts of statements -/

def declares : Stmt → Bool
  | .varDecl .. | .funcDecl .. => true
  | _ => false

theorem fits_of_exprs {s : Stmt} (hs : declares s = false) (he : ∀ e ∈ s.exprs, e.In r) :
    s.Fits r :=
  ⟨he, fun h => by simp [h, declares] at hs, fun h => by simp [h, declares] at hs⟩

theorem addStmtFrom_parses {k : Stmt} {start : Span} (hk : k.Fits r) :
    Parses n false w r (addStmtFrom start k) (addStmtFrom start k) fun _ _ => True :=
  .look fun _ => addStmt_parses hk

theorem optionalUnless_parses {kind : TokenKind} {x y : Parser ExprId}
    (hx : ∀ {w}, Parses n false w r x y fun r' e => e.In r') :
    Parses n false w r (optionalUnless kind x) (optionalUnless kind y)
      fun r' found => ∀ e ∈ found, e.In r' := by
  refine .look fun _ => ?_
  split
  · exact .pure fun _ _ => by simp
  refine .bind hx fun e r1 _ he => .pure fun r' hr found hfound => ?_
  cases hfound
  exact he.mono hr

include hg in
theorem block_parses : Both g g' (n + 1) true w r block fun _ _ => True := by
  refine past (expect_takes (by nofun)) fun _ => .bind hg.statements fun _ r1 _ _ =>
    .look fun _ => ?_
  exact .bind (addStmt_parses (fits_of_exprs rfl (by simp [exprs]))) fun _ r2 _ _ =>
    addStmt_parses (fits_of_exprs rfl (by simp [exprs]))

/-! ## Functions -/

theorem resultName_takesWords : TakesWords false resultName := by
  refine eat_takesWords.andThen fun _ => ?_
  split
  · refine .look fun _ => ?_
    dsimp only
    split
    · exact identifier_takesWords.andThen fun _ => pure.andThen fun _ =>
        .expect fun _ => .pure fun _ _ => trivial
    · exact pure.andThen fun _ => .expect fun _ =>
        .pure fun _ _ => trivial
  · exact .pure fun _ _ => trivial

theorem typeParameter_takesWords : TakesWords false typeParameter := by
  refine .get fun s => ?_
  split
  · exact advance_takesWords.andThen fun _ => identifier_takesWords.andThen fun _ =>
      advance_takesWords.andThen fun _ => .pure fun _ _ => trivial
  · exact .pure fun _ _ => trivial

include hg

theorem functionTail_parses (hasContract : Bool) :
    Both g g' (n + 1) false w r (functionTail · hasContract) fun _ _ => True := by
  have hdone {n w r} {a : FunctionTail} : Parses n false w r (pure a) (pure a) fun _ _ => True :=
    .pure fun _ _ => trivial
  have hblock {w r} : Both g g' n false w r block fun _ _ => True := (block_parses hg).inside
  refine .peek fun _ => ?_
  split
  · exact .taken nofun fun _ => .bind hblock fun _ _ _ _ =>
      .bind (hg.functionTail true) fun _ _ _ _ => hdone
  · exact .taken nofun fun _ => resultName_takesWords.andThen fun _ =>
      .bind hblock fun _ _ _ _ => .bind (hg.functionTail true) fun _ _ _ _ => hdone
  · exact .taken nofun fun _ => .bind hblock fun _ _ _ _ => hdone
  · exact .past (block_parses hg) fun _ _ _ _ => hdone
  · exact .taken nofun fun _ => hdone
  split
  · exact hdone
  · exact .failAtWord

theorem functionRest_parses (name : String) (span : Span) {result : TypeId} (attrs : Attributes)
    (isConstructor : Bool) (hresult : result.Known r) :
    Both g g' n false w r (functionRest · name span result attrs isConstructor)
      fun r' d => d.Fits r' := by
  refine typeParameter_takesWords.andThen fun _ =>
    .bind (parameters_parses hg _).inside fun params r1 h1 hparams =>
    .bind (hg.functionTail false) fun _ r2 h2 _ => .pure fun r' hr => ?_
  have hr1 : r1 ≤ r' := Reach.le_trans h2 hr
  exact ⟨(hresult.mono h1).mono hr1, fun p hp => (hparams p hp).mono hr1⟩

/-! ## Local declarations -/

omit hg in
theorem declaredVariable_of_check {type : Option TypeId} {init : Option ExprId}
    {storage : StorageClass} (hgiven : ¬(type.isNone && init.isNone) = true)
    (htype : ∀ t ∈ type, t.Known r) (hinit : ∀ e ∈ init, e.In r)
    (hstorage : storage.contains .lazy = false) : DeclaredVariable type init storage r := by
  refine ⟨?_, hstorage, htype, hinit⟩
  cases type <;> cases init <;> simp_all

theorem localDecls_parses {d : LocalDecls} (name : String) (htype : ∀ t ∈ d.type, t.Known r)
    (hstorage : d.storage.contains .lazy = false) :
    Both g g' (n + 1) false w r (localDecls · d name) fun _ _ => True := by
  refine .bind (optionalAfter_parses (by nofun) hg.assign ExprId.In.mono) fun init r1 h1 hinit =>
    .orFail fun hgiven => ?_
  have htype1 : ∀ t ∈ d.type, t.Known r1 := fun t ht => (htype t ht).mono h1
  refine .bind (addStmtFrom_parses ⟨?_, ?_, by simp⟩) fun decl r2 h2 _ => .eat nofun ?_ ?_
  · simpa [exprs] using hinit
  · intro name type init storage symbol heq
    cases heq
    exact declaredVariable_of_check hgiven htype1 hinit hstorage
  · exact identifier_takesWords.andThen fun _ =>
      .bind (hg.localDecls _ (fun t ht => (htype1 t ht).mono h2) hstorage) fun _ _ _ _ =>
        .pure fun _ _ => trivial
  · exact .pure fun _ _ => trivial

omit hg in
theorem storageRun_eager {flag? : TokenKind → TokenKind → Option StorageClass}
    (h : ∀ kind next, ∀ flag ∈ flag? kind next, flag.contains .lazy = false) (ws : List Word) :
    (storageRun flag? ws).1.contains .lazy = false := by
  induction ws with
  | nil => exact (by decide : StorageClass.none.contains .lazy = false)
  | cons w rest ih =>
    rw [storageRun]
    split
    · decide
    rename_i flag hflag
    rw [StorageClass.contains_lazy_or, h _ _ flag hflag, ih]
    rfl

omit hg in
theorem localFlag_eager (kind next : TokenKind) :
    ∀ flag ∈ localFlag? kind next, flag.contains .lazy = false := by
  intro flag hflag
  unfold localFlag? at hflag
  split at hflag
  · cases hflag
    rfl
  · split at hflag
    · cases hflag
    · cases hflag
      rfl
  · cases hflag

theorem declaredType_parses (untyped : Bool) :
    Both g g' (n + 1) false w r (declaredType · untyped) fun r' type => ∀ t ∈ type, t.Known r' := by
  refine eat_takesWords.andThen fun _ => ?_
  split
  · exact .pure fun _ _ => by simp
  refine .get fun s => ?_
  split
  · exact .pure fun _ _ => by simp
  refine .bind (wholeType_parses hg) fun t r1 _ ht => .pure fun r' hr found hfound => ?_
  cases hfound
  exact ht.mono hr

theorem declStatement_parses : Both g g' (n + 1) true w r declStatement fun _ _ => True := by
  refine .look fun start => .bind (storageFlags_parses (Q := (·.contains .lazy = false))
    (storageRun_eager localFlag_eager)) fun storage r1 _ hstorage =>
    .bind (declaredType_parses hg true) fun type r2 _ htype =>
    identifier_takesWords.past fun name => .look fun _ => ?_
  split
  · split
    · exact .fail
    rename_i result
    refine .bind (functionRest_parses hg _ _ _ _ (htype result rfl)) fun d r3 _ hd =>
      addStmtFrom_parses ⟨by simp [exprs], by simp, ?_⟩
    intro d' symbol heq
    cases heq
    exact hd
  · refine .bind (localDecls_parses hg _ htype hstorage).inside fun decls r3 _ _ =>
      .expect fun _ => ?_
    split
    · exact .pure fun _ _ => trivial
    · exact addStmtFrom_parses (fits_of_exprs rfl (by simp [exprs]))

omit hg in
theorem lookAhead_parses {α : Type} {b : Bool} {x y : Parser α} {Q : Reach → α → Prop}
    (hx : Parses n b w r x y Q) :
    Parses n false w r (lookAhead x) (lookAhead y) fun _ _ => True := by
  intro s hs
  cases hx s hs with
  | stop hx hy =>
    exact .done (a := none) (t := s) (by simp [lookAhead, hx]) (by simp [lookAhead, hy]) hs.ends
      .refl (.refl s) trivial
  | @done a t hx hy =>
    exact .done (a := some a) (t := s) (by simp [lookAhead, hx]) (by simp [lookAhead, hy]) hs.ends
      .refl (.refl s) trivial

theorem typedNameAhead_parses : Both g g' (n + 1) false w r typedNameAhead fun _ _ => True := by
  refine .bind (lookAhead_parses (b := true) (.past (type_parses hg) fun _ _ _ _ =>
    .look fun _ => .look fun _ => pure)) fun ahead _ _ _ => ?_
  split <;> exact .pure fun _ _ => trivial

theorem atDeclaration_parses : Both g g' (n + 1) false w r atDeclaration fun _ _ => True := by
  refine .look fun _ => ?_
  split
  · exact .pure fun _ _ => trivial
  · exact .pure fun _ _ => trivial
  · refine .look fun _ => ?_
    split
    · exact .pure fun _ _ => trivial
    · exact typedNameAhead_parses hg
  · exact typedNameAhead_parses hg
  · exact .pure fun _ _ => trivial

/-! ## Statements -/

theorem parenthesised_parses : Both g g' n false w r parenthesised fun r' e => e.In r' :=
  .expect fun _ => .bind hg.expr fun _ _ _ he =>
    .expect fun _ => .pure fun _ hr => he.mono hr

theorem forRest_parses (start : Span) :
    Both g g' n false w r (forRest · start) fun _ _ => True := by
  refine .expect fun _ => eat_takesWords.andThen fun _ => ?_
  extract_lets rest rest'
  have hrest {r} (init : Option StmtId) :
      Parses n false none r (rest init) (rest' init) fun _ _ => True := by
    refine .bind (optionalUnless_parses hg.expr) fun test r1 _ htest =>
      .expect fun _ =>
      .bind (optionalUnless_parses hg.expr) fun incr r2 h2 hincr =>
      .expect fun _ => .bind hg.statement fun body r3 h3 _ =>
      addStmtFrom_parses (fits_of_exprs rfl fun e he => ?_)
    simp only [exprs, mem_append, Option.mem_toList] at he
    rcases he with he | he
    · exact ((htest e he).mono h2).mono h3
    · exact (hincr e he).mono h3
  split
  · exact pure.andThen hrest
  · exact .bind hg.statement fun _ _ _ _ => pure.andThen hrest

theorem foreachRest_parses (start : Span) :
    Both g g' n false w r (foreachRest · start) fun _ _ => True := by
  refine .expect fun _ => .look fun _ => ?_
  extract_lets rest rest'
  have hrest {r} : Parses n false none r (rest ⟨⟩) (rest' ⟨⟩) fun _ _ => True := by
    refine identifier_takesWords.andThen fun name => .expect fun _ =>
      .bind hg.assign fun lower r1 _ hlower => .expect fun _ =>
      .bind hg.assign fun upper r2 h2 hupper => .expect fun _ =>
      .bind hg.statement fun body r3 h3 _ =>
      addStmtFrom_parses (fits_of_exprs rfl ?_)
    simpa [exprs] using ⟨(hlower.mono h2).mono h3, hupper.mono h3⟩
  split
  · exact .bind (wholeType_parses hg).inside fun _ _ _ _ => hrest
  · exact hrest

theorem simpleStatement_parses (start : Span) :
    Both g g' (n + 1) true w r (simpleStatement · start) fun _ _ => True := by
  refine .bind (atDeclaration_parses hg) fun _ _ _ _ => ?_
  split
  · exact declStatement_parses hg
  refine .past (expr_parses hg) fun e r1 _ he => .expect fun _ =>
    addStmtFrom_parses (fits_of_exprs rfl ?_)
  simpa [exprs] using he

theorem statement_parses : Both g g' (n + 1) true w r statement fun _ _ => True := by
  have hplain {s : Stmt} {span : Span} {r} (hs : declares s = false) (he : ∀ e ∈ s.exprs, e.In r) :
      Parses n false none r (addStmt s span) (addStmt s span) fun _ _ => True :=
    addStmt_parses (fits_of_exprs hs he)
  refine .look fun start => .peek fun _ => ?_
  split
  · exact block_parses hg
  · exact .taken nofun fun _ => hplain rfl (by simp [exprs])
  · refine .taken nofun fun _ => .bind (parenthesised_parses hg) fun test r1 _ htest =>
      .bind hg.statement fun yes r2 h2 _ =>
      .bind (optionalAfter_parses (by nofun) hg.statement fun h _ => h).inside fun no r3 h3 _ =>
      addStmtFrom_parses (fits_of_exprs rfl ?_)
    simpa [exprs] using (htest.mono h2).mono h3
  · refine .taken nofun fun _ => .bind (parenthesised_parses hg) fun test r1 _ htest =>
      .bind hg.statement fun body r2 h2 _ => addStmtFrom_parses (fits_of_exprs rfl ?_)
    simpa [exprs] using htest.mono h2
  · exact .taken nofun fun _ => forRest_parses hg start
  · exact .taken nofun fun _ => foreachRest_parses hg start
  · refine .taken nofun fun _ => .bind (optionalUnless_parses hg.expr) fun value r1 _ hvalue =>
      .expect fun _ => addStmtFrom_parses (fits_of_exprs rfl ?_)
    simpa [exprs] using hvalue
  · exact .taken nofun fun _ => .expect fun _ =>
      hplain rfl (by simp [exprs])
  · exact .taken nofun fun _ => .expect fun _ =>
      hplain rfl (by simp [exprs])
  · refine .look fun _ => ?_
    split
    · exact identifier_takesWords.past fun _ => advance_takesWords.andThen fun _ =>
        .bind hg.statement fun _ _ _ _ =>
          addStmtFrom_parses (fits_of_exprs rfl (by simp [exprs]))
    · exact simpleStatement_parses hg start
  · exact simpleStatement_parses hg start

theorem statements_parses : Both g g' (n + 1) false w r statements fun _ _ => True :=
  .eat nofun (.pure fun _ _ => trivial) (.look fun _ => .orFail fun _ =>
    .past (statement_parses hg) fun _ _ _ _ => .bind hg.statements fun _ _ _ _ =>
      .pure fun _ _ => trivial)

end DCompiler.Grammar
