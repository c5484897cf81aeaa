import DCompiler.Proofs.Grammar.Stmt
import DCompiler.Proofs.Token.Tiling

/-!
# Declarations, modules and whole texts

The rules for declarations, then all rules tied together: the rules of two depths of calls agree up
to the smaller one (`rules_sound`), by induction on the number of words. A text has fewer words than
the depth it is read with, so reading it, as a module or as an expression, never runs out of depth.
It only adds to the tables (`Grown`), and what it returns refers to what is there.
-/

namespace DCompiler.Grammar

open TakesWords

variable {n : Nat} {w : Option TokenKind} {r : Reach} {g g' : Rules} (hg : g.Sound n g')

/-! ## Attributes -/

theorem linkage_takesWords : TakesWords false linkage := by
  refine .expect fun _ => identifier_takesWords.andThen fun name => ?_
  dsimp only
  split
  · exact pure.andThen fun _ => .expect fun _ => pure
  split
  · exact pure.andThen fun _ => .expect fun _ => pure
  · exact fun _ _ => .stop rfl rfl

theorem attributeFlag_eager (kind next : TokenKind) (text : String) :
    ∀ flag ∈ attributeFlag? kind next text, flag.contains .lazy = false := by
  intro flag hflag
  unfold attributeFlag? at hflag
  repeat' split at hflag
  all_goals cases hflag
  all_goals decide

include hg

theorem attributes_parses {attrs : Attributes} (h : attrs.storage.contains .lazy = false) :
    Both g g' (n + 1) false w r (attributes · attrs)
      fun _ attrs => attrs.storage.contains .lazy = false := by
  have hor {flag : StorageClass} (hflag : flag.contains .lazy = false) :
      (attrs.storage ||| flag).contains .lazy = false := by
    rw [StorageClass.contains_lazy_or, h, hflag]
    rfl
  refine .peek fun kind => ?_
  split
  · exact .taken nofun fun _ => linkage_takesWords.andThen fun _ => hg.attributes h
  · refine .taken nofun fun _ => identifier_takesWords.andThen fun _ => hg.attributes (hor ?_)
    split <;> decide
  refine .look fun _ => .look fun _ => ?_
  split
  · next hflag =>
    refine .taken ?_ fun _ => hg.attributes (hor (attributeFlag_eager _ _ _ _ hflag))
    rintro rfl
    cases hflag
  · exact .pure fun _ _ => h

/-! ## Kinds of declaration -/

theorem nameTail_parses (name : String) :
    Both g g' (n + 1) false w r (nameTail · name) fun _ _ => True :=
  .eat nofun (identifier_takesWords.andThen fun _ => hg.nameTail _) (.pure fun _ _ => trivial)

theorem dottedName_parses : Both g g' (n + 1) true w r dottedName fun _ _ => True :=
  identifier_takesWords.past fun _ => hg.nameTail _

theorem globalDecls_parses {d : GlobalDecls} (name : String) (span : Span)
    (htype : ∀ t ∈ d.type, t.Known r) (hstorage : d.storage.contains .lazy = false) :
    Both g g' (n + 1) false w r (globalDecls · d name span) fun r' ds => ∀ d ∈ ds, d.Fits r' := by
  refine .bind (optionalAfter_parses (by nofun) hg.assign ExprId.In.mono) fun init r1 h1 hinit =>
    .orFail fun hgiven => ?_
  have htype1 : ∀ t ∈ d.type, t.Known r1 := fun t ht => (htype t ht).mono h1
  have hdecl : (Decl.global ⟨name, span, d.type, init, d.storage⟩).Fits r1 :=
    .global (declaredVariable_of_check hgiven htype1 hinit hstorage)
  refine .eat nofun ?_ (.expect fun _ => .pure fun r' hr => by
    simpa using hdecl.mono hr)
  refine identifier_takesWords.andThen fun _ =>
    .bind (hg.globalDecls _ _ htype1 hstorage) fun ds r2 h2 hds => .pure fun r' hr => ?_
  exact List.forall_mem_cons.mpr ⟨(hdecl.mono h2).mono hr, fun d hd => (hds d hd).mono hr⟩

theorem aggregate_parses {kind : TokenKind} (hne : kind ≠ .eof) (isClass : Bool) :
    Both g g' (n + 1) true (some kind) r (aggregate · isClass) fun r' d => d.Fits r' := by
  refine .taken hne fun _ => identifier_takesWords.andThen fun name => ?_
  cases name
  dsimp -zeta only
  extract_lets rest rest'
  have hrest {r} (base : Option BaseName) :
      Parses n false none r (rest base) (rest' base) fun r' d => d.Fits r' :=
    .expect fun _ => .bind (hg.decls _ _ (by decide)) fun _ _ _ hds =>
      .pure fun r' hr => .aggregate fun d hd => (hds d hd).mono hr
  split
  · refine .bind (optionalAfter_parses (by nofun) (Q := fun _ _ => True) ?_ fun h _ => h).inside
      fun base _ _ _ => hrest base
    exact identifier_takesWords.andThen fun _ => pure
  · exact pure.andThen hrest

theorem enumMembers_parses : Both g g' (n + 1) false w r enumMembers
    fun r' ms => ∀ m ∈ ms, ∀ e ∈ m.value, e.In r' := by
  refine .eat nofun (.pure fun _ _ => by simp) (identifier_takesWords.past fun name =>
    .bind (optionalAfter_parses (by nofun) hg.assign ExprId.In.mono).inside
      fun value r1 h1 hvalue => eat_takesWords.andThen fun _ => ?_)
  split
  · refine .bind hg.enumMembers fun ms r2 h2 hms => .pure fun r' hr m hm e he => ?_
    rcases List.mem_cons.mp hm with rfl | hm
    · exact ((hvalue e he).mono h2).mono hr
    · exact (hms m hm e he).mono hr
  · refine .expect fun _ => .pure fun r' hr m hm e he => ?_
    rw [List.mem_singleton] at hm
    subst hm
    exact (hvalue e he).mono hr

theorem enumeration_parses : Both g g' (n + 1) true (some .kwEnum) r enumeration
    fun r' d => d.Fits r' := by
  refine .taken nofun fun _ => identifier_takesWords.andThen fun name =>
    .bind (optionalAfter_parses (by nofun) (wholeType_parses hg).inside TypeId.Known.mono).inside
      fun base r1 h1 hbase => .expect fun _ =>
    .bind hg.enumMembers fun ms r2 h2 hms => .pure fun r' hr => .enumeration ?_
  exact ⟨fun t ht => ((hbase t ht).mono h2).mono hr, fun m hm e he => (hms m hm e he).mono hr⟩

omit hg in
theorem single_parses {x y : Parser Decl} (hx : Parses (n + 1) true w r x y fun r' d => d.Fits r') :
    Parses (n + 1) true w r (do return [← x]) (do return [← y])
      fun r' ds => ∀ d ∈ ds, d.Fits r' :=
  .past hx fun _ _ _ hd => .pure fun r' hr => by simpa using hd.mono hr

theorem funcDecl_parses (name : String) (span : Span) {result : TypeId} (attrs : Attributes)
    (isConstructor : Bool) (hresult : result.Known r) : Parses n false w r
      (do return [Decl.func (← functionRest g name span result attrs isConstructor)])
      (do return [Decl.func (← functionRest g' name span result attrs isConstructor)])
      fun r' ds => ∀ d ∈ ds, d.Fits r' :=
  .bind (functionRest_parses hg _ _ _ _ hresult) fun _ _ _ hd => .pure fun r' hr => by
    simpa using Decl.Fits.func (hd.mono hr)

theorem typedDecl_parses {attrs : Attributes} (h : attrs.storage.contains .lazy = false) :
    Both g g' (n + 1) true w r (typedDecl · attrs) fun r' ds => ∀ d ∈ ds, d.Fits r' := by
  refine .bind (declaredType_parses hg _) fun type r1 _ htype =>
    identifier_takesWords.past fun name => .look fun _ => ?_
  split
  · split
    · exact .fail
    · exact funcDecl_parses hg _ _ _ _ (htype _ rfl)
  · exact (globalDecls_parses hg _ _ htype h).inside

theorem declaration_parses {inherited : Attributes} (inAggregate : Bool)
    (h : inherited.storage.contains .lazy = false) :
    Both g g' (n + 1) true w r (declaration · inherited inAggregate)
      fun r' ds => ∀ d ∈ ds, d.Fits r' := by
  refine .bind (attributes_parses hg h) fun attrs r1 _ hattrs => .peek fun _ => ?_
  split
  · exact .taken nofun fun _ => hg.decls _ _ hattrs
  · exact .taken nofun fun _ => hg.decls _ _ hattrs
  · exact .taken nofun fun _ => .bind (dottedName_parses hg).inside fun _ _ _ _ =>
      .expect fun _ => .pure fun _ _ => by
        simpa using Decl.Fits.importModule
  · exact single_parses (aggregate_parses hg (by nofun) false)
  · exact single_parses (aggregate_parses hg (by nofun) true)
  · exact single_parses (enumeration_parses hg)
  · split
    · exact .taken nofun fun _ => funcDecl_parses hg _ _ _ _ TypeId.known_ofScalar
    · exact typedDecl_parses hg hattrs
  · exact typedDecl_parses hg hattrs

omit hg in
theorem atDeclsEnd_takesWords (stop : DeclsEnd) : TakesWords false (atDeclsEnd stop) := by
  cases stop with
  | brace unterminated =>
    refine eat_takesWords.andThen fun _ => ?_
    split
    · exact .pure fun _ _ => trivial
    · exact .look fun _ => .orFail fun _ => .pure fun _ _ => trivial
  | outerBrace => exact .look fun _ => .pure fun _ _ => trivial
  | endOfText => exact .look fun _ => .pure fun _ _ => trivial

theorem decls_parses {attrs : Attributes} (inAggregate : Bool) (stop : DeclsEnd)
    (h : attrs.storage.contains .lazy = false) :
    Both g g' (n + 1) false w r (decls · attrs inAggregate stop)
      fun r' ds => ∀ d ∈ ds, d.Fits r' := by
  refine andThen (atDeclsEnd_takesWords stop) fun _ => ?_
  split
  · exact .pure fun _ _ => by simp
  exact .past (declaration_parses hg _ h) fun ds r2 _ hds =>
    .bind (hg.decls _ _ h) fun es r3 h3 hes => .pure fun r' hr =>
      List.forall_mem_append.mpr ⟨fun d hd => ((hds d hd).mono h3).mono hr, fun d hd =>
        (hes d hd).mono hr⟩

/-! ## All rules -/

omit hg in
theorem parses_zero {α : Type} {b : Bool} {x y : Parser α} {Q : Reach → α → Prop} :
    Parses 0 b w r x y Q := fun s hs => by
  obtain ⟨kinds, hkinds⟩ := hs.ends
  simp [List.length_eq_zero_iff.mp (Nat.le_zero.mp hs.count)] at hkinds

omit hg in
/-- The rules of two depths agree up to the smaller one. -/
theorem rules_sound {d d' : Nat} (hd : n ≤ d) (hd' : n ≤ d') : (rules d).Sound n (rules d') := by
  induction n generalizing d d' with
  | zero => constructor <;> intros <;> exact parses_zero
  | succ n ih =>
    obtain ⟨d, rfl⟩ := Nat.exists_eq_add_of_lt hd
    obtain ⟨d', rfl⟩ := Nat.exists_eq_add_of_lt hd'
    have hg : (rules (n + d)).Sound n (rules (n + d')) :=
      ih (Nat.le_add_right ..) (Nat.le_add_right ..)
    exact {
      type := (type_parses hg).any
      typeTail := typeTail_parses hg
      parameters := fun l => (parameters_parses hg l).any
      parameterList := parameterList_parses hg
      unary := (unary_parses hg).any
      accessTail := accessTail_parses hg
      binary := fun least => (binary_parses hg least).any
      binaryTail := binaryTail_parses hg
      cond := (cond_parses hg).any
      assign := (assign_parses hg).any
      expr := (expr_parses hg).any
      commaTail := commaTail_parses hg
      arguments := arguments_parses hg
      traitArguments := traitArguments_parses hg
      statement := (statement_parses hg).any
      statements := statements_parses hg
      functionTail := functionTail_parses hg
      localDecls := localDecls_parses hg
      nameTail := nameTail_parses hg
      attributes := attributes_parses hg
      globalDecls := globalDecls_parses hg
      enumMembers := enumMembers_parses hg
      decls := decls_parses hg }

theorem moduleDecl_parses (defaultName : String) :
    Both g g' (n + 1) false w r (moduleDecl · defaultName)
      fun r' m => ∀ d ∈ m.decls, d.Fits r' := by
  refine eat_takesWords.andThen fun _ => ?_
  extract_lets rest rest'
  have hrest {r} (name : String) : Parses (n + 1) false none r (rest name) (rest' name)
      fun r' m => ∀ d ∈ m.decls, d.Fits r' :=
    .bind (decls_parses hg _ _ (by decide)) fun _ _ _ hds =>
      .pure fun r' hr d hd => (hds d hd).mono hr
  split
  · exact .bind (dottedName_parses hg) fun _ _ _ _ => .expect fun _ =>
      pure.andThen hrest
  · exact pure.andThen hrest

theorem wholeExpr_parses : Both g g' (n + 1) false w r wholeExpr fun r' e => e.In r' :=
  .bind (expr_parses hg) fun _ _ _ he => .expect fun _ =>
    .pure fun _ hr => he.mono hr

omit hg in
theorem kinds_wordsOf (cs : List (Nat × Char)) (ts : List Token) :
    (wordsOf cs ts).map (·.kind) = ts.map (·.kind) := by
  induction ts generalizing cs with
  | nil => rfl
  | cons t ts ih => exact congrArg (t.kind :: ·) (ih _)

end DCompiler.Grammar

namespace DCompiler.Grammar.Grown

variable {s s' : State} (h : Grown s s')
include h

theorem node_eq {e : ExprId} (he : e.index < s.exprs.size) : s'.exprs.node e = s.exprs.node e := by
  rw [ExprTable.node, ExprTable.node, h.exprs _ he]

theorem node_new {e : ExprId} (hnew : s.exprs.size ≤ e.index) (he : e.index < s'.exprs.size) :
    (s'.exprs.node e).Written s'.reach := by
  have hget : s'.exprs.nodes[e.index]? = some s'.exprs.nodes[e.index] :=
    Array.getElem?_eq_getElem he
  rw [ExprTable.node, hget]
  exact h.newExprs _ _ hnew hget

theorem stmt_eq_or_new (b : StmtId) :
    s'.stmts.kind b = s.stmts.kind b ∨ (s'.stmts.kind b).Fits s'.reach := by
  by_cases hold : b.index < s.stmts.size
  · rw [StmtTable.kind, StmtTable.kind, StmtTable.node, StmtTable.node, h.stmts _ hold]
    exact .inl rfl
  rw [StmtTable.kind, StmtTable.node]
  cases hb : s'.stmts.nodes[b.index]? with
  | none => exact .inr ⟨List.forall_mem_nil _, by rintro _ _ _ _ _ ⟨⟩, by rintro _ _ ⟨⟩⟩
  | some n => exact .inr (h.newStmts _ _ (Nat.le_of_not_lt hold) hb)

end DCompiler.Grammar.Grown

namespace DCompiler.SyntaxTables

def state (t : SyntaxTables) : Grammar.State := ⟨[], .synthetic, t.exprs, t.stmts, t.types⟩

/-- The state in which a source text is read. -/
def start (t : SyntaxTables) (source : String) : Grammar.State :=
  ⟨Grammar.words source (Token.lex source).tokens, .synthetic, t.exprs, t.stmts, t.types⟩

theorem length_start (t : SyntaxTables) (source : String) :
    (t.start source).rest.length = (Token.lex source).tokens.length := by
  simpa [start, Grammar.words] using congrArg List.length (Grammar.kinds_wordsOf _ _)

theorem ends_start (t : SyntaxTables) (source : String) : (t.start source).Ends := by
  obtain ⟨tokens, htokens, -⟩ := Token.lexFrom_tiles 0 (Text.bytes source)
  refine ⟨tokens.map (·.kind), ?_⟩
  show (Grammar.wordsOf _ (Token.lexFrom _ _).tokens).map _ = _
  rw [Grammar.kinds_wordsOf, htokens, List.map_append]
  rfl

def readWithin {α : Type} (t : SyntaxTables) (depth : Nat) (source : String)
    (p : Grammar.Rules → Grammar.Parser α) : Except ReadError (α × SyntaxTables) :=
  match (Token.lex source).faults with
  | (cause, span) :: _ => .error (.lexical cause span.start)
  | [] =>
    match p (Grammar.rules depth) (t.start source) with
    | .ok (a, s) => .ok (a, ⟨s.exprs, s.stmts, s.types⟩)
    | .error (.fault cause position) => .error (.grammatical cause position)
    | .error .exhausted => .error .exhausted

section

variable {α : Type} {t : SyntaxTables} {p : Grammar.Rules → Grammar.Parser α}
  {Q : Reach → α → Prop} (hp : ∀ {n g g'}, Grammar.Rules.Sound n g g' →
    Grammar.Parses (n + 1) false none t.state.reach (p g) (p g') Q)
  (ht : TypeTable.initial.Grows t.types) (source : String)
include hp ht

theorem agrees_start {d d' : Nat} (hd : (Token.lex source).tokens.length ≤ d)
    (hd' : (Token.lex source).tokens.length ≤ d') :
    Grammar.Agrees false (p (Grammar.rules d)) (p (Grammar.rules d')) Q (t.start source) := by
  rw [← t.length_start source] at hd hd'
  exact hp (Grammar.rules_sound hd hd') _
    ⟨t.ends_start source, Nat.le_succ _, nofun, Reach.le_refl _, ht⟩

theorem read_within (more : Nat) :
    t.readWithin ((Token.lex source).tokens.length + more) source p = t.read source p ∧
      t.read source p ≠ .error .exhausted := by
  have hread : t.read source p = t.readWithin ((t.start source).rest.length + 1) source p := rfl
  rw [hread, t.length_start source]
  have hagrees := agrees_start hp ht source (Nat.le_add_right _ more) (Nat.le_add_right _ 1)
  unfold readWithin
  split
  · exact ⟨rfl, nofun⟩
  cases hagrees with
  | stop hx hy => rw [hx, hy]; exact ⟨rfl, nofun⟩
  | done hx hy => rw [hx, hy]; exact ⟨rfl, nofun⟩

theorem read_grown {source : String} {t' : SyntaxTables} {a : α}
    (hread : t.read source p = .ok (a, t')) :
    Grammar.Grown t.state t'.state ∧ Q t'.state.reach a := by
  have hbefore : Grammar.Grown t.state (t.start source) := .of_same rfl rfl rfl
  rw [← (read_within hp ht source 0).1] at hread
  unfold readWithin at hread
  split at hread
  · cases hread
  cases agrees_start hp ht source .refl .refl with
  | stop hx =>
    rw [Nat.add_zero, hx] at hread
    cases hread
  | done hx _ _ _ hgrown ha =>
    rw [Nat.add_zero, hx] at hread
    cases hread
    exact ⟨(hbefore.trans hgrown).trans (.of_same rfl rfl rfl), ha⟩

end

theorem readModule_grown {t t' : SyntaxTables} {source name : String} {m : ModuleDecl}
    (ht : TypeTable.initial.Grows t.types) (hread : t.readModule source name = .ok (m, t')) :
    Grammar.Grown t.state t'.state ∧ ∀ d ∈ m.decls, d.Fits t'.state.reach :=
  read_grown (fun hg => Grammar.moduleDecl_parses hg name) ht hread

theorem readExpr_grown {t t' : SyntaxTables} {source : String} {e : ExprId}
    (ht : TypeTable.initial.Grows t.types) (hread : t.readExpr source = .ok (e, t')) :
    Grammar.Grown t.state t'.state ∧ e.In t'.state.reach :=
  read_grown Grammar.wholeExpr_parses ht hread

/-- **Reading terminates.** A source text is read as a module or as an expression with a depth of
calls of its number of words, and more depth gives the same tree or the same fault. -/
theorem reading_terminates {t : SyntaxTables} (ht : TypeTable.initial.Grows t.types)
    (source : String) (more : Nat) :
    (∀ name, t.readWithin ((Token.lex source).tokens.length + more) source
          (Grammar.moduleDecl · name) = t.readModule source name ∧
        t.readModule source name ≠ .error .exhausted) ∧
      t.readWithin ((Token.lex source).tokens.length + more) source Grammar.wholeExpr =
          t.readExpr source ∧
        t.readExpr source ≠ .error .exhausted :=
  ⟨fun name => read_within (fun hg => Grammar.moduleDecl_parses hg name) ht source more,
    read_within Grammar.wholeExpr_parses ht source more⟩

/-- The tables that a session starts with, and a text that needs depth. -/
theorem reading_terminatesNested :
    SyntaxTables.empty.readWithin 100 "((1 + 2) * f(3))[4]" Grammar.wholeExpr =
        SyntaxTables.empty.readExpr "((1 + 2) * f(3))[4]" ∧
      (SyntaxTables.empty.readExpr "((1 + 2) * f(3))[4]").isOk = true := by
  have hlength : (Token.lex "((1 + 2) * f(3))[4]").tokens.length = 16 := by decide +kernel
  have hread := (reading_terminates (t := .empty) .refl "((1 + 2) * f(3))[4]" 84).2.1
  rw [hlength] at hread
  exact ⟨hread, by decide +kernel⟩

end DCompiler.SyntaxTables
