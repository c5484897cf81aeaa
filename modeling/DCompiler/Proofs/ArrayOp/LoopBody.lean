import DCompiler.Proofs.ArrayOp.Walk
import Mathlib.Data.List.Forall2

/-!
# The loop of an array operation

The function for an array assignment has a parameter for each operand and a loop whose body is the
operation on one element. With the arguments for its parameters the body does for every index what
the operation does to the elements of that index, whatever the operators do to values and wherever
the operands are; and so the loop does what the operation does to all elements.
-/

namespace DCompiler.Analyse

open List ElementTree ExprTable

/-! ## Identifiers -/

/-- The identifiers in an expression, from left to right. -/
inductive Identifiers (x : ExprTable) : ExprId → List String → Prop where
  | name {e name} (hkind : x.kind e = .identifier name) : Identifiers x e [name]
  | parts {e names} (hkind : ∀ name, x.kind e ≠ .identifier name)
    (hparts : Forall₂ (Identifiers x) (x.children e) names) : Identifiers x e names.flatten

/-- Apart from the index, the identifiers in an expression for one element are its operands. -/
theorem Denotes.identifiers {x : ExprTable} {b : ExprId} {t : ElementTree String}
    (h : Denotes x b t) (ht : "p" ∉ t.operands) :
    ∃ names, Identifiers x b names ∧ (names.filter (· ≠ "p")).Perm t.operands := by
  induction h with
  | @element b array place name hkind harray hplace =>
    refine ⟨[[name], ["p"]].flatten, .parts (by simp [hkind]) ?_, ?_⟩
    · rw [children, hkind]
      exact .cons (.name harray) (.cons (.name hplace) .nil)
    · have hne : name ≠ "p" := fun h => ht (by simp [h, operands])
      simp [operands, hne]
  | @value b name hkind =>
    have hne : name ≠ "p" := fun h => ht (by simp [h, operands])
    exact ⟨[name], .name hkind, by simp [operands, hne]⟩
  | @assign b op lhs rhs l r hkind _ _ ihl ihr =>
    simp only [operands, mem_append, not_or] at ht
    obtain ⟨ls, hls, hlperm⟩ := ihl ht.2
    obtain ⟨rs, hrs, hrperm⟩ := ihr ht.1
    refine ⟨[ls, rs].flatten, .parts (by simp [hkind]) ?_, ?_⟩
    · rw [children, hkind]
      exact .cons hls (.cons hrs .nil)
    · simpa [operands] using perm_append_comm.trans (hrperm.append hlperm)
  | @convert b op lhs rhs v type l r hkind hcast _ _ ihl ihr =>
    simp only [operands, mem_append, not_or] at ht
    obtain ⟨ls, hls, hlperm⟩ := ihl ht.2
    obtain ⟨rs, hrs, hrperm⟩ := ihr ht.1
    have hv : Identifiers x rhs [rs].flatten := by
      refine .parts (by simp [hcast]) ?_
      rw [children, hcast]
      exact .cons hrs .nil
    refine ⟨[ls, [rs].flatten].flatten, .parts (by simp [hkind]) ?_, ?_⟩
    · rw [children, hkind]
      exact .cons hls (.cons hv .nil)
    · simpa [operands] using perm_append_comm.trans (hrperm.append hlperm)
  | @binary b op lhs rhs l r hkind _ _ ihl ihr =>
    simp only [operands, mem_append, not_or] at ht
    obtain ⟨ls, hls, hlperm⟩ := ihl ht.1
    obtain ⟨rs, hrs, hrperm⟩ := ihr ht.2
    refine ⟨[ls, rs].flatten, .parts (by simp [hkind]) ?_, ?_⟩
    · rw [children, hkind]
      exact .cons hls (.cons hrs .nil)
    · simpa [operands] using hlperm.append hrperm
  | @unary b op operand t hkind _ ih =>
    obtain ⟨names, hnames, hperm⟩ := ih ht
    refine ⟨[names].flatten, .parts (by simp [hkind]) ?_, ?_⟩
    · rw [children, hkind]
      exact .cons hnames .nil
    · simpa [operands] using hperm

/-! ## The loop -/

/-- A statement that applies an expression to one element after the other of an array, and returns
the array. -/
inductive LoopsOver (p : Tables) (array : String) (element : ExprId) : StmtId → Prop where
  | intro {body block loop ret step : StmtId} {zero length inLength result : ExprId}
    (hbody : p.stmts.kind body = .scope block)
    (hblock : p.stmts.kind block = .block [loop, ret])
    (hloop : p.stmts.kind loop = .foreachRange "p" zero length step none)
    (hzero : p.exprs.kind zero = .integer 0 none)
    (hlength : p.exprs.kind length = .length inLength)
    (hinLength : p.exprs.kind inLength = .identifier array)
    (hstep : p.stmts.kind step = .expr element)
    (hret : p.stmts.kind ret = .ret (some result))
    (hresult : p.exprs.kind result = .identifier array) : LoopsOver p array element body

theorem arrayOpBody_loops (h : Analyser) (s : Analysis) (array : String) (element : ExprId)
    (place : Span) :
    ∃ body u, (arrayOpBody array element place).run h s = some (body, u) ∧
      s.toTables.Extends u.toTables ∧ LoopsOver u.toTables array element body := by
  obtain ⟨zero, u1, hrun1, hk1, hu1⟩ := addExpr_adds h s (.integer 0 none) place
  obtain ⟨inLength, u2, hrun2, hk2, hu2⟩ := addExpr_adds h u1 (.identifier array) place
  obtain ⟨length, u3, hrun3, hk3, hu3⟩ := addExpr_adds h u2 (.length inLength) place
  obtain ⟨step, u4, hrun4, hk4, hu4⟩ := addStmt_adds h u3 (.expr element) place
  obtain ⟨loop, u5, hrun5, hk5, hu5⟩ :=
    addStmt_adds h u4 (.foreachRange "p" zero length step none) place
  obtain ⟨result, u6, hrun6, hk6, hu6⟩ := addExpr_adds h u5 (.identifier array) place
  obtain ⟨ret, u7, hrun7, hk7, hu7⟩ := addStmt_adds h u6 (.ret (some result)) place
  obtain ⟨block, u8, hrun8, hk8, hu8⟩ := addStmt_adds h u7 (.block [loop, ret]) place
  obtain ⟨body, u9, hrun9, hk9, hu9⟩ := addStmt_adds h u8 (.scope block) place
  -- Each part is still there when the last one is added.
  have h8 := hu8.trans hu9
  have h7 := hu7.trans h8
  have h6 := hu6.trans h7
  have h5 := hu5.trans h6
  have h4 := hu4.trans h5
  have h3 := hu3.trans h4
  have h2 := hu2.trans h3
  refine ⟨body, u9, ?_, hu1.trans h2, .intro hk9 (hu9.stmts.kind hk8 (by simp))
    (h6.stmts.kind hk5 (by simp)) (h2.exprs.kind hk1 (by simp)) (h4.exprs.kind hk3 (by simp))
    (h3.exprs.kind hk2 (by simp)) (h5.stmts.kind hk4 (by simp)) (h8.stmts.kind hk7 (by simp))
    (h7.exprs.kind hk6 (by simp))⟩
  simp only [arrayOpBody, run_bind, hrun1, hrun2, hrun3, hrun4, hrun5, hrun6, hrun7, hrun8, hrun9,
    Option.bind_some]

/-! ## The operation and its loop -/

def operandNamed (operands : List ArrayOperand) (name : String) : ExprId :=
  ((operands.find? (·.param.name = some name)).map (·.expr)).getD ⟨0⟩

theorem operandNamed_eq {operands : List ArrayOperand}
    (hnodup : (operands.map (·.param.name)).Nodup) {o : ArrayOperand} (ho : o ∈ operands)
    {name : String} (hname : o.param.name = some name) :
    operandNamed operands name = o.expr := by
  induction operands with
  | nil => simp at ho
  | cons x rest ih =>
    rw [map_cons, nodup_cons] at hnodup
    rcases mem_cons.mp ho with rfl | ho
    · simp [operandNamed, hname]
    have hne : x.param.name ≠ some name := fun h =>
      hnodup.1 (mem_map.mpr ⟨o, ho, hname.trans h.symm⟩)
    rw [← ih hnodup.2 ho]
    simp [operandNamed, hne]

/-- An expression over names and the operation that it stands for. -/
structure Implements (p : Tables) (e : ExprId) (t : ElementTree ExprId) (x : ExprTable)
    (body : ExprId) (tree : ElementTree String) : Prop where
  denotes : Denotes x body tree
  /-- The arguments are the operands of the operation, the last one first. -/
  arguments : (partsOf p e).operands.map (·.expr) = t.operands.reverse
  /-- The parameters are the operands of the expression, the last one first. -/
  parameters : (partsOf p e).operands.map (·.param.name) = (tree.operands.map some).reverse
  once : tree.operands.Nodup
  identifiers : ∃ names, Identifiers x body names ∧ (names.filter (· ≠ "p")).Perm tree.operands
  /-- For each element both have the same value and leave the same memory. -/
  eval : ∀ {V L : Type} [DecidableEq L] (m : Arithmetic V) (env : OperandEnv ExprId V L) (i : Nat)
    (memory : L → V), tree.eval m (env.comap (operandNamed (partsOf p e).operands)) i memory =
      t.eval m env i memory
  /-- So do both for all elements. -/
  evalTo : ∀ {V L : Type} [DecidableEq L] (m : Arithmetic V) (env : OperandEnv ExprId V L)
    (count : Nat) (memory : L → V),
    tree.evalTo m (env.comap (operandNamed (partsOf p e).operands)) count memory =
      t.evalTo m env count memory

section

variable {p : Tables} {e : ExprId} {t : ElementTree ExprId}

theorem partsOf_bound (h : Walked p e t) : (partsOf p e).operands.map (·.bound) = boundIn t 0 := by
  have hbound := arrayOpParts_operands h h.height_le {}
  simpa [partsOf] using hbound

theorem partsOf_arguments (h : Walked p e t) :
    (partsOf p e).operands.map (·.expr) = t.operands.reverse := by
  have hfst := congrArg (List.map Prod.fst) (partsOf_bound h)
  simpa [boundIn, ArrayOperand.bound, Function.comp_def, map_fst_zip] using hfst

theorem partsOf_parameters (h : Walked p e t) :
    (partsOf p e).operands.map (·.param.name) = ((t.named 0).operands.map some).reverse := by
  have hsnd := congrArg (List.map Prod.snd) (partsOf_bound h)
  simpa [boundIn, ArrayOperand.bound, Function.comp_def, map_snd_zip] using hsnd

theorem map_operandNamed (h : Walked p e t) :
    (t.named 0).map (operandNamed (partsOf p e).operands) = t := by
  have hnodup : ((partsOf p e).operands.map (·.param.name)).Nodup := by
    rw [partsOf_parameters h, nodup_reverse]
    exact (t.nodup_named 0).map fun _ _ => Option.some.inj
  have hpair : ∀ a n, (a, n) ∈ t.operands.zip (t.named 0).operands →
      operandNamed (partsOf p e).operands n = a := by
    intro a n hmem
    have hbound : (a, some n) ∈ (partsOf p e).operands.map (·.bound) := by
      rw [partsOf_bound h, boundIn, mem_reverse, zip_map_right]
      exact mem_map.mpr ⟨(a, n), hmem, rfl⟩
    obtain ⟨o, ho, hoan⟩ := mem_map.mp hbound
    obtain ⟨rfl, hn⟩ := Prod.mk.inj hoan
    exact operandNamed_eq hnodup ho hn
  apply map_named
  calc (t.named 0).operands.map (operandNamed (partsOf p e).operands)
      = ((t.operands.zip (t.named 0).operands).map Prod.snd).map
          (operandNamed (partsOf p e).operands) := by rw [map_snd_zip (by simp)]
    _ = (t.operands.zip (t.named 0).operands).map
          fun q => operandNamed (partsOf p e).operands q.2 := map_map
    _ = (t.operands.zip (t.named 0).operands).map Prod.fst :=
        map_congr_left fun q hq => hpair q.1 q.2 hq
    _ = t.operands := map_fst_zip (by simp)

/-- The first parameter receives the slice that is assigned to. -/
theorem partsOf_head {op : AssignOp} {lhs rhs base : ExprId} {fill : Bool}
    {lower upper : Option ExprId} {lengthVar : Option SymbolId}
    (hroot : p.exprs.kind e = .assign op lhs rhs fill)
    (hslice : p.exprs.kind lhs = .slice base lower upper lengthVar) :
    ∃ first rest,
      (partsOf p e).operands = ⟨lhs, ⟨p.typeOf lhs, .none, some first, none⟩⟩ :: rest := by
  obtain ⟨n, hn⟩ := Nat.exists_eq_succ_of_ne_zero
    (Nat.ne_of_gt (Nat.zero_lt_of_lt (index_lt_of_kind hroot (by simp))))
  simp only [partsOf, hn, arrayOpParts, arrayOpNode, hroot, hslice]
  exact ⟨_, _, rfl⟩

end

/-- The loop that is made for an array assignment assigns element by element. -/
theorem loop_computes_operation {s : Analysis} {e lhs rhs base : ExprId} {op : AssignOp}
    {fill : Bool} {lower upper : Option ExprId} {lengthVar : Option SymbolId}
    {t : ElementTree ExprId} (hroot : s.exprs.kind e = .assign op lhs rhs fill)
    (hslice : s.exprs.kind lhs = .slice base lower upper lengthVar)
    (hreads : Reads s.toTables e t) (h : Analyser) (place : Span) :
    ∃ body u tree first rest,
      (elementExpr place (s.exprs.size + 1) e 0).run h s = some ((body, t.operands.length), u) ∧
      s.toTables.Extends u.toTables ∧ Implements s.toTables e t u.exprs body tree ∧
      (partsOf s.toTables e).operands =
        ⟨lhs, ⟨s.toTables.typeOf lhs, .none, some first, none⟩⟩ :: rest ∧
      (∀ {V L : Type} [DecidableEq L] (m : Arithmetic V) (env : OperandEnv ExprId V L) (i : Nat)
        (memory : L → V),
        (t.eval m env i memory).place = some (env.element lhs i) ∧
        (t.eval m env i memory).memory (env.element lhs i) = (t.eval m env i memory).result) ∧
      ∀ v : Analysis, v.exprs = u.exprs →
        ∃ loop w, (arrayOpBody first body place).run h v = some (loop, w) ∧
          LoopsOver w.toTables first body loop ∧ Denotes w.exprs body tree := by
  have hwalked := hreads.walked
  have hmap := map_operandNamed hwalked
  obtain ⟨body, u, hrun, hu, hdenotes⟩ := elementExpr_denotes hwalked
    hwalked.height_le h .refl place 0
  obtain ⟨first, rest, hfirst⟩ := partsOf_head hroot hslice
  refine ⟨body, u, t.named 0, first, rest, by simpa using hrun, hu, ?_, hfirst, ?_, ?_⟩
  · refine ⟨hdenotes, partsOf_arguments hwalked, partsOf_parameters hwalked, t.nodup_named 0,
      hdenotes.identifiers (t.letter_not_mem_named 0 (by decide)), ?_, ?_⟩
    · intro V L _ m env i memory
      rw [← eval_map, hmap]
    · intro V L _ m env count memory
      simp only [evalTo, ← eval_map, hmap]
  · intro V L _ m env i memory
    obtain ⟨convert, source, rfl⟩ := hreads.assigns hroot hslice
    simp [eval, store]
  · intro v hv
    obtain ⟨loop, w, hloop, hw, hloops⟩ := arrayOpBody_loops h v first body place
    exact ⟨loop, w, hloop, hloops, hdenotes.extends (hv ▸ hw.exprs)⟩

/-- The nodes of `d[] = -b[] * x + (a[] += [])`, where the elements of `d` are of another type than
the others. -/
def mixedNodes : List ExprNode :=
  let ints : TypeId := ⟨25⟩
  let doubles : TypeId := ⟨26⟩
  [⟨.symbolRef ⟨0⟩, .synthetic, some doubles⟩,
    ⟨.slice ⟨0⟩ none none none, .synthetic, some doubles⟩,
    ⟨.symbolRef ⟨1⟩, .synthetic, some ints⟩, ⟨.slice ⟨2⟩ none none none, .synthetic, some ints⟩,
    ⟨.unary .neg ⟨3⟩, .synthetic, some ints⟩,
    ⟨.symbolRef ⟨2⟩, .synthetic, some (.ofScalar .int)⟩,
    ⟨.binary .mul ⟨4⟩ ⟨5⟩, .synthetic, some ints⟩,
    ⟨.symbolRef ⟨3⟩, .synthetic, some ints⟩, ⟨.slice ⟨7⟩ none none none, .synthetic, some ints⟩,
    ⟨.array [], .synthetic, some ints⟩,
    ⟨.assign (.compound .add) ⟨8⟩ ⟨9⟩ false, .synthetic, some ints⟩,
    ⟨.binary .add ⟨6⟩ ⟨10⟩, .synthetic, some ints⟩,
    ⟨.assign .plain ⟨1⟩ ⟨11⟩ false, .synthetic, some doubles⟩]

def mixed : Analysis :=
  .ofProgram { Program.empty default with
    types := ⟨TypeTable.initial.kinds ++
      #[.dynArray (.ofScalar .int), .dynArray (.ofScalar .float64)]⟩
    exprs := ⟨mixedNodes.toArray⟩ }

def mixedTree : ElementTree ExprId :=
  .assign .plain (some (.ofScalar .float64)) (.element ⟨1⟩)
    (.binary .add (.binary .mul (.unary .neg (.element ⟨3⟩)) (.value ⟨5⟩))
      (.assign (.compound .add) none (.element ⟨8⟩) (.element ⟨9⟩)))

theorem reads_mixed : Reads mixed.toTables ⟨12⟩ mixedTree := by
  have hconversion : conversion mixed.toTables .plain ⟨1⟩ ⟨11⟩ = some (.ofScalar .float64) := by
    decide +kernel
  rw [mixedTree, ← hconversion]
  refine .assign rfl (.slice rfl) (.binary rfl (by decide +kernel) (by decide) (.binary rfl
    (by decide +kernel) (by decide) (.unary rfl (by decide +kernel) (.inl rfl) (.slice rfl)) ?_) ?_)
  · exact .scalar ⟨by decide, by decide +kernel, trivial⟩
  · exact .assign rfl (.slice rfl) (.literal rfl)

theorem loop_computes_mixed : Reads mixed.toTables ⟨12⟩ mixedTree ∧
    ∃ body u tree, (elementExpr .synthetic 14 ⟨12⟩ 0).run (analyser 0) mixed =
      some ((body, 5), u) ∧ Implements mixed.toTables ⟨12⟩ mixedTree u.exprs body tree := by
  obtain ⟨body, u, tree, first, rest, hrun, -, hbody, -⟩ :=
    loop_computes_operation rfl rfl reads_mixed (analyser 0) .synthetic
  exact ⟨reads_mixed, body, u, tree, hrun, hbody⟩

end DCompiler.Analyse
