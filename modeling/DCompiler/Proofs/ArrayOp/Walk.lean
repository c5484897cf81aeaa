import DCompiler.Proofs.Analysis.Run

/-!
# The two walks over an array operation

An array operation, and what it does to the elements of one index, is a tree (`ElementTree`). Its
operands are elements of arrays or values that are the same for all elements. The tree is evaluated
in the order of the language, where an assignment takes its source first. The operands can be named
by their numbers in that order (`named`), and a named tree with its names replaced by the operands
is the tree again (`map_named`).

An array operation is walked twice. The first walk collects the operands and names their parameters,
the last one first. The second walk builds the operation on one element over these names, and counts
the operands again. `Reads` says which operations have no casts and what they do to elements; both
walks see such an operation as the same tree (`Walked`).
-/

namespace DCompiler

open List

/-- An operation on elements with operands of a type. -/
inductive ElementTree (α : Type) where
  /-- An element of an array. -/
  | element (array : α)
  /-- The same for all elements. -/
  | value (scalar : α)
  /-- An assignment, which converts what it assigns to an element type if that is told. -/
  | assign (op : AssignOp) (convert : Option TypeId) (target source : ElementTree α)
  | binary (op : BinaryOp) (lhs rhs : ElementTree α)
  | unary (op : UnaryOp) (operand : ElementTree α)
  deriving Repr, DecidableEq

/-- What operators and conversions do to values. An assignment with an operator may do something
else than the operator. -/
structure Arithmetic (V : Type) where
  binary : BinaryOp → V → V → V
  update : BinaryOp → V → V → V
  unary : UnaryOp → V → V
  convert : TypeId → V → V

/-- What operands stand for. An array stands for the places of its elements; another operand is
known by its value or by its place. Different operands can have the same place. -/
structure OperandEnv (α V L : Type) where
  element : α → Nat → L
  value : α → V ⊕ L

def OperandEnv.comap {α β V L : Type} (f : β → α) (env : OperandEnv α V L) : OperandEnv β V L :=
  ⟨fun b => env.element (f b), fun b => env.value (f b)⟩

/-- What evaluation gives: a value, its place if it has one, and the memory. -/
structure Evaluated (V L : Type) where
  result : V
  place : Option L
  memory : L → V

namespace ElementTree

variable {α β V L : Type}

/-! ## Evaluation -/

def store [DecidableEq L] (memory : L → V) (place : Option L) (v : V) : L → V :=
  fun l => if place = some l then v else memory l

/-- Evaluate a tree for the elements of an index. -/
def eval [DecidableEq L] (m : Arithmetic V) (env : OperandEnv α V L) (i : Nat) :
    ElementTree α → (L → V) → Evaluated V L
  | element a, memory => ⟨memory (env.element a i), some (env.element a i), memory⟩
  | value a, memory =>
    match env.value a with
    | .inl v => ⟨v, none, memory⟩
    | .inr place => ⟨memory place, some place, memory⟩
  | assign op convert target source, memory =>
    let new := source.eval m env i memory
    let old := target.eval m env i new.memory
    let v := convert.elim new.result fun type => m.convert type new.result
    let v := match op with
      | .plain => v
      | .compound op => m.update op old.result v
    ⟨v, old.place, store old.memory old.place v⟩
  | binary op lhs rhs, memory =>
    let l := lhs.eval m env i memory
    let r := rhs.eval m env i l.memory
    ⟨m.binary op l.result r.result, none, r.memory⟩
  | unary op operand, memory =>
    let o := operand.eval m env i memory
    ⟨m.unary op o.result, none, o.memory⟩

/-- The memory after evaluation for the first elements, one after the other. -/
def evalTo [DecidableEq L] (m : Arithmetic V) (env : OperandEnv α V L) (t : ElementTree α)
    (count : Nat) (memory : L → V) : L → V :=
  (List.range count).foldl (fun memory i => (t.eval m env i memory).memory) memory

def map (f : α → β) : ElementTree α → ElementTree β
  | element a => element (f a)
  | value a => value (f a)
  | assign op convert target source => assign op convert (target.map f) (source.map f)
  | binary op lhs rhs => binary op (lhs.map f) (rhs.map f)
  | unary op operand => unary op (operand.map f)

/-- A tree does with operands what it does with others that they stand for. -/
theorem eval_map [DecidableEq L] (m : Arithmetic V) (env : OperandEnv β V L) (f : α → β) (i : Nat)
    (t : ElementTree α) (memory : L → V) :
    (t.map f).eval m env i memory = t.eval m (env.comap f) i memory := by
  induction t generalizing memory with
  | element a => rfl
  | value a => rfl
  | assign op convert target source htarget hsource => simp only [map, eval, htarget, hsource]
  | binary op lhs rhs hlhs hrhs => simp only [map, eval, hlhs, hrhs]
  | unary op operand hoperand => simp only [map, eval, hoperand]

/-! ## Operands -/

def operands : ElementTree α → List α
  | element a | value a => [a]
  | assign _ _ target source => source.operands ++ target.operands
  | binary _ lhs rhs => lhs.operands ++ rhs.operands
  | unary _ operand => operand.operands

/-- The tree with its operands named by letters and by their numbers. -/
def named (count : Nat) : ElementTree α → ElementTree String
  | element _ => element ("p" ++ toString count)
  | value _ => value ("c" ++ toString count)
  | assign op convert target source =>
    assign op convert (target.named (count + source.operands.length)) (source.named count)
  | binary op lhs rhs => binary op (lhs.named count) (rhs.named (count + lhs.operands.length))
  | unary op operand => unary op (operand.named count)

/-- How many steps lead from the root to an operand at most. -/
def height : ElementTree α → Nat
  | element _ | value _ => 1
  | assign _ _ target source => max target.height source.height + 1
  | binary _ lhs rhs => max lhs.height rhs.height + 1
  | unary _ operand => operand.height + 1

theorem exists_succ_of_height_le {t : ElementTree α} {depth : Nat} (h : t.height ≤ depth) :
    ∃ d, depth = d + 1 := by
  have hpos : 0 < t.height := by cases t <;> simp [height]
  exact Nat.exists_eq_succ_of_ne_zero (by omega)

@[simp] theorem length_operands_named (t : ElementTree α) (count : Nat) :
    (t.named count).operands.length = t.operands.length := by
  induction t generalizing count with
  | element a => rfl
  | value a => rfl
  | assign op convert target source htarget hsource => simp [named, operands, htarget, hsource]
  | binary op lhs rhs hlhs hrhs => simp [named, operands, hlhs, hrhs]
  | unary op operand hoperand => simp [named, operands, hoperand]

theorem map_named (t : ElementTree α) {f : String → α} {count : Nat}
    (hf : (t.named count).operands.map f = t.operands) : (t.named count).map f = t := by
  induction t generalizing count with
  | element a =>
    exact congrArg element (cons.inj hf).1
  | value a =>
    exact congrArg value (cons.inj hf).1
  | assign op convert target source htarget hsource =>
    simp only [named, operands, map_append] at hf
    obtain ⟨hs, ht⟩ := append_inj hf (by simp)
    simp only [named, map, htarget ht, hsource hs]
  | binary op lhs rhs hlhs hrhs =>
    simp only [named, operands, map_append] at hf
    obtain ⟨hl, hr⟩ := append_inj hf (by simp)
    simp only [named, map, hlhs hl, hrhs hr]
  | unary op operand hoperand =>
    simp only [named, map, hoperand hf]

/-! ## Names -/

/-- The number behind the first letter of a name. -/
def numberOf (name : String) : Nat := Nat.ofDigitChars 10 name.toList.tail 0

theorem numberOf_name (letter : Char) (n : Nat) :
    numberOf (String.singleton letter ++ toString n) = n := by
  have htail : (String.singleton letter ++ toString n).toList.tail = Nat.toDigits 10 n := by
    simp [Nat.toList_repr]
  rw [numberOf, htail, Nat.ofDigitChars_ten_toDigits]

/-- The names are numbered in the order of evaluation. -/
theorem numbers_named (t : ElementTree α) (count : Nat) :
    (t.named count).operands.map numberOf = range' count t.operands.length := by
  induction t generalizing count with
  | element a => exact congrArg (fun n => [n]) (numberOf_name 'p' count)
  | value a => exact congrArg (fun n => [n]) (numberOf_name 'c' count)
  | assign op convert target source htarget hsource =>
    simp only [named, operands, map_append, length_append, htarget, hsource, range'_append_1]
  | binary op lhs rhs hlhs hrhs =>
    simp only [named, operands, map_append, length_append, hlhs, hrhs, range'_append_1]
  | unary op operand hoperand => exact hoperand count

theorem nodup_named (t : ElementTree α) (count : Nat) : (t.named count).operands.Nodup := by
  refine Nodup.of_map numberOf ?_
  rw [numbers_named]
  exact nodup_range'

theorem letter_not_mem_named (t : ElementTree α) (count : Nat) {name : String}
    (hname : name.toList.length = 1) : name ∉ (t.named count).operands := by
  have hlonger (letter : Char) (n : Nat) : name ≠ String.singleton letter ++ toString n := by
    rintro rfl
    simp [Nat.toList_repr] at hname
  induction t generalizing count with
  | element a => exact fun h => hlonger 'p' count (mem_singleton.mp h)
  | value a => exact fun h => hlonger 'c' count (mem_singleton.mp h)
  | assign op convert target source htarget hsource =>
    simpa [named, operands] using ⟨hsource _, htarget _⟩
  | binary op lhs rhs hlhs hrhs => simpa [named, operands] using ⟨hlhs _, hrhs _⟩
  | unary op operand hoperand => exact hoperand count

end ElementTree

end DCompiler

namespace DCompiler

open ElementTree ExprTable

/-! ## Tables that grow -/

/-- Expressions and statements were added, and nothing changed in the types. -/
structure Tables.Extends (p q : Tables) : Prop where
  exprs : p.exprs.Extends q.exprs
  stmts : p.stmts.Extends q.stmts
  types : q.types = p.types

namespace Tables.Extends

variable {p q r : Tables} {e : ExprId}

theorem refl : p.Extends p := ⟨.refl, .refl, rfl⟩

theorem trans (h : p.Extends q) (h' : q.Extends r) : p.Extends r :=
  ⟨h.exprs.trans h'.exprs, h.stmts.trans h'.stmts, h'.types.trans h.types⟩

theorem typeOf (h : p.Extends q) (he : e.index < p.exprs.size) : q.typeOf e = p.typeOf e := by
  simp only [Tables.typeOf, type?, h.exprs.node e he]

theorem arrayOpNode (h : p.Extends q) (he : e.index < p.exprs.size) :
    Analyse.arrayOpNode q e = Analyse.arrayOpNode p e := by
  simp only [Analyse.arrayOpNode, Tables.isArray, h.typeOf he, h.types, kind, h.exprs.node e he]
  rfl

end Tables.Extends

namespace Analyse

theorem addExpr_adds (h : Analyser) (s : Analysis) (k : Expr) (span : Span) :
    ∃ e u, (addExpr k span).run h s = some (e, u) ∧ u.exprs.kind e = k ∧
      s.toTables.Extends u.toTables := by
  refine ⟨_, _, rfl, ?_, .addNode _, .refl, rfl⟩
  exact congrArg ExprNode.kind (s.exprs.node_addNode_self _)

theorem addStmt_adds (h : Analyser) (s : Analysis) (k : Stmt) (span : Span) :
    ∃ b u, (addStmt k span).run h s = some (b, u) ∧ u.stmts.kind b = k ∧
      s.toTables.Extends u.toTables :=
  ⟨_, _, rfl, StmtTable.kind_add k span, .refl, .add k span, rfl⟩

/-! ## The operation -/

def IsScalar (p : Tables) (e : ExprId) : Prop :=
  e.index < p.exprs.size ∧ p.isArray e = false ∧
    match p.exprs.kind e with
    | .slice _ _ _ _ | .array _ | .assign _ _ _ _ => False
    | _ => True

/-- The element type that an assignment converts to: that of its target, if the source has another
one. Assignments with an operator do not convert. -/
def conversion (p : Tables) (op : AssignOp) (target source : ExprId) : Option TypeId :=
  match op with
  | .compound _ => none
  | .plain => (p.types.next? (p.typeOf target)).filter fun elem =>
      (p.types.next? (p.typeOf source)).getD (p.typeOf source) ≠ elem

/-- An array operation without casts, and what it does to elements. -/
inductive Reads (p : Tables) : ExprId → ElementTree ExprId → Prop where
  | slice {e base lower upper lengthVar}
    (hkind : p.exprs.kind e = .slice base lower upper lengthVar) : Reads p e (.element e)
  | literal {e elems} (hkind : p.exprs.kind e = .array elems) : Reads p e (.element e)
  | scalar {e} (hscalar : IsScalar p e) : Reads p e (.value e)
  | assign {e op lhs rhs fill l r} (hkind : p.exprs.kind e = .assign op lhs rhs fill)
    (hlhs : Reads p lhs l) (hrhs : Reads p rhs r) :
    Reads p e (.assign op (conversion p op lhs rhs) l r)
  | binary {e op lhs rhs l r} (hkind : p.exprs.kind e = .binary op lhs rhs)
    (harray : p.isArray e) (hop : op.isElementwise) (hlhs : Reads p lhs l) (hrhs : Reads p rhs r) :
    Reads p e (.binary op l r)
  | unary {e op operand t} (hkind : p.exprs.kind e = .unary op operand)
    (harray : p.isArray e) (hop : op = .neg ∨ op = .complement) (hoperand : Reads p operand t) :
    Reads p e (.unary op t)

variable {p : Tables} {t : ElementTree ExprId}

theorem Reads.assigns {e lhs rhs base : ExprId} {op : AssignOp} {fill : Bool}
    {lower upper : Option ExprId} {lengthVar : Option SymbolId} (h : Reads p e t)
    (hroot : p.exprs.kind e = .assign op lhs rhs fill)
    (hslice : p.exprs.kind lhs = .slice base lower upper lengthVar) :
    ∃ convert source, t = .assign op convert (.element lhs) source := by
  cases h with
  | assign hkind hlhs _ =>
    obtain ⟨rfl, rfl, rfl, -⟩ := Expr.assign.inj (hroot.symm.trans hkind)
    cases hlhs with
    | slice _ => exact ⟨_, _, rfl⟩
    | _ => simp_all [IsScalar]
  | _ => simp_all [IsScalar]

/-- The same as far as the walks over an operation see it. -/
inductive Walked (p : Tables) : ExprId → ElementTree ExprId → Prop where
  | element {e} (hin : e.index < p.exprs.size) (hnode : arrayOpNode p e = .slice) :
    Walked p e (.element e)
  | value {e} (hin : e.index < p.exprs.size) (hnode : arrayOpNode p e = .plain) :
    Walked p e (.value e)
  | assign {e op lhs rhs l r} (hin : e.index < p.exprs.size)
    (hnode : arrayOpNode p e = .assign op lhs rhs) (hlhs : Walked p lhs l) (hrhs : Walked p rhs r) :
    Walked p e (.assign op (conversion p op lhs rhs) l r)
  | binary {e op lhs rhs l r} (hin : e.index < p.exprs.size)
    (hnode : arrayOpNode p e = .binary op lhs rhs) (hlhs : Walked p lhs l) (hrhs : Walked p rhs r) :
    Walked p e (.binary op l r)
  | unary {e op operand t} (hin : e.index < p.exprs.size)
    (hnode : arrayOpNode p e = .unary op operand) (hoperand : Walked p operand t) :
    Walked p e (.unary op t)

theorem IsScalar.node {e : ExprId} (h : IsScalar p e) : arrayOpNode p e = .plain := by
  obtain ⟨-, harray, hkind⟩ := h
  unfold arrayOpNode
  split
  · simp_all
  · simp_all
  · simp_all
  · simp [harray]

theorem Reads.walked {e : ExprId} (h : Reads p e t) : Walked p e t := by
  induction h with
  | slice hkind | literal hkind =>
    exact .element (index_lt_of_kind hkind (by simp)) (by simp only [arrayOpNode, hkind])
  | scalar hscalar => exact .value hscalar.1 hscalar.node
  | assign hkind _ _ ihl ihr =>
    exact .assign (index_lt_of_kind hkind (by simp)) (by simp only [arrayOpNode, hkind])
      ihl ihr
  | binary hkind harray hop _ _ ihl ihr =>
    exact .binary (index_lt_of_kind hkind (by simp))
      (by simp [arrayOpNode, hkind, harray, hop]) ihl ihr
  | unary hkind harray hop _ ih =>
    refine .unary (index_lt_of_kind hkind (by simp)) ?_ ih
    rcases hop with rfl | rfl <;> simp [arrayOpNode, hkind, harray]

/-- The entries that the walks go to from an entry. -/
def ArrayOpNode.parts : ArrayOpNode → List ExprId
  | .assign _ lhs rhs | .binary _ lhs rhs => [lhs, rhs]
  | .unary _ operand => [operand]
  | _ => []

namespace Walked

variable {p : Tables} {e : ExprId} {t : ElementTree ExprId}

theorem index_lt (h : Walked p e t) : e.index < p.exprs.size := by
  cases h <;> assumption

theorem index_lt_of_part {c : ExprId} (hc : c ∈ (arrayOpNode p e).parts) :
    e.index < p.exprs.size := by
  refine index_lt_of_kind rfl fun hkind => ?_
  have hplain : arrayOpNode p e = .plain := by
    cases harray : p.isArray e <;> simp [arrayOpNode, hkind, harray]
  simp [hplain, ArrayOpNode.parts] at hc

theorem ends_iff (h : Walked p e t) {n : Nat} :
    Ends (fun e => (arrayOpNode p e).parts) n e ↔ t.height ≤ n := by
  induction h generalizing n <;> cases n <;>
    simp_all [Ends, ArrayOpNode.parts, height, Nat.max_le]

theorem height_le (h : Walked p e t) : t.height ≤ p.exprs.size + 1 :=
  h.ends_iff.mp (ends_size (fun _ _ => congrArg ExprId.mk) index_lt_of_part
    (h.ends_iff.mpr .refl))

end Walked

/-! ## The operands -/

def ArrayOperand.bound (o : ArrayOperand) : ExprId × Option String := (o.expr, o.param.name)

/-- The operands of a tree with the names that they get, the last one first. -/
def boundIn (t : ElementTree ExprId) (count : Nat) : List (ExprId × Option String) :=
  (t.operands.zip ((t.named count).operands.map some)).reverse

theorem ArrayOpParts.bound_writable (parts : ArrayOpParts) :
    parts.writable.operands.map (·.bound) = parts.operands.map (·.bound) := by
  unfold writable
  split
  · rfl
  rename_i hparts
  rw [hparts]
  rfl

theorem boundIn_assign (op : AssignOp) (convert : Option TypeId) (l r : ElementTree ExprId)
    (count : Nat) : boundIn (.assign op convert l r) count =
      boundIn l (count + r.operands.length) ++ boundIn r count := by
  simp [boundIn, operands, named, List.zip_append]

theorem boundIn_binary (op : BinaryOp) (l r : ElementTree ExprId) (count : Nat) :
    boundIn (.binary op l r) count = boundIn r (count + l.operands.length) ++ boundIn l count := by
  simp [boundIn, operands, named, List.zip_append]

/-- The operands of an operation are added in the order of evaluation. -/
theorem arrayOpParts_operands {e : ExprId} (h : Walked p e t) {depth : Nat}
    (hdepth : t.height ≤ depth) (parts : ArrayOpParts) :
    (arrayOpParts p depth e parts).operands.map (·.bound) =
      boundIn t parts.operands.length ++ parts.operands.map (·.bound) := by
  have hcount {q : ArrayOpParts} {u : ElementTree ExprId} {parts : ArrayOpParts}
      (hq : q.operands.map (·.bound) =
        boundIn u parts.operands.length ++ parts.operands.map (·.bound)) :
      q.operands.length = parts.operands.length + u.operands.length := by
    simpa [boundIn, Nat.add_comm] using congrArg List.length hq
  induction h generalizing depth parts with
  | element _ hnode | value _ hnode =>
    obtain ⟨depth, rfl⟩ := exists_succ_of_height_le hdepth
    simp only [arrayOpParts, hnode]
    rfl
  | @assign e op lhs rhs l r _ hnode _ _ ihl ihr =>
    obtain ⟨depth, rfl⟩ := exists_succ_of_height_le hdepth
    simp only [height, Nat.add_le_add_iff_right, Nat.max_le] at hdepth
    have hsource := ihr hdepth.2 parts
    have htarget := ihl hdepth.1 (arrayOpParts p depth rhs parts)
    simp only [arrayOpParts, hnode, ArrayOpParts.bound_writable]
    rw [boundIn_assign, List.append_assoc, ← hsource, ← hcount hsource]
    exact htarget
  | @binary e op lhs rhs l r _ hnode _ _ ihl ihr =>
    obtain ⟨depth, rfl⟩ := exists_succ_of_height_le hdepth
    simp only [height, Nat.add_le_add_iff_right, Nat.max_le] at hdepth
    have hleft := ihl hdepth.1 parts
    have hright := ihr hdepth.2 (arrayOpParts p depth lhs parts)
    simp only [arrayOpParts, hnode]
    rw [boundIn_binary, List.append_assoc, ← hleft, ← hcount hleft]
    exact hright
  | unary _ hnode _ ih =>
    obtain ⟨depth, rfl⟩ := exists_succ_of_height_le hdepth
    simp only [arrayOpParts, hnode]
    exact ih (Nat.le_of_succ_le_succ hdepth) parts

/-! ## The body -/

/-- What an expression over the names of operands does to elements. -/
inductive Denotes (x : ExprTable) : ExprId → ElementTree String → Prop where
  | element {b array place name} (hkind : x.kind b = .index array place none)
    (harray : x.kind array = .identifier name) (hplace : x.kind place = .identifier "p") :
    Denotes x b (.element name)
  | value {b name} (hkind : x.kind b = .identifier name) : Denotes x b (.value name)
  | assign {b op lhs rhs l r} (hkind : x.kind b = .assign op lhs rhs false)
    (hlhs : Denotes x lhs l) (hrhs : Denotes x rhs r) : Denotes x b (.assign op none l r)
  | convert {b op lhs rhs v type l r} (hkind : x.kind b = .assign op lhs rhs false)
    (hcast : x.kind rhs = .cast v type) (hlhs : Denotes x lhs l) (hrhs : Denotes x v r) :
    Denotes x b (.assign op (some type) l r)
  | binary {b op lhs rhs l r} (hkind : x.kind b = .binary op lhs rhs)
    (hlhs : Denotes x lhs l) (hrhs : Denotes x rhs r) : Denotes x b (.binary op l r)
  | unary {b op operand t} (hkind : x.kind b = .unary op operand)
    (hoperand : Denotes x operand t) : Denotes x b (.unary op t)

theorem Denotes.extends {x y : ExprTable} {b : ExprId} {t : ElementTree String}
    (h : Denotes x b t) (hy : x.Extends y) : Denotes y b t := by
  induction h with
  | element hkind harray hplace =>
    exact .element (hy.kind hkind (by simp)) (hy.kind harray (by simp)) (hy.kind hplace (by simp))
  | value hkind => exact .value (hy.kind hkind (by simp))
  | assign hkind _ _ ihl ihr => exact .assign (hy.kind hkind (by simp)) ihl ihr
  | convert hkind hcast _ _ ihl ihr =>
    exact .convert (hy.kind hkind (by simp)) (hy.kind hcast (by simp)) ihl ihr
  | binary hkind _ _ ihl ihr => exact .binary (hy.kind hkind (by simp)) ihl ihr
  | unary hkind _ ih => exact .unary (hy.kind hkind (by simp)) ih

theorem elementCast_converts {s : Analysis} (h : Analyser) (hs : p.Extends s.toTables)
    {target source : ExprId} (htarget : target.index < p.exprs.size)
    (hsource : source.index < p.exprs.size) (v : ExprId) (place : Span) :
    ∃ w u, (elementCast v target source place).run h s = some (w, u) ∧
      s.toTables.Extends u.toTables ∧
      (conversion p .plain target source).elim (w = v)
        fun type => u.exprs.kind w = .cast v type := by
  simp only [elementCast, tables, run_bind, context_run, run_pure, Option.bind_some, hs.types,
    hs.typeOf htarget, hs.typeOf hsource, conversion]
  cases p.types.next? (p.typeOf target) with
  | none => exact ⟨v, s, rfl, .refl, rfl⟩
  | some elem =>
    dsimp only
    split
    · rename_i hsame
      exact ⟨v, s, rfl, .refl, by simp [Option.filter, hsame]⟩
    rename_i hdiffers
    obtain ⟨w, u, hrun, hkind, hu⟩ := addExpr_adds h s (.cast v elem) place
    exact ⟨w, u, hrun, hu, by simpa [Option.filter, hdiffers] using hkind⟩

/-- The expression for one element does to elements what the operation does, with its operands named
in the order of evaluation. -/
theorem elementExpr_denotes {e : ExprId} (hwalked : Walked p e t) {depth : Nat}
    (hdepth : t.height ≤ depth) (h : Analyser) {s : Analysis} (hs : p.Extends s.toTables)
    (place : Span) (count : Nat) :
    ∃ b u, (elementExpr place depth e count).run h s = some ((b, count + t.operands.length), u) ∧
      s.toTables.Extends u.toTables ∧ Denotes u.exprs b (t.named count) := by
  induction hwalked generalizing depth s count with
  | element hin hnode =>
    obtain ⟨depth, rfl⟩ := exists_succ_of_height_le hdepth
    rw [← hs.arrayOpNode hin] at hnode
    obtain ⟨array, u1, hrun1, hk1, hu1⟩ :=
      addExpr_adds h s (.identifier ("p" ++ toString count)) place
    obtain ⟨index, u2, hrun2, hk2, hu2⟩ := addExpr_adds h u1 (.identifier "p") place
    obtain ⟨b, u3, hrun3, hk3, hu3⟩ := addExpr_adds h u2 (.index array index none) place
    refine ⟨b, u3, ?_, hu1.trans (hu2.trans hu3), ?_⟩
    · simp only [elementExpr, run_bind, ask_run, Option.bind_some, hnode, hrun1, hrun2, hrun3,
        run_pure]
      rfl
    · exact .element hk3 ((hu2.trans hu3).exprs.kind hk1 (by simp)) (hu3.exprs.kind hk2 (by simp))
  | value hin hnode =>
    obtain ⟨depth, rfl⟩ := exists_succ_of_height_le hdepth
    rw [← hs.arrayOpNode hin] at hnode
    obtain ⟨b, u, hrun, hk, hu⟩ := addExpr_adds h s (.identifier ("c" ++ toString count)) place
    refine ⟨b, u, ?_, hu, .value hk⟩
    simp only [elementExpr, run_bind, ask_run, Option.bind_some, hnode, hrun, run_pure]
    rfl
  | @assign e op lhs rhs l r hin hnode hlhs hrhs ihl ihr =>
    obtain ⟨depth, rfl⟩ := exists_succ_of_height_le hdepth
    simp only [height, Nat.add_le_add_iff_right, Nat.max_le] at hdepth
    rw [← hs.arrayOpNode hin] at hnode
    obtain ⟨v, u1, hrun1, hu1, hv⟩ := ihr hdepth.2 hs count
    obtain ⟨target, u2, hrun2, hu2, htarget⟩ :=
      ihl hdepth.1 (hs.trans hu1) (count + r.operands.length)
    simp only [elementExpr, run_bind, ask_run, Option.bind_some, hnode, hrun1, hrun2,
      operands, List.length_append, ← Nat.add_assoc]
    cases op with
    | plain =>
      obtain ⟨w, u3, hrun3, hu3, hw⟩ := elementCast_converts h (hs.trans (hu1.trans hu2))
        hlhs.index_lt hrhs.index_lt v place
      obtain ⟨b, u4, hrun4, hk4, hu4⟩ := addExpr_adds h u3 (.assign .plain target w false) place
      refine ⟨b, u4, ?_, hu1.trans (hu2.trans (hu3.trans hu4)), ?_⟩
      · simp only [if_pos, run_bind, hrun3, Option.bind_some, hrun4, run_pure]
      have htarget' := htarget.extends (hu3.trans hu4).exprs
      have hv' := hv.extends (hu2.trans (hu3.trans hu4)).exprs
      cases hconv : conversion p .plain lhs rhs with
      | none =>
        rw [hconv] at hw
        obtain rfl : w = v := hw
        exact .assign hk4 htarget' hv'
      | some type =>
        rw [hconv] at hw
        exact .convert hk4 (hu4.exprs.kind hw (by simp)) htarget' hv'
    | compound op =>
      obtain ⟨b, u3, hrun3, hk3, hu3⟩ :=
        addExpr_adds h u2 (.assign (.compound op) target v false) place
      refine ⟨b, u3, ?_, hu1.trans (hu2.trans hu3), ?_⟩
      · simp only [reduceCtorEq, if_false, run_bind, Option.bind_some, hrun3, run_pure]
      · exact .assign hk3 (htarget.extends hu3.exprs) (hv.extends (hu2.trans hu3).exprs)
  | @binary e op lhs rhs l r hin hnode hlhs hrhs ihl ihr =>
    obtain ⟨depth, rfl⟩ := exists_succ_of_height_le hdepth
    simp only [height, Nat.add_le_add_iff_right, Nat.max_le] at hdepth
    rw [← hs.arrayOpNode hin] at hnode
    obtain ⟨x, u1, hrun1, hu1, hx⟩ := ihl hdepth.1 hs count
    obtain ⟨y, u2, hrun2, hu2, hy⟩ := ihr hdepth.2 (hs.trans hu1) (count + l.operands.length)
    obtain ⟨b, u3, hrun3, hk3, hu3⟩ := addExpr_adds h u2 (.binary op x y) place
    refine ⟨b, u3, ?_, hu1.trans (hu2.trans hu3), ?_⟩
    · simp only [elementExpr, run_bind, ask_run, Option.bind_some, hnode, hrun1, hrun2, hrun3,
        run_pure, operands, List.length_append, Nat.add_assoc]
    · exact .binary hk3 (hx.extends (hu2.trans hu3).exprs) (hy.extends hu3.exprs)
  | @unary e op operand t hin hnode hoperand ih =>
    obtain ⟨depth, rfl⟩ := exists_succ_of_height_le hdepth
    rw [← hs.arrayOpNode hin] at hnode
    obtain ⟨x, u1, hrun1, hu1, hx⟩ := ih (Nat.le_of_succ_le_succ hdepth) hs count
    obtain ⟨b, u2, hrun2, hk2, hu2⟩ := addExpr_adds h u1 (.unary op x) place
    refine ⟨b, u2, ?_, hu1.trans hu2, .unary hk2 (hx.extends hu2.exprs)⟩
    simp only [elementExpr, run_bind, ask_run, Option.bind_some, hnode, hrun1, hrun2, run_pure,
      operands]

end DCompiler.Analyse
