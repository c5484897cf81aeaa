import DCompiler.Proofs.Grammar.Literal

/-!
# Phrases

Rows of words that the grammar reads as a tree, one notion for each level of the grammar: primaries
with accesses behind them (`Access`), operands of binary operators (`Operand`), and what a whole
rule reads (`Parsed`). A level reads as much as it can, so a phrase is read as such only if the next
word does not go on with it.

Accesses and operators are read by loops that carry what they have so far. Phrases of these levels
are stated with the rest of the loop still to run, so that more can be put behind them.

The depth of calls that a run may need is the number of words that are left.
-/

namespace DCompiler.Grammar

open Token List

variable {s : State} {d : Nat} {p q : Chunk} {ps qs ls rs : List Chunk} {e l r : Tree} {id : ExprId}
variable {start : TokenKind → Bool} {k : TokenKind} {es : List Tree} {b : Tree}
  {Q : ExprId → State → Prop} {least : Nat} {x : Leaf} {most : Nat} {op : AssignOp}

/-! ## First and next words -/

def primaryKinds : List TokenKind :=
  [.intLiteral, .stringLiteral, .kwTrue, .kwFalse, .kwNull, .kwThis, .kwSuper, .dollar, .ident,
    .lParen, .lBracket]

def startsPrimary (k : TokenKind) : Bool := k ∈ primaryKinds

def startsUnary (k : TokenKind) : Bool := startsPrimary k || k ∈ [.minus, .tilde, .bang, .star]

/-- A word that does not go on with an access or a power. -/
def endsUnary (k : TokenKind) : Bool := k ∉ [.dot, .lParen, .lBracket, .caretCaret]

def endsCond (k : TokenKind) : Bool := endsUnary k && (binaryOp? k).isNone && k != .question

def endsAssign (k : TokenKind) : Bool := endsCond k && (assignOp? k).isNone

def endsExpr (k : TokenKind) : Bool := endsAssign k && k != .comma

def Starts (start : TokenKind → Bool) (ps : List Chunk) : Prop := ps.head?.any (start ·.kind)

theorem Starts.append (h : Starts start ps) (qs : List Chunk) : Starts start (ps ++ qs) := by
  cases ps with
  | nil => exact nomatch h
  | cons p ps => exact h

theorem Starts.cons (h : Starts start ps) : ∃ p ps', ps = p :: ps' ∧ start p.kind := by
  cases ps with
  | nil => exact nomatch h
  | cons p ps => exact ⟨p, ps, rfl, h⟩

theorem Starts.length_pos (h : Starts start ps) : 1 ≤ ps.length := by
  obtain ⟨p, ps, rfl, -⟩ := h.cons
  exact Nat.le_add_left 1 _

theorem Starts.imp {start' : TokenKind → Bool} (h : Starts start ps)
    (himp : ∀ k, start k → start' k) : Starts start' ps := by
  obtain ⟨p, ps, rfl, hp⟩ := h.cons
  exact himp _ hp

/-! ## Levels -/

/-- A tree was read, and these words are left. -/
structure Gives (s : State) (ps : List Chunk) (e : Tree) (id : ExprId) (s' : State) : Prop
    extends s.Goes ps s' where
  tree : Denotes s'.exprs id e

/-- Words that a rule reads as a tree in front of a word that ends it. -/
structure Parsed (x : Rules → Parser ExprId) (ends : TokenKind → Bool) (ps : List Chunk)
    (e : Tree) : Prop where
  starts : Starts startsUnary ps
  runs : ∀ {d : Nat} {s : State} {q : Chunk} {qs : List Chunk}, s.chunks = ps ++ q :: qs →
    (ps ++ q :: qs).length ≤ d + 1 → ends q.kind → Runs (x (rules d)) s (Gives s (q :: qs) e)

/-- Words that are a primary with accesses behind it; the loop for accesses goes on behind them. -/
structure Access (ps : List Chunk) (e : Tree) : Prop where
  starts : Starts startsPrimary ps
  runs : ∀ {d : Nat} {s : State} {q : Chunk} {qs : List Chunk} {Q : ExprId → State → Prop},
    s.chunks = ps ++ q :: qs → (ps ++ q :: qs).length ≤ d + 1 →
    (∀ d' id s', Gives s (q :: qs) e id s' → (q :: qs).length ≤ d' →
      Runs ((rules d').accessTail id) s' Q) →
    Runs (primary (rules d) >>= (rules d).accessTail) s Q

/-- Words that are a left side of operators of at most a precedence; the loop for operators, which
takes those of a precedence that is not above, goes on behind them. -/
structure Operand (most : Nat) (ps : List Chunk) (e : Tree) : Prop where
  starts : Starts startsUnary ps
  runs : ∀ {least d : Nat} {s : State} {q : Chunk} {qs : List Chunk} {Q : ExprId → State → Prop},
    least ≤ most → s.chunks = ps ++ q :: qs → (ps ++ q :: qs).length ≤ d + 1 → endsUnary q.kind →
    (∀ op, binaryOp? q.kind = some op → op.2 ≤ most) →
    (∀ d' id s', Gives s (q :: qs) e id s' → (q :: qs).length ≤ d' →
      Runs ((rules d').binaryTail least id) s' Q) →
    Runs (binary (rules d) least) s Q

theorem exists_depth (hd : ps.length ≤ d) (hps : ps ≠ []) : ∃ d', d = d' + 1 :=
  Nat.exists_eq_add_of_le' (Nat.le_trans (length_pos_iff.mpr hps) hd)

theorem Parsed.call {x : Rules → Parser ExprId} {ends : TokenKind → Bool} (h : Parsed x ends ps e)
    (f : Rules → Parser ExprId) (hs : s.chunks = ps ++ q :: qs) (hd : (ps ++ q :: qs).length ≤ d)
    (hq : ends q.kind) (hf : ∀ d, f (rules (d + 1)) = x (rules d) := by intro; rfl) :
    Runs (f (rules d)) s (Gives s (q :: qs) e) := by
  obtain ⟨d, rfl⟩ := exists_depth hd (by simp)
  rw [hf]
  exact h.runs hs hd hq

/-! ## Primaries -/

theorem access_of_primary (hstarts : Starts startsPrimary ps)
    (h : ∀ {d : Nat} {s : State} {q : Chunk} {qs : List Chunk}, s.chunks = ps ++ q :: qs →
      (ps ++ q :: qs).length ≤ d + 1 → Runs (primary (rules d)) s (Gives s (q :: qs) e)) :
    Access ps e where
  starts := hstarts
  runs hs hd hQ := by
    refine .bind (h hs hd) fun id s' hid => hQ _ id s' hid ?_
    have := hstarts.length_pos
    rw [length_append] at hd
    omega

theorem runs_atom (hs : s.chunks = p :: q :: qs) :
    Runs (atom x.expr) s (Gives s (q :: qs) (.leaf x)) := by
  refine .advance hs fun _ s' hs' => ?_
  exact .addExpr fun id s'' hs'' hkind => ⟨hs'.add hs'', .leaf hkind⟩

theorem access_leaf (hx : x.Readable) : Access [x.chunk] (.leaf x) := by
  refine access_of_primary ?_ fun {d s q qs} hs _ => .here (.peek hs ?_)
  · match x with
    | .bool true | .bool false => rfl
    | .integer _ | .string _ | .null | .thisRef | .superRef | .dollar | .name _ => rfl
  match x with
  | .integer value =>
    refine .text hs ?_
    have hvalue : integerLiteral? (toString value.toNat) = some (value, none) := by
      rw [integerLiteral?_toString value.toNat_lt]
      simp
    simp only [Leaf.chunk, Chunk.word, hvalue]
    exact runs_atom (x := .integer value) hs
  | .string text =>
    refine .text hs ?_
    simp only [Leaf.chunk, Text.unescape_escape hx]
    exact runs_atom (x := .string text) hs
  | .name text =>
    refine .text hs ?_
    simp only [Leaf.chunk, Chunk.word, nameExpr, hx.2]
    exact runs_atom (x := .name text) hs
  | .bool true => exact runs_atom (x := .bool true) hs
  | .bool false => exact runs_atom (x := .bool false) hs
  | .null => exact runs_atom (x := .null) hs
  | .thisRef => exact runs_atom (x := .thisRef) hs
  | .superRef => exact runs_atom (x := .superRef) hs
  | .dollar => exact runs_atom (x := .dollar) hs

theorem access_paren (h : Parsed expr endsExpr ps e) :
    Access (.word .lParen "(" :: (ps ++ [.word .rParen ")"])) e := by
  refine access_of_primary rfl fun {d s q qs} hs hd => .here (.peek hs ?_)
  simp only [cons_append, append_assoc, nil_append] at hs hd
  refine .advance hs fun _ s1 h1 => ?_
  refine .bind (h.call Rules.expr h1.chunks (by grind) rfl) fun id s2 h2 => ?_
  refine .expect h2.chunks fun _ s3 h3 => ?_
  exact .pure ⟨(h1.trans h2.toGoes).trans h3, h2.tree.mono h3.exprs⟩

/-! ## Lists -/

structure GivesAll (s : State) (ps : List Chunk) (es : List Tree) (ids : List ExprId) (s' : State) :
    Prop extends s.Goes ps s' where
  length : ids.length = es.length
  trees : ∀ p ∈ ids.zip es, Denotes s'.exprs p.1 p.2

/-- Words that stand for the trees between two brackets. -/
def Listed (ps : List Chunk) (es : List Tree) : Prop :=
  ∀ {d : Nat} {s : State} {close q : Chunk} {qs : List Chunk}, close.kind ∈ [.rParen, .rBracket] →
    s.chunks = ps ++ close :: q :: qs → (ps ++ close :: q :: qs).length ≤ d + 1 →
    Runs (arguments (rules d) close.kind) s (GivesAll s (q :: qs) es)

theorem close_kind (hk : k ∈ [.rParen, .rBracket]) :
    endsAssign k ∧ k ≠ .comma ∧ startsUnary k = false := by
  have hall : ∀ k ∈ [TokenKind.rParen, .rBracket],
      endsAssign k ∧ k ≠ .comma ∧ startsUnary k = false := by decide
  exact hall k hk

theorem Starts.ne_close (h : Starts startsUnary ps) (hk : startsUnary k = false) (qs : List Chunk) :
    ∃ p ps', ps ++ qs = p :: ps' ∧ p.kind ≠ k := by
  obtain ⟨p, ps, rfl, hp⟩ := h.cons
  refine ⟨p, ps ++ qs, rfl, ?_⟩
  rintro rfl
  rw [hp] at hk
  exact nomatch hk

theorem listed_nil : Listed [] [] := by
  intro d s close q qs hclose hs _
  exact .eat_pos hs fun s' h' => .pure ⟨h', rfl, by simp⟩

theorem listed_last (h : Parsed assign endsAssign ps e) : Listed ps [e] := by
  intro d s close q qs hclose hs hd
  obtain ⟨hends, hcomma, hstart⟩ := close_kind hclose
  obtain ⟨p, ps', hps, hp⟩ := h.starts.ne_close hstart (close :: q :: qs)
  refine .eat_neg (hs.trans hps) hp ?_
  refine .bind (h.runs hs hd hends) fun id s1 h1 => ?_
  refine .eat_neg h1.chunks hcomma ?_
  refine .expect h1.chunks fun _ s2 h2 => ?_
  exact .pure ⟨h1.toGoes.trans h2, rfl, by simpa using h1.tree.mono h2.exprs⟩

theorem Listed.call {close : Chunk} (h : Listed ps es) (hclose : close.kind ∈ [.rParen, .rBracket])
    (hs : s.chunks = ps ++ close :: q :: qs) (hd : (ps ++ close :: q :: qs).length ≤ d) :
    Runs ((rules d).arguments close.kind) s (GivesAll s (q :: qs) es) := by
  obtain ⟨d, rfl⟩ := exists_depth hd (by simp)
  exact h hclose hs hd

theorem listed_cons (h : Parsed assign endsAssign ps e) (hes : Listed qs es) :
    Listed (ps ++ .word .comma "," :: qs) (e :: es) := by
  intro d s close q rest hclose hs hd
  simp only [cons_append, append_assoc] at hs hd
  obtain ⟨-, -, hstart⟩ := close_kind hclose
  obtain ⟨p, ps', hps, hp⟩ := h.starts.ne_close hstart _
  refine .eat_neg (hs.trans hps) hp ?_
  refine .bind (h.runs hs hd rfl) fun id s1 h1 => ?_
  refine .eat_pos h1.chunks fun s2 h2 => ?_
  refine .bind (hes.call hclose h2.chunks (by grind)) fun ids s3 h3 => ?_
  refine .pure ⟨(h1.toGoes.trans h2).trans h3.toGoes, by simp [h3.length], ?_⟩
  rw [zip_cons_cons, forall_mem_cons]
  exact ⟨h1.tree.mono (h2.exprs.trans h3.exprs), h3.trees⟩

theorem listed_chunks (hes : ∀ e ∈ es, Parsed assign endsAssign e.chunks e) :
    Listed (Tree.listed (es.map Tree.chunks)) es := by
  induction es with
  | nil => exact listed_nil
  | cons e es ih =>
    obtain ⟨he, hes⟩ := forall_mem_cons.mp hes
    cases es with
    | nil =>
      rw [Tree.listed, map_singleton, intercalate_singleton]
      exact listed_last he
    | cons f es => exact listed_cons he (ih hes)

theorem access_array (h : Listed ps es) :
    Access (.word .lBracket "[" :: (ps ++ [.word .rBracket "]"])) (.array es) := by
  refine access_of_primary rfl fun {d s q qs} hs hd => .here (.peek hs ?_)
  simp only [cons_append, append_assoc, nil_append] at hs hd
  refine .advance hs fun _ s1 h1 => ?_
  refine .bind (h.call (by decide) h1.chunks (by grind)) fun ids s2 h2 => ?_
  refine .addExprFrom fun id s3 h3 hkind => ⟨(h1.trans h2.toGoes).add h3, ?_⟩
  exact .array hkind h2.length fun p hp => (h2.trees p hp).mono h3.exprs

/-! ## Accesses -/

/-- Words behind a base that one round of the loop for accesses takes; the loop goes on with the
tree that they make of the base. -/
def Step (b : Tree) (ps : List Chunk) (e : Tree) : Prop :=
  ∀ {d : Nat} {s : State} {base : ExprId} {q : Chunk} {qs : List Chunk}
    {Q : ExprId → State → Prop}, s.chunks = ps ++ q :: qs → (ps ++ q :: qs).length ≤ d + 1 →
    Denotes s.exprs base b →
    (∀ d' id s', Gives s (q :: qs) e id s' → (q :: qs).length ≤ d' →
      Runs ((rules d').accessTail id) s' Q) →
    Runs (accessTail (rules d) base) s Q

theorem Access.step (h : Access ps b) (hstep : Step b ls e) : Access (ps ++ ls) e := by
  refine ⟨h.starts.append _, fun {d s q qs Q} hs hd hQ => ?_⟩
  rw [append_assoc] at hs hd
  obtain ⟨q', qs', hnext⟩ := exists_cons_of_ne_nil (by simp : ls ++ q :: qs ≠ [])
  rw [hnext] at hs hd
  refine h.runs hs hd fun d id s1 h1 hd => ?_
  obtain ⟨d, rfl⟩ := exists_depth hd (by simp)
  rw [← hnext] at h1 hd
  exact hstep h1.chunks hd h1.tree fun d' id' s2 h2 hd' =>
    hQ d' id' s2 ⟨h1.toGoes.trans h2.toGoes, h2.tree⟩ hd'

theorem step_dot {name : String} : Step b [.word .dot ".", .word .ident name] (.dot b name) := by
  intro d s base q qs Q hs hd hbase hQ
  refine .spanOf fun start => .peek hs ?_
  refine .advance hs fun _ s1 h1 => ?_
  refine .identifier h1.chunks fun _ s2 h2 => ?_
  refine .bind (.addExprFrom fun _ _ h hkind => And.intro h hkind) fun id s3 ⟨h3, hkind⟩ => ?_
  have hgoes := (h1.trans h2).add h3
  exact hQ d id s3 ⟨hgoes, .dot hkind (hbase.mono hgoes.exprs)⟩ (by grind)

theorem step_call (hes : Listed ls es) :
    Step b (.word .lParen "(" :: (ls ++ [.word .rParen ")"])) (.call b es) := by
  intro d s base q qs Q hs hd hbase hQ
  simp only [cons_append, append_assoc, nil_append] at hs hd
  refine .spanOf fun start => .peek hs ?_
  refine .advance hs fun _ s1 h1 => ?_
  refine .bind (hes.call (by decide) h1.chunks (by grind)) fun ids s2 h2 => ?_
  refine .bind (.addExprFrom fun _ _ h hkind => And.intro h hkind) fun id s3 ⟨h3, hkind⟩ => ?_
  have hgoes := (h1.trans h2.toGoes).add h3
  refine hQ d id s3 ⟨hgoes, .call hkind (hbase.mono hgoes.exprs) h2.length fun p hp => ?_⟩
    (by grind)
  exact (h2.trees p hp).mono h3.exprs

/-- Words behind an opening bracket that make a base into a tree. -/
def Bracketed (b : Tree) (ps : List Chunk) (e : Tree) : Prop :=
  ∀ {d : Nat} {s : State} {base : ExprId} {q : Chunk} {qs : List Chunk},
    s.chunks = ps ++ q :: qs → (ps ++ q :: qs).length ≤ d → Denotes s.exprs base b →
    Runs (bracketAccess (rules d) base) s fun found s' => s.Goes (q :: qs) s' ∧
      ∀ {t : ExprTable} {id : ExprId}, s'.exprs.Extends t → t.kind id = found → Denotes t id e

theorem step_bracket (hin : Bracketed b ls e) : Step b (.word .lBracket "[" :: ls) e := by
  intro d s base q qs Q hs hd hbase hQ
  refine .spanOf fun start => .peek hs ?_
  refine .advance hs fun _ s1 h1 => ?_
  refine .bind (hin h1.chunks (by grind) (hbase.mono h1.exprs)) fun found s2 ⟨h2, htree⟩ => ?_
  refine .bind (.addExprFrom fun _ _ h hkind => And.intro h hkind) fun id s3 ⟨h3, hkind⟩ => ?_
  exact hQ d id s3 ⟨(h1.trans h2).add h3, htree h3.exprs hkind⟩ (by grind)

theorem bracketed_slice : Bracketed b [.word .rBracket "]"] (.slice b) := by
  intro d s base q qs hs _ hbase
  refine .eat_pos hs fun s' h' => .pure ⟨h', fun ht hkind => ?_⟩
  exact .slice hkind (hbase.mono (h'.exprs.trans ht))

theorem bracketed_index (h : Parsed assign endsAssign ps e) :
    Bracketed b (ps ++ [.word .rBracket "]"]) (.index b e) := by
  intro d s base q qs hs hd hbase
  simp only [cons_append, append_assoc, nil_append] at hs hd
  obtain ⟨p, ps', hps, hp⟩ := h.starts.ne_close (k := .rBracket) rfl _
  refine .eat_neg (hs.trans hps) hp ?_
  refine .bind (h.call Rules.assign hs hd rfl) fun id s1 h1 => ?_
  refine .eat_neg h1.chunks (by decide) ?_
  refine .expect h1.chunks fun _ s2 h2 => ?_
  refine .pure ⟨h1.toGoes.trans h2, fun ht hkind => ?_⟩
  exact .index hkind (hbase.mono ((h1.toGoes.trans h2).exprs.trans ht))
    (h1.tree.mono (h2.exprs.trans ht))

theorem bracketed_range (hl : Parsed assign endsAssign ls l) (hr : Parsed assign endsAssign rs r) :
    Bracketed b (ls ++ .word .dotDot ".." :: (rs ++ [.word .rBracket "]"])) (.range b l r) := by
  intro d s base q qs hs hd hbase
  simp only [cons_append, append_assoc, nil_append] at hs hd
  obtain ⟨p, ps', hps, hp⟩ := hl.starts.ne_close (k := .rBracket) rfl _
  refine .eat_neg (hs.trans hps) hp ?_
  refine .bind (hl.call Rules.assign hs hd rfl) fun lower s1 h1 => ?_
  refine .eat_pos h1.chunks fun s2 h2 => ?_
  refine .bind (hr.call Rules.assign h2.chunks (by grind) rfl) fun upper s3 h3 => ?_
  refine .expect h3.chunks fun _ s4 h4 => ?_
  refine .pure ⟨((h1.toGoes.trans h2).trans h3.toGoes).trans h4, fun ht hkind => ?_⟩
  have hlater := (h2.trans h3.toGoes).trans h4
  exact .range hkind (hbase.mono ((h1.toGoes.trans hlater).exprs.trans ht))
    (h1.tree.mono (hlater.exprs.trans ht)) (h3.tree.mono (h4.exprs.trans ht))

/-! ## Prefix operators -/

theorem runs_accessTail_stop (hs : s.chunks = q :: qs) (hd : (q :: qs).length ≤ d)
    (hq : endsUnary q.kind) (h : Q id s) : Runs ((rules d).accessTail id) s Q := by
  obtain ⟨d, rfl⟩ := exists_depth hd (by simp)
  obtain ⟨hdot, hparen, hbracket, -⟩ : q.kind ≠ .dot ∧ q.kind ≠ .lParen ∧ q.kind ≠ .lBracket ∧
      q.kind ≠ .caretCaret := by simpa [endsUnary] using hq
  refine .spanOf fun start => .peek hs ?_
  split
  · next hk => exact absurd hk hdot
  · next hk => exact absurd hk hparen
  · next hk => exact absurd hk hbracket
  · exact .pure h

theorem parsed_unary_of_access (h : Access ps e) : Parsed unary endsUnary ps e := by
  refine ⟨h.starts.imp fun k hk => by simp [startsUnary, hk], fun {d s q qs} hs hd hq => ?_⟩
  obtain ⟨p, ps', hps, hp⟩ := h.starts.cons
  have hprimary : ∀ k ∈ primaryKinds, k ≠ .plus ∧ k ≠ .kwCast ∧ unaryOp? k = none := by decide
  obtain ⟨hplus, hcast, hnone⟩ := hprimary _ (of_decide_eq_true hp)
  refine .here (.peek (p := p) (by rw [hs, hps]; rfl) ?_)
  rw [if_neg hplus, if_neg hcast, hnone]
  refine .assoc (.bind (P := Gives s (q :: qs) e) (h.runs hs hd fun d id s' h' hd' => ?_)
    fun id s' h' => ?_)
  · exact runs_accessTail_stop h'.chunks hd' hq h'
  refine .eat_neg h'.chunks (fun hk => ?_) (.pure h')
  rw [hk] at hq
  exact nomatch hq

theorem parsed_unary {op : UnaryOp} (hop : op ≠ .addressOf) (h : Parsed unary endsUnary ps e) :
    Parsed unary endsUnary (.word op.kind op.symbol :: ps) (.unary op e) := by
  have hkind : startsUnary op.kind ∧ op.kind ≠ .plus ∧ op.kind ≠ .kwCast ∧
      unaryOp? op.kind = some op := by
    cases op <;> simp_all [startsUnary, UnaryOp.kind, unaryOp?]
  obtain ⟨hstarts, hplus, hcast, hsome⟩ := hkind
  refine ⟨hstarts, fun {d s q qs} hs hd hq => .here (.peek hs ?_)⟩
  rw [Chunk.kind_word, if_neg hplus, if_neg hcast, hsome]
  refine .advance hs fun _ s1 h1 => ?_
  refine .bind (h.call Rules.unary h1.chunks (by grind) hq) fun id s2 h2 => ?_
  refine .spanOf fun span => .addExpr fun id' s3 h3 hkind => ⟨(h1.trans h2.toGoes).add h3, ?_⟩
  exact .unary hkind (h2.tree.mono h3.exprs)

/-! ## Binary operators -/

theorem operand_of_unary (h : Parsed unary endsUnary ps e) (most : Nat) : Operand most ps e := by
  refine ⟨h.starts, fun _ hs hd hends _ hQ => ?_⟩
  refine .bind (h.runs hs hd hends) fun id s' h' => hQ _ id s' h' ?_
  have := h.starts.length_pos
  rw [length_append] at hd
  omega

/-- What stands in front of loose operators also stands in front of looser ones only. -/
theorem Operand.mono {most' : Nat} (h : Operand most' ps e) (hle : most ≤ most') :
    Operand most ps e where
  starts := h.starts
  runs hleast hs hd hends hop hQ :=
    h.runs (Nat.le_trans hleast hle) hs hd hends (fun op hq => Nat.le_trans (hop op hq) hle) hQ

theorem runs_binaryTail_stop (hs : s.chunks = q :: qs) (hd : (q :: qs).length ≤ d)
    (hq : ∀ op, binaryOp? q.kind = some op → op.2 < least) (h : Q id s) :
    Runs ((rules d).binaryTail least id) s Q := by
  obtain ⟨d, rfl⟩ := exists_depth hd (by simp)
  refine .peek hs ?_
  cases hop : binaryOp? q.kind with
  | none => exact .pure h
  | some op =>
    dsimp only
    rw [if_pos (hq op hop)]
    exact .pure h

/-- An operand in front of operators that bind less tightly is read as it is. -/
theorem Operand.reads (h : Operand most ps e) (hleast : least ≤ most)
    (hs : s.chunks = ps ++ q :: qs) (hd : (ps ++ q :: qs).length ≤ d + 1) (hq : endsUnary q.kind)
    (hop : ∀ op, binaryOp? q.kind = some op → op.2 < least) :
    Runs (binary (rules d) least) s (Gives s (q :: qs) e) := by
  refine h.runs hleast hs hd hq (fun op hq => ?_) fun d id s' h' hd' => ?_
  · exact Nat.le_trans (Nat.le_of_lt (hop op hq)) hleast
  · exact runs_binaryTail_stop h'.chunks hd' hop h'

/-- An operator is read with the strength that it is printed with. -/
theorem binaryOp?_kind {op : BinaryOp} (hop : op ≠ .pow) :
    binaryOp? op.kind = some (op, op.precedence) := by
  cases op <;> first | rfl | contradiction

theorem operand_binary {op : BinaryOp} (hop : op ≠ .pow) (hl : Operand op.precedence ls l)
    (hr : Operand (op.precedence + 1) rs r) :
    Operand op.precedence (ls ++ .word op.kind op.symbol :: rs) (.binary op l r) := by
  have hends' : endsUnary op.kind := by cases op <;> first | rfl | contradiction
  refine ⟨hl.starts.append _, fun {least d s q qs Q} hleast hs hd hends hq hQ => ?_⟩
  simp only [cons_append, append_assoc] at hs hd
  refine hl.runs hleast hs hd hends' (fun op' hop' => ?_) fun d id s1 h1 hd => ?_
  · obtain rfl := Option.some.inj ((binaryOp?_kind hop).symm.trans hop')
    exact .refl
  -- The loop is at the operator, with the left side read. It takes the operator.
  obtain ⟨d, rfl⟩ := exists_depth hd (by simp)
  refine .peek h1.chunks ?_
  rw [Chunk.kind_word, binaryOp?_kind hop]
  dsimp only
  rw [if_neg (Nat.not_lt.mpr hleast)]
  refine .advance h1.chunks fun _ s2 h2 => ?_
  -- The right side leaves what binds no tighter than the operator, so the next one is for the loop.
  have hdepth : (rs ++ q :: qs).length ≤ d := by grind
  obtain ⟨d, rfl⟩ := exists_depth hdepth (by simp)
  refine .bind (hr.reads .refl h2.chunks hdepth hends
    fun op' hop' => Nat.lt_succ_of_le (hq op' hop')) fun id' s3 h3 => ?_
  refine .bind (.addExprOver fun _ _ h hkind => And.intro h hkind) fun id'' s4 ⟨h4, hkind⟩ => ?_
  refine hQ _ id'' s4 ⟨((h1.toGoes.trans h2).trans h3.toGoes).add h4, ?_⟩ (by grind)
  exact .binary hkind (h1.tree.mono ((h2.trans h3.toGoes).add h4).exprs) (h3.tree.mono h4.exprs)

/-! ## Conditionals, assignments and commas -/

theorem endsCond_iff : endsCond k ↔ endsUnary k ∧ binaryOp? k = none ∧ k ≠ .question := by
  simp [endsCond, and_assoc]

theorem parsed_cond_of_operand (h : Operand 1 ps e) : Parsed cond endsCond ps e := by
  refine ⟨h.starts, fun {d s q qs} hs hd hq => ?_⟩
  obtain ⟨hends, hnone, hquestion⟩ := endsCond_iff.mp hq
  refine .bind (h.reads (Nat.le_refl 1) hs hd hends (by simp [hnone])) fun id s1 h1 => ?_
  exact .eat_neg h1.chunks hquestion (.pure h1)

theorem parsed_cond {c y n : Tree} {cs ys ns : List Chunk} (hc : Operand 1 cs c)
    (hy : Parsed expr endsExpr ys y) (hn : Parsed cond endsCond ns n) :
    Parsed cond endsCond (cs ++ .word .question "?" :: (ys ++ .word .colon ":" :: ns))
      (.cond c y n) := by
  refine ⟨hc.starts.append _, fun {d s q qs} hs hd hq => ?_⟩
  simp only [cons_append, append_assoc] at hs hd
  refine .bind (hc.reads (Nat.le_refl 1) hs hd rfl (by decide)) fun test s1 h1 => ?_
  refine .eat_pos h1.chunks fun s2 h2 => ?_
  refine .bind (hy.call Rules.expr h2.chunks (by grind) rfl) fun yes s3 h3 => ?_
  refine .expect h3.chunks fun _ s4 h4 => ?_
  refine .bind (hn.call Rules.cond h4.chunks (by grind) hq) fun no s5 h5 => ?_
  refine .addExprOver fun id s6 h6 hkind => ?_
  have hyes := (h4.trans h5.toGoes).add h6
  have htest := (h2.trans h3.toGoes).trans hyes
  exact ⟨h1.toGoes.trans htest, .cond hkind (h1.tree.mono htest.exprs) (h3.tree.mono hyes.exprs)
    (h5.tree.mono h6.exprs)⟩

theorem parsed_assign_of_cond (h : Parsed cond endsCond ps e) : Parsed assign endsAssign ps e := by
  refine ⟨h.starts, fun {d s q qs} hs hd hq => ?_⟩
  obtain ⟨hends, hnone⟩ : endsCond q.kind ∧ assignOp? q.kind = none := by
    simpa [endsAssign] using hq
  refine .bind (h.runs hs hd hends) fun id s1 h1 => .peek h1.chunks ?_
  rw [hnone]
  exact .pure h1

theorem endsCond_assign (hop : op.IsWord) : endsCond op.kind := by
  obtain ⟨k, hk⟩ := hop
  unfold assignOp? at hk
  split at hk <;> cases hk <;> rfl

theorem parsed_assign (hop : op.IsWord) (hl : Parsed cond endsCond ls l)
    (hr : Parsed assign endsAssign rs r) :
    Parsed assign endsAssign (ls ++ .word op.kind op.symbol :: rs) (.assign op l r) := by
  refine ⟨hl.starts.append _, fun {d s q qs} hs hd hq => ?_⟩
  simp only [cons_append, append_assoc] at hs hd
  refine .bind (hl.runs hs hd (endsCond_assign hop)) fun lhs s1 h1 => .peek h1.chunks ?_
  rw [Chunk.kind_word, hop.kind]
  refine .advance h1.chunks fun _ s2 h2 => ?_
  refine .bind (hr.call Rules.assign h2.chunks (by grind) hq) fun rhs s3 h3 => ?_
  refine .addExprOver fun id s4 h4 hkind => ?_
  have hlhs := (h2.trans h3.toGoes).add h4
  exact ⟨h1.toGoes.trans hlhs, .assign hkind (h1.tree.mono hlhs.exprs) (h3.tree.mono h4.exprs)⟩

theorem runs_commaTail_stop (hs : s.chunks = q :: qs) (hd : (q :: qs).length ≤ d)
    (hq : q.kind ≠ .comma) (h : Q id s) : Runs ((rules d).commaTail id) s Q := by
  obtain ⟨d, rfl⟩ := exists_depth hd (by simp)
  exact .eat_neg hs hq (.pure h)

theorem parsed_expr_of_assign (h : Parsed assign endsAssign ps e) : Parsed expr endsExpr ps e := by
  refine ⟨h.starts, fun {d s q qs} hs hd hq => ?_⟩
  obtain ⟨hends, hcomma⟩ : endsAssign q.kind ∧ q.kind ≠ .comma := by simpa [endsExpr] using hq
  have hpos := h.starts.length_pos
  refine .bind (h.runs hs hd hends) fun id s1 h1 => ?_
  exact runs_commaTail_stop h1.chunks (by grind) hcomma h1

theorem parsed_expr (hl : Parsed assign endsAssign ls l) (hr : Parsed assign endsAssign rs r) :
    Parsed expr endsExpr (ls ++ .word .comma "," :: rs) (.comma l r) := by
  refine ⟨hl.starts.append _, fun {d s q qs} hs hd hq => ?_⟩
  obtain ⟨hends, hcomma⟩ : endsAssign q.kind ∧ q.kind ≠ .comma := by simpa [endsExpr] using hq
  simp only [cons_append, append_assoc] at hs hd
  have hpos := hl.starts.length_pos
  refine .bind (hl.runs hs hd rfl) fun lhs s1 h1 => ?_
  have hdepth : (Chunk.word .comma "," :: (rs ++ q :: qs)).length ≤ d := by grind
  obtain ⟨d, rfl⟩ := exists_depth hdepth (by simp)
  refine .eat_pos h1.chunks fun s2 h2 => ?_
  refine .bind (hr.call Rules.assign h2.chunks (by grind) hends) fun rhs s3 h3 => ?_
  refine .bind (.addExprOver fun _ _ h hkind => And.intro h hkind) fun id s4 ⟨h4, hkind⟩ => ?_
  have hlhs := (h2.trans h3.toGoes).add h4
  refine runs_commaTail_stop hlhs.chunks (by grind) hcomma ?_
  exact ⟨h1.toGoes.trans hlhs, .comma hkind (h1.tree.mono hlhs.exprs) (h3.tree.mono h4.exprs)⟩

/-! ## Trees -/

/-- The words of a tree are read as the tree, at the level of the grammar that it belongs to. -/
def Phrase : Tree → Prop
  | .unary op f => Parsed unary endsUnary (Tree.unary op f).chunks (.unary op f)
  | .binary op f g => Operand op.precedence (Tree.binary op f g).chunks (.binary op f g)
  | .cond f g h => Parsed cond endsCond (Tree.cond f g h).chunks (.cond f g h)
  | .assign op f g => Parsed assign endsAssign (Tree.assign op f g).chunks (.assign op f g)
  | e => Access e.chunks e

theorem precedence_bounds (op : BinaryOp) : 1 ≤ op.precedence ∧ op.precedence < Expr.atomic := by
  cases op <;> decide

namespace Phrase

section

variable (h : Phrase e)
include h

theorem cond (he : e.isAssign = false) : Parsed Grammar.cond endsCond e.chunks e := by
  cases e with
  | assign op l r => exact nomatch he
  | cond c y n => exact h
  | binary op l r => exact parsed_cond_of_operand (h.mono (precedence_bounds op).1)
  | unary op f => exact parsed_cond_of_operand (operand_of_unary h 1)
  | leaf | array | comma | dot | call | index | slice | range =>
    exact parsed_cond_of_operand (operand_of_unary (parsed_unary_of_access h) 1)

theorem assign : Parsed Grammar.assign endsAssign e.chunks e := by
  cases e with
  | assign op l r => exact h
  | _ => exact parsed_assign_of_cond (h.cond rfl)

theorem expr : Parsed Grammar.expr endsExpr e.chunks e := parsed_expr_of_assign h.assign

theorem access_enclosed (he : e.isUnary = false) : Access (e.enclosed Expr.atomic e.chunks) e := by
  unfold Tree.enclosed
  split
  · exact access_paren h.expr
  · next hstrength =>
    cases e with
    | unary op f => exact nomatch he
    | binary op l r => exact absurd (precedence_bounds op).2 hstrength
    | assign | cond | comma => exact absurd (by decide : 0 < Expr.atomic) hstrength
    | leaf | array | dot | call | index | slice | range => exact h

theorem unary_enclosed : Parsed Grammar.unary endsUnary (e.enclosed Expr.atomic e.chunks) e := by
  cases he : e.isUnary with
  | false => exact parsed_unary_of_access (h.access_enclosed he)
  | true =>
    cases e with
    | unary op f => exact h
    | _ => exact nomatch he

theorem operand_enclosed (hleast : 1 ≤ least) : Operand least (e.enclosed least e.chunks) e := by
  unfold Tree.enclosed
  split
  · exact operand_of_unary (parsed_unary_of_access (access_paren h.expr)) least
  · next hstrength =>
    cases e with
    | unary op f => exact operand_of_unary h least
    | binary op l r => exact h.mono (Nat.le_of_not_lt hstrength)
    | assign | cond | comma => exact absurd hleast hstrength
    | leaf | array | dot | call | index | slice | range =>
      exact operand_of_unary (parsed_unary_of_access h) least

end

/-- Trees with a spelling are read as they are spelled. -/
theorem of_readable (he : e.Readable) : Phrase e := by
  induction he with simp only [Phrase, Tree.chunks]
  | leaf hx =>
    exact access_leaf hx
  | array _ ih =>
    exact access_array (listed_chunks fun e he => (ih e he).assign)
  | unary hop _ ih =>
    exact parsed_unary hop ih.unary_enclosed
  | @binary op _ _ hop _ _ ihl ihr =>
    exact operand_binary hop (ihl.operand_enclosed (precedence_bounds op).1)
      (ihr.operand_enclosed (Nat.le_add_left 1 _))
  | assign hop hl _ _ ihl ihr =>
    exact parsed_assign hop (ihl.cond hl) ihr.assign
  | comma _ _ ihl ihr =>
    have := access_paren (parsed_expr ihl.assign ihr.assign)
    rwa [append_assoc] at this
  | cond hn _ _ _ ihc ihy ihn =>
    exact parsed_cond (ihc.operand_enclosed (Nat.le_refl 1)) ihy.expr (ihn.cond hn)
  | dot hb _ _ ih =>
    exact (ih.access_enclosed hb).step step_dot
  | call hf _ _ ihf ih =>
    exact (ihf.access_enclosed hf).step (step_call (listed_chunks fun e he => (ih e he).assign))
  | index hb _ _ ihb ihi =>
    exact (ihb.access_enclosed hb).step (step_bracket (bracketed_index ihi.assign))
  | slice hb _ ih =>
    exact (ih.access_enclosed hb).step (step_bracket bracketed_slice)
  | range hb _ _ _ ihb ihl ihu =>
    exact (ihb.access_enclosed hb).step (step_bracket (bracketed_range ihl.assign ihu.assign))

end Phrase

end DCompiler.Grammar
