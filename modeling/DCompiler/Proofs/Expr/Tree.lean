import DCompiler.Expr.Printer
import DCompiler.Proofs.Tables.Basic
import DCompiler.Grammar.Expr
import DCompiler.Proofs.Token.Spacing

/-!
# Expressions as trees

An expression is an entry of a table. The tree that it stands for has no places and no spans
(`Denotes`), so two entries, also of different tables, can be said to be the same expression.
An entry that has a tree is not below itself, so walks down to the depth of the table reach all of
it (`within_size`).

A tree is written as a row of words, with parentheses where an operand holds together less than its
place asks for (`Tree.chunks`). `Tree.Readable` says which trees the grammar has a way to write.
-/

namespace DCompiler

open List ExprTable

/-! ## Depth -/

namespace ExprTable

variable {t : ExprTable} {id : ExprId} {n : Nat}

/-- There are at most so many entries on each way down from an entry, with itself. -/
def Within (t : ExprTable) : Nat → ExprId → Prop
  | 0, _ => False
  | n + 1, id => ∀ c ∈ t.children id, t.Within n c

theorem within_iff : t.Within n id ↔ Ends t.children n id := by
  induction n generalizing id with
  | zero => rfl
  | succ n ih => exact forall₂_congr fun c _ => ih

theorem index_lt_of_child {c : ExprId} (hc : c ∈ t.children id) : id.index < t.size := by
  refine index_lt_of_kind rfl fun herror => ?_
  rw [children, herror] at hc
  exact nomatch hc

theorem within_size (h : t.Within n id) : t.Within (t.size + 1) id :=
  within_iff.mpr (ends_size (fun _ _ => congrArg ExprId.mk) index_lt_of_child (within_iff.mp h))

theorem within_of_children {e : Expr} (hkind : t.kind id = e)
    (hchildren : ∀ c ∈ e.children, ∃ n, t.Within n c) : ∃ n, t.Within n id := by
  subst hkind
  simp only [within_iff] at hchildren ⊢
  exact exists_ends hchildren

end ExprTable

/-! ## Trees -/

inductive Leaf where
  | integer (value : UInt64)
  | bool (value : Bool)
  | string (text : String)
  | null
  | thisRef
  | superRef
  | dollar
  | name (text : String)
  deriving Repr, DecidableEq

def Leaf.expr : Leaf → Expr
  | integer value => .integer value none
  | bool value => .integer (if value then 1 else 0) (some .bool)
  | string text => .string text
  | null => .null
  | thisRef => .thisRef
  | superRef => .superRef
  | dollar => .dollar
  | name text => .identifier text

theorem Leaf.expr_injective {x y : Leaf} (h : x.expr = y.expr) : x = y := by
  cases x <;> cases y <;> grind [Leaf.expr]

/-- Expressions as they are written, before they are analysed. -/
inductive Tree where
  | leaf (x : Leaf)
  | array (elems : List Tree)
  | unary (op : UnaryOp) (operand : Tree)
  | binary (op : BinaryOp) (lhs rhs : Tree)
  | assign (op : AssignOp) (lhs rhs : Tree)
  | comma (lhs rhs : Tree)
  | cond (test yes no : Tree)
  | dot (base : Tree) (name : String)
  | call (callee : Tree) (args : List Tree)
  | index (base place : Tree)
  /-- A slice of the whole. -/
  | slice (base : Tree)
  /-- A slice between bounds. -/
  | range (base lower upper : Tree)

/-- An entry stands for a tree. -/
inductive Denotes (t : ExprTable) : ExprId → Tree → Prop
  | leaf {id : ExprId} {x : Leaf} : t.kind id = x.expr → Denotes t id (.leaf x)
  | array {id : ExprId} {elems : List ExprId} {es : List Tree} : t.kind id = .array elems →
    elems.length = es.length → (∀ p ∈ elems.zip es, Denotes t p.1 p.2) → Denotes t id (.array es)
  | unary {id operand : ExprId} {op : UnaryOp} {e : Tree} : t.kind id = .unary op operand →
    Denotes t operand e → Denotes t id (.unary op e)
  | binary {id lhs rhs : ExprId} {op : BinaryOp} {l r : Tree} : t.kind id = .binary op lhs rhs →
    Denotes t lhs l → Denotes t rhs r → Denotes t id (.binary op l r)
  | assign {id lhs rhs : ExprId} {op : AssignOp} {l r : Tree} :
    t.kind id = .assign op lhs rhs false → Denotes t lhs l → Denotes t rhs r →
      Denotes t id (.assign op l r)
  | comma {id lhs rhs : ExprId} {l r : Tree} : t.kind id = .comma lhs rhs →
    Denotes t lhs l → Denotes t rhs r → Denotes t id (.comma l r)
  | cond {id test yes no : ExprId} {c y n : Tree} : t.kind id = .cond test yes no →
    Denotes t test c → Denotes t yes y → Denotes t no n → Denotes t id (.cond c y n)
  | dot {id base : ExprId} {name : String} {b : Tree} : t.kind id = .dot base name →
    Denotes t base b → Denotes t id (.dot b name)
  | call {id callee : ExprId} {args : List ExprId} {f : Tree} {es : List Tree} :
    t.kind id = .call callee args → Denotes t callee f → args.length = es.length →
      (∀ p ∈ args.zip es, Denotes t p.1 p.2) → Denotes t id (.call f es)
  | index {id base place : ExprId} {b i : Tree} : t.kind id = .index base place none →
    Denotes t base b → Denotes t place i → Denotes t id (.index b i)
  | slice {id base : ExprId} {b : Tree} : t.kind id = .slice base none none none →
    Denotes t base b → Denotes t id (.slice b)
  | range {id base lower upper : ExprId} {b l u : Tree} :
    t.kind id = .slice base (some lower) (some upper) none → Denotes t base b →
      Denotes t lower l → Denotes t upper u → Denotes t id (.range b l u)

namespace Denotes

variable {t u : ExprTable} {id : ExprId} {e : Tree}

theorem mono (htu : t.Extends u) (h : Denotes t id e) : Denotes u id e := by
  induction h with
  | @leaf id x hkind => exact .leaf (htu.kind hkind (by cases x <;> simp [Leaf.expr]))
  | array hkind hlength _ ih => exact .array (htu.kind hkind (by simp)) hlength ih
  | unary hkind _ ih => exact .unary (htu.kind hkind (by simp)) ih
  | binary hkind _ _ ihl ihr => exact .binary (htu.kind hkind (by simp)) ihl ihr
  | assign hkind _ _ ihl ihr => exact .assign (htu.kind hkind (by simp)) ihl ihr
  | comma hkind _ _ ihl ihr => exact .comma (htu.kind hkind (by simp)) ihl ihr
  | cond hkind _ _ _ ihc ihy ihn => exact .cond (htu.kind hkind (by simp)) ihc ihy ihn
  | dot hkind _ ih => exact .dot (htu.kind hkind (by simp)) ih
  | call hkind _ hlength _ ihf ih => exact .call (htu.kind hkind (by simp)) ihf hlength ih
  | index hkind _ _ ihb ihi => exact .index (htu.kind hkind (by simp)) ihb ihi
  | slice hkind _ ih => exact .slice (htu.kind hkind (by simp)) ih
  | range hkind _ _ _ ihb ihl ihu => exact .range (htu.kind hkind (by simp)) ihb ihl ihu

theorem exists_within (h : Denotes t id e) : ∃ n, t.Within n id := by
  have hlist {ids : List ExprId} {es : List Tree} (hlength : ids.length = es.length)
      (hzip : ∀ p ∈ ids.zip es, ∃ n, t.Within n p.1) : ∀ c ∈ ids, ∃ n, t.Within n c := by
    intro c hc
    rw [← map_fst_zip (Nat.le_of_eq hlength)] at hc
    obtain ⟨p, hp, rfl⟩ := mem_map.mp hc
    exact hzip p hp
  induction h with
  | @leaf id x hkind =>
    refine ⟨1, fun c hc => ?_⟩
    rw [children, hkind] at hc
    cases x <;> exact nomatch hc
  | array hkind hlength _ ih => exact within_of_children hkind (hlist hlength ih)
  | unary hkind _ ih => exact within_of_children hkind (by simpa [Expr.children])
  | binary hkind _ _ ihl ihr | assign hkind _ _ ihl ihr | comma hkind _ _ ihl ihr =>
    exact within_of_children hkind (by simp [Expr.children, ihl, ihr])
  | cond hkind _ _ _ ihc ihy ihn =>
    exact within_of_children hkind (by simp [Expr.children, ihc, ihy, ihn])
  | dot hkind _ ih => exact within_of_children hkind (by simpa [Expr.children])
  | call hkind _ hlength _ ihf ih =>
    exact within_of_children hkind (forall_mem_cons.mpr ⟨ihf, hlist hlength ih⟩)
  | index hkind _ _ ihb ihi =>
    exact within_of_children hkind (by simp [Expr.children, ihb, ihi])
  | slice hkind _ ih => exact within_of_children hkind (by simpa [Expr.children])
  | range hkind _ _ _ ihb ihl ihu =>
    exact within_of_children hkind (by simp [Expr.children, ihb, ihl, ihu])

theorem eq_of_zip {ids : List ExprId} {es es' : List Tree} (hlength : ids.length = es.length)
    (hlength' : ids.length = es'.length) (hzip' : ∀ p ∈ ids.zip es', Denotes t p.1 p.2)
    (hunique : ∀ p ∈ ids.zip es, ∀ {e' : Tree}, Denotes t p.1 e' → p.2 = e') : es = es' := by
  induction ids generalizing es es' with
  | nil => rw [eq_nil_of_length_eq_zero hlength.symm, eq_nil_of_length_eq_zero hlength'.symm]
  | cons c ids ih =>
    obtain ⟨e, es, rfl⟩ := exists_cons_of_length_eq_add_one hlength.symm
    obtain ⟨e', es', rfl⟩ := exists_cons_of_length_eq_add_one hlength'.symm
    rw [zip_cons_cons, forall_mem_cons] at hzip' hunique
    have hhead : e = e' := hunique.1 hzip'.1
    rw [hhead, ih (Nat.succ.inj hlength) (Nat.succ.inj hlength') hzip'.2 hunique.2]

theorem unique {e' : Tree} (h : Denotes t id e) (h' : Denotes t id e') : e = e' := by
  induction h generalizing e' with
  | leaf hkind =>
    cases h' with
    | leaf hkind' => rw [Leaf.expr_injective (hkind.symm.trans hkind')]
    | _ => grind [Leaf.expr, cases Leaf]
  | array hkind hlength _ ih =>
    cases h' with
    | array hkind' hlength' hzip =>
      cases hkind.symm.trans hkind'
      rw [eq_of_zip hlength hlength' hzip ih]
    | _ => grind [Leaf.expr, cases Leaf]
  | call hkind _ hlength _ ihf ih =>
    cases h' with
    | call hkind' hf hlength' hzip =>
      cases hkind.symm.trans hkind'
      rw [ihf hf, eq_of_zip hlength hlength' hzip ih]
    | _ => grind [Leaf.expr, cases Leaf]
  | _ => cases h' <;> grind [Leaf.expr, cases Leaf]

end Denotes

end DCompiler

namespace DCompiler

open Token

def Token.Chunk.word (kind : TokenKind) (spelling : String) : Chunk := ⟨kind, spelling, spelling⟩

@[simp] theorem Token.Chunk.kind_word (kind : TokenKind) (spelling : String) :
    (Chunk.word kind spelling).kind = kind := rfl

/-! ## Operators -/

def UnaryOp.kind : UnaryOp → TokenKind
  | neg => .minus | complement => .tilde | not => .bang | deref => .star | addressOf => .amp

def BinaryOp.kind : BinaryOp → TokenKind
  | add => .plus | sub => .minus | mul => .star | div => .slash | mod => .percent
  | and => .amp | or => .pipe | xor => .caret | pow => .caretCaret | shl => .shl | shr => .shr
  | eq => .eqEq | ne => .notEq | lt => .lt | le => .le | gt => .gt | ge => .ge
  | andAnd => .ampAmp | orOr => .pipePipe

/-- The kind of an assignment operator. Not all binary operators can be part of one; for the others
there is no word. -/
def AssignOp.kind : AssignOp → TokenKind
  | plain => .assign
  | compound .add => .plusAssign
  | compound .sub => .minusAssign
  | compound .mul => .starAssign
  | compound .div => .slashAssign
  | compound .mod => .percentAssign
  | compound .and => .ampAssign
  | compound .or => .pipeAssign
  | compound .xor => .caretAssign
  | compound .pow => .caretCaretAssign
  | compound .shl => .shlAssign
  | compound .shr => .shrAssign
  | compound _ => .eof

def AssignOp.IsWord (op : AssignOp) : Prop := ∃ k, Grammar.assignOp? k = some op

theorem AssignOp.IsWord.kind {op : AssignOp} (h : op.IsWord) :
    Grammar.assignOp? op.kind = some op := by
  obtain ⟨k, hk⟩ := h
  unfold Grammar.assignOp? at hk
  split at hk <;> cases hk <;> rfl

/-! ## Words -/

def Leaf.chunk : Leaf → Chunk
  | integer value => .word .intLiteral (toString value.toNat)
  | bool true => .word .kwTrue "true"
  | bool false => .word .kwFalse "false"
  | string text => ⟨.stringLiteral, "\"" ++ Text.escape text ++ "\"", Text.escape text⟩
  | null => .word .kwNull "null"
  | thisRef => .word .kwThis "this"
  | superRef => .word .kwSuper "super"
  | dollar => .word .dollar "$"
  | name text => .word .ident text

namespace Tree

/-- How tightly a tree holds together as an operand. -/
def strength : Tree → Nat
  | binary op _ _ => op.precedence
  | assign _ _ _ | cond _ _ _ | comma _ _ => 0
  | _ => Expr.atomic

/-- The words of an operand, in a place that asks for some strength. -/
def enclosed (e : Tree) (outer : Nat) (ps : List Chunk) : List Chunk :=
  if e.strength < outer then .word .lParen "(" :: (ps ++ [.word .rParen ")"]) else ps

def listed (rows : List (List Chunk)) : List Chunk := [Chunk.word .comma ","].intercalate rows

def chunks : Tree → List Chunk
  | leaf x => [x.chunk]
  | array elems => .word .lBracket "[" :: (listed (elems.map chunks) ++ [.word .rBracket "]"])
  | unary op operand => .word op.kind op.symbol :: operand.enclosed Expr.atomic operand.chunks
  | binary op lhs rhs =>
    lhs.enclosed op.precedence lhs.chunks ++
      .word op.kind op.symbol :: rhs.enclosed (op.precedence + 1) rhs.chunks
  | assign op lhs rhs => lhs.chunks ++ .word op.kind op.symbol :: rhs.chunks
  | comma lhs rhs =>
    .word .lParen "(" :: (lhs.chunks ++ .word .comma "," :: (rhs.chunks ++ [.word .rParen ")"]))
  | cond test yes no =>
    test.enclosed 1 test.chunks ++
      .word .question "?" :: (yes.chunks ++ .word .colon ":" :: no.chunks)
  | dot base name =>
    base.enclosed Expr.atomic base.chunks ++ [.word .dot ".", .word .ident name]
  | call callee args =>
    callee.enclosed Expr.atomic callee.chunks ++
      .word .lParen "(" :: (listed (args.map chunks) ++ [.word .rParen ")"])
  | index base place =>
    base.enclosed Expr.atomic base.chunks ++
      .word .lBracket "[" :: (place.chunks ++ [.word .rBracket "]"])
  | slice base =>
    base.enclosed Expr.atomic base.chunks ++ [.word .lBracket "[", .word .rBracket "]"]
  | range base lower upper =>
    base.enclosed Expr.atomic base.chunks ++ .word .lBracket "[" ::
      (lower.chunks ++ .word .dotDot ".." :: (upper.chunks ++ [.word .rBracket "]"]))

end Tree

theorem Denotes.strength {t : ExprTable} {id : ExprId} {e : Tree} (h : Denotes t id e) :
    (t.kind id).strength = e.strength := by
  cases h with
  | @leaf _ x hkind =>
    rw [hkind]
    cases x <;> rfl
  | array hkind | unary hkind | binary hkind | assign hkind | comma hkind | cond hkind | dot hkind
    | call hkind | index hkind | slice hkind | range hkind =>
    rw [hkind]
    rfl

/-! ## Trees with a spelling -/

/-- A text that is one token, an identifier. -/
def IsName (name : String) : Prop := Takes (Text.bytes name) [] (.token .ident)

instance (name : String) : Decidable (IsName name) :=
  inferInstanceAs (Decidable (Takes (Text.bytes name) [] (.token .ident)))

/-- Leaves that are read back as they were. -/
def Leaf.Readable : Leaf → Prop
  | integer value => value.toNat < 2 ^ 63
  | string text => ∀ c ∈ text.toList, Text.IsPlain c
  | name text => IsName text ∧ Scalar.ofName? text = none
  | _ => True

namespace Tree

def isAssign : Tree → Bool
  | assign _ _ _ => true
  | _ => false

def isUnary : Tree → Bool
  | unary _ _ => true
  | _ => false

/-- Trees that are read back as they were. Words do not tell an assignment in a place where only its
left side is looked for, nor a prefix operator from the accesses behind its operand. -/
inductive Readable : Tree → Prop
  | leaf {x : Leaf} : x.Readable → Readable (.leaf x)
  | array {elems : List Tree} : (∀ e ∈ elems, Readable e) → Readable (.array elems)
  | unary {op : UnaryOp} {operand : Tree} : op ≠ .addressOf → Readable operand →
    Readable (.unary op operand)
  | binary {op : BinaryOp} {lhs rhs : Tree} : op ≠ .pow → Readable lhs → Readable rhs →
    Readable (.binary op lhs rhs)
  | assign {op : AssignOp} {lhs rhs : Tree} : op.IsWord → lhs.isAssign = false → Readable lhs →
    Readable rhs → Readable (.assign op lhs rhs)
  | comma {lhs rhs : Tree} : Readable lhs → Readable rhs → Readable (.comma lhs rhs)
  | cond {test yes no : Tree} : no.isAssign = false → Readable test → Readable yes → Readable no →
    Readable (.cond test yes no)
  | dot {base : Tree} {name : String} : base.isUnary = false → IsName name → Readable base →
    Readable (.dot base name)
  | call {callee : Tree} {args : List Tree} : callee.isUnary = false → Readable callee →
    (∀ e ∈ args, Readable e) → Readable (.call callee args)
  | index {base place : Tree} : base.isUnary = false → Readable base → Readable place →
    Readable (.index base place)
  | slice {base : Tree} : base.isUnary = false → Readable base → Readable (.slice base)
  | range {base lower upper : Tree} : base.isUnary = false → Readable base → Readable lower →
    Readable upper → Readable (.range base lower upper)

end Tree

end DCompiler
