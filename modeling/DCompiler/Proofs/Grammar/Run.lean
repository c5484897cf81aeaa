import DCompiler.Proofs.Token.Tiling
import DCompiler.Grammar.Module
import DCompiler.Proofs.Expr.Tree

/-!
# Runs of parsers

Words are cut from the text in one pass: each token is looked for behind the place where the one
before it starts. Tokens are in order, so what is cut is what stands between the offsets of the
token (`words_chunks`).

That a parser succeeds from a state, and what it leaves behind (`Runs`): parsers are taken apart
from the front. Each rule says what the first step does to the words and the table when the next
words are known, and leaves a run of the rest.
-/

namespace DCompiler.Grammar

open Token Text

def Word.chunk (w : Word) : Chunk := ⟨w.kind, w.spelling, w.text⟩

variable {offset start stop : Nat} {cs : List Char} {l : List (Nat × Char)}

/-! ## Characters in order -/

theorem le_of_mem_withOffsets {p : Nat × Char} (hp : p ∈ withOffsets offset cs) : offset ≤ p.1 := by
  induction cs generalizing offset with
  | nil => exact nomatch hp
  | cons c cs ih =>
    rcases List.mem_cons.mp hp with rfl | hp
    · exact .refl
    · exact Nat.le_of_add_right_le (ih hp)

theorem withOffsets_sorted (offset : Nat) (cs : List Char) :
    (withOffsets offset cs).Pairwise fun p q => p.1 < q.1 := by
  induction cs generalizing offset with
  | nil => exact .nil
  | cons c cs ih =>
    refine .cons (fun q hq => ?_) (ih _)
    exact Nat.lt_of_lt_of_le (Nat.lt_add_of_pos_right c.utf8Size_pos) (le_of_mem_withOffsets hq)

theorem dropWhile_eq_filter (hl : l.Pairwise fun p q => p.1 < q.1) (start : Nat) :
    l.dropWhile (·.1 < start) = l.filter (start ≤ ·.1) := by
  induction hl with
  | nil => rfl
  | @cons p l hp _ ih =>
    by_cases hlt : p.1 < start
    · simp [hlt, ih]
    have hall : ∀ q ∈ l, start ≤ q.1 := fun q hq => by have := hp q hq; omega
    have hself : l.filter (start ≤ ·.1) = l :=
      List.filter_eq_self.mpr fun q hq => decide_eq_true (hall q hq)
    simp [hlt, hself, Nat.le_of_not_lt hlt]

theorem takeWhile_eq_filter (hl : l.Pairwise fun p q => p.1 < q.1) (stop : Nat) :
    l.takeWhile (·.1 < stop) = l.filter (·.1 < stop) := by
  induction hl with
  | nil => rfl
  | @cons p l hp _ ih =>
    by_cases hlt : p.1 < stop
    · simp [hlt, ih]
    · have hall : ∀ q ∈ l, stop ≤ q.1 := fun q hq => by have := hp q hq; omega
      simpa [hlt] using hall

theorem sliceFrom_eq_filter :
    sliceFrom start stop offset cs =
      ((withOffsets offset cs).filter fun p => start ≤ p.1 ∧ p.1 < stop).map (·.2) := by
  induction cs generalizing offset with
  | nil => rfl
  | cons c cs ih =>
    rw [sliceFrom, withOffsets, List.filter_cons, ih]
    by_cases hc : start ≤ offset ∧ offset < stop <;> simp [hc]

theorem dropWhile_filter {next : Nat} (cs : List Char) (hnext : start ≤ next) :
    ((withOffsets 0 cs).filter (start ≤ ·.1)).dropWhile (·.1 < next) =
      (withOffsets 0 cs).filter (next ≤ ·.1) := by
  rw [dropWhile_eq_filter ((withOffsets_sorted 0 cs).filter _), List.filter_filter]
  refine List.filter_congr fun p _ => ?_
  simpa using fun hp => Nat.le_trans hnext hp

theorem cut_filter {span : Span} (source : String) (hstart : start ≤ span.start) :
    cut span ((withOffsets 0 source.toList).filter (start ≤ ·.1)) =
      slice source span.start span.stop := by
  have hsorted := withOffsets_sorted 0 source.toList
  rw [cut, dropWhile_filter _ hstart, takeWhile_eq_filter (hsorted.filter _), List.filter_filter,
    slice, sliceFrom_eq_filter]
  congr 2
  exact List.filter_congr fun p _ => by simp [Bool.and_comm]

/-! ## Tokens in order -/

theorem wordsOf_chunks {source : String} {tokens : List Token}
    (htokens : ∀ t ∈ tokens, start ≤ t.span.start ∧ t.span.start ≤ t.text.start)
    (hordered : tokens.Pairwise fun t u => t.span.start ≤ u.span.start) :
    (wordsOf ((withOffsets 0 source.toList).filter (start ≤ ·.1)) tokens).map Word.chunk =
      tokens.map (chunk source) := by
  induction hordered generalizing start with
  | nil => rfl
  | @cons t ts hts _ ih =>
    obtain ⟨⟨hstart, htext⟩, htokens⟩ := List.forall_mem_cons.mp htokens
    have ih := ih fun u hu => ⟨hts u hu, (htokens u hu).2⟩
    simp only [wordsOf, dropWhile_filter _ hstart, List.map_cons, ih, Word.chunk, chunk,
      cut_filter source .refl, cut_filter source htext]

theorem words_chunks (source : String) :
    (words source (lex source).tokens).map Word.chunk = (lex source).tokens.map (chunk source) := by
  obtain ⟨tokens, htokens, htiling⟩ := lexFrom_tiles 0 (bytes source)
  have hall : (withOffsets 0 source.toList).filter (0 ≤ ·.1) = withOffsets 0 source.toList :=
    List.filter_eq_self.mpr fun p _ => decide_eq_true (Nat.zero_le p.1)
  rw [words, ← hall, lex, htokens]
  refine wordsOf_chunks (fun t ht => ⟨Nat.zero_le _, ?_⟩) (List.pairwise_append.mpr
    ⟨?_, List.pairwise_singleton .., fun t ht u hu => ?_⟩)
  · rcases List.mem_append.mp ht with ht | ht
    · exact (htiling.placed t ht).2.text.1
    · obtain rfl := List.mem_singleton.mp ht
      exact .refl
  · refine htiling.ordered.imp_of_mem fun ht _ hstop => ?_
    exact Nat.le_trans (Nat.le_of_lt (htiling.placed _ ht).2.nonempty) hstop
  · obtain rfl := List.mem_singleton.mp hu
    have hplaced := (htiling.placed t ht).2
    exact Nat.le_trans (Nat.le_of_lt hplaced.nonempty) hplaced.le

/-! ## Runs -/

open List

def State.chunks (s : State) : List Chunk := s.rest.map Word.chunk

/-- A state that has these words left, with all expressions that were there before. -/
structure State.Goes (s : State) (ps : List Chunk) (s' : State) : Prop where
  chunks : s'.chunks = ps
  exprs : s.exprs.Extends s'.exprs

theorem State.Goes.trans {s s' s'' : State} {ps ps' : List Chunk} (h : s.Goes ps s')
    (h' : s'.Goes ps' s'') : s.Goes ps' s'' :=
  ⟨h'.chunks, h.exprs.trans h'.exprs⟩

theorem State.Goes.add {s s' s'' : State} {ps : List Chunk} (h : s.Goes ps s')
    (h' : s'.Goes s'.chunks s'') : s.Goes ps s'' :=
  ⟨h'.chunks.trans h.chunks, h.exprs.trans h'.exprs⟩

def Runs {α : Type} (x : Parser α) (s : State) (Q : α → State → Prop) : Prop :=
  ∃ a s', x s = .ok (a, s') ∧ Q a s'

namespace Runs

variable {α β : Type} {x : Parser α} {f : α → Parser β} {s : State} {P : α → State → Prop}
  {Q : β → State → Prop} {p : Chunk} {ps : List Chunk} {k : TokenKind}

theorem bind (hx : Runs x s P) (hf : ∀ a s', P a s' → Runs (f a) s' Q) : Runs (x >>= f) s Q := by
  obtain ⟨a, s', hx, ha⟩ := hx
  obtain ⟨b, s'', hb, hQ⟩ := hf a s' ha
  refine ⟨b, s'', ?_, hQ⟩
  show (x s >>= fun p => f p.1 p.2) = _
  rw [hx]
  exact hb

theorem pure {a : α} (h : P a s) : Runs (pure a) s P := ⟨a, s, rfl, h⟩

theorem assoc {γ : Type} {g : β → Parser γ} {R : γ → State → Prop}
    (h : Runs ((x >>= f) >>= g) s R) : Runs (x >>= fun a => f a >>= g) s R := by
  rwa [bind_assoc] at h

theorem here {f : Span → Parser β} (h : Runs (f s.here) s Q) : Runs (Grammar.here >>= f) s Q := h

theorem spanOf {id : ExprId} {f : Span → Parser β} (h : ∀ span, Runs (f span) s Q) :
    Runs (Grammar.spanOf id >>= f) s Q := h _

section

variable (hs : s.chunks = p :: ps)
include hs

theorem peek {f : TokenKind → Parser β} (h : Runs (f p.kind) s Q) :
    Runs (Grammar.peek >>= f) s Q := by
  obtain ⟨w, ws, hrest, rfl, -⟩ := map_eq_cons_iff.mp hs
  have hkind : s.kindAt 0 = w.chunk.kind := by rw [State.kindAt, hrest]; rfl
  show Runs (f (s.kindAt 0)) s Q
  rwa [hkind]

theorem text {f : String → Parser β} (h : Runs (f p.text) s Q) : Runs (Grammar.text >>= f) s Q := by
  obtain ⟨w, ws, hrest, rfl, -⟩ := map_eq_cons_iff.mp hs
  have htext : s.text = w.chunk.text := by rw [State.text, hrest]; rfl
  show Runs (f s.text) s Q
  rwa [htext]

theorem taken (hps : ps ≠ []) : Runs Grammar.advance s fun _ s' => s.Goes ps s' := by
  obtain ⟨w, ws, hrest, -, rfl⟩ := map_eq_cons_iff.mp hs
  obtain ⟨v, vs, rfl⟩ := exists_cons_of_ne_nil fun h : ws = [] => hps (by rw [h]; rfl)
  refine ⟨s.here, s.next, rfl, ?_⟩
  rw [State.next, hrest]
  exact ⟨rfl, .refl⟩

theorem advance {f : Span → Parser β} (h : ∀ span s', s.Goes ps s' → Runs (f span) s' Q)
    (hps : ps ≠ [] := by simp) : Runs (Grammar.advance >>= f) s Q :=
  bind (taken hs hps) h

theorem eat_pos {f : Bool → Parser β} (h : ∀ s', s.Goes ps s' → Runs (f true) s' Q)
    (hps : ps ≠ [] := by simp) (hp : p.kind = k := by rfl) : Runs (eat k >>= f) s Q := by
  refine bind (P := fun b s' => b = true ∧ s.Goes ps s') ?_ ?_
  · refine peek hs ?_
    rw [if_pos hp]
    exact advance hs (fun _ s' hs' => pure ⟨rfl, hs'⟩) hps
  · rintro _ s' ⟨rfl, hs'⟩
    exact h s' hs'

theorem eat_neg {f : Bool → Parser β} (hp : p.kind ≠ k)
    (h : Runs (f false) s Q) : Runs (eat k >>= f) s Q := by
  refine bind (P := fun b s' => b = false ∧ s' = s) ?_ ?_
  · refine peek hs ?_
    rw [if_neg hp]
    exact pure ⟨rfl, rfl⟩
  · rintro _ _ ⟨rfl, rfl⟩
    exact h

theorem expect {what : String} {f : Span → Parser β}
    (h : ∀ span s', s.Goes ps s' → Runs (f span) s' Q) (hps : ps ≠ [] := by simp)
    (hp : p.kind = k := by rfl) : Runs (Grammar.expect k what >>= f) s Q := by
  refine bind (P := fun _ s' => s.Goes ps s') (peek hs ?_) h
  rw [if_pos hp]
  exact taken hs hps

end

theorem expect_last {what : String} {f : Span → Parser β} (hs : s.chunks = [p]) (hp : p.kind = k)
    (h : ∀ span, Runs (f span) s Q) : Runs (Grammar.expect k what >>= f) s Q := by
  obtain ⟨w, ws, hrest, -, hws⟩ := map_eq_cons_iff.mp hs
  obtain rfl := map_eq_nil_iff.mp hws
  refine bind (P := fun _ s' => s' = s) (peek hs ?_) ?_
  · rw [if_pos hp]
    refine ⟨s.here, s.next, rfl, ?_⟩
    rw [State.next, hrest]
  · rintro span _ rfl
    exact h span

theorem identifier {f : String × Span → Parser β} (hs : s.chunks = p :: ps)
    (h : ∀ span s', s.Goes ps s' → Runs (f (p.text, span)) s' Q) (hps : ps ≠ [] := by simp)
    (hp : p.kind = .ident := by rfl) : Runs (Grammar.identifier >>= f) s Q := by
  refine bind (P := fun found s' => found.1 = p.text ∧ s.Goes ps s') (peek hs ?_) ?_
  · rw [if_pos hp]
    exact text hs (advance hs (fun _ s' hs' => pure ⟨rfl, hs'⟩) hps)
  · rintro ⟨_, span⟩ s' ⟨rfl, hs'⟩
    exact h span s' hs'

/-! ## Entries -/

variable {e : Expr} {P : ExprId → State → Prop}

section

variable (h : ∀ id s', s.Goes s.chunks s' → s'.exprs.kind id = e → P id s')
include h

theorem addExpr {span : Span} : Runs (Grammar.addExpr e span) s P := by
  refine ⟨(s.exprs.add e span).1, { s with exprs := (s.exprs.add e span).2 }, rfl,
    h _ _ ⟨rfl, .addNode _⟩ ?_⟩
  simp only [ExprTable.kind, ExprTable.add, ExprTable.node_addNode_self]

theorem addExprFrom {start : Span} : Runs (Grammar.addExprFrom start e) s P := addExpr h

theorem addExprOver {lhs rhs : ExprId} : Runs (Grammar.addExprOver lhs rhs e) s P := addExpr h

end

end Runs

end DCompiler.Grammar
