import DCompiler.Proofs.Token.Lexeme

/-!
# Tokens tile the text

Lexemes follow each other without a hole, so each byte of a text is in a token, in a fault, or
between tokens: then it is a blank or part of a comment (`Gap`). The proof goes along the row of
lexemes (`Tiling.append` is its step), with the text behind the first lexeme placed further on.
-/

namespace DCompiler.Token

open List

variable {offset i : Nat} {x y : List UInt8} {l : Lexeme} {tokens ts : List Token}
  {faults fs : List (LexFault × Span)}

/-! ## Gaps -/

/-- Text between tokens, in front of other text: a blank, a comment up to the end of its line, or a
comment up to its first closing. -/
inductive Gap : List UInt8 → List UInt8 → Prop
  | blank {b : UInt8} {after : List UInt8} : b ∈ [32, 9, 10, 13] → Gap [b] after
  | lineComment {body after : List UInt8} : 10 ∉ body → (after = [] ∨ after.head? = some 10) →
    Gap (byte '/' :: byte '/' :: body) after
  | comment {body after : List UInt8} : ¬[byte '*', byte '/'] <:+: body ++ [byte '*'] →
    Gap (byte '/' :: byte '*' :: (body ++ [byte '*', byte '/'])) after

theorem Takes.gap (h : Takes x y .skipped) : Gap x y := by
  cases h.reads with
  | blank hb => exact .blank (by simpa [isBlank, or_assoc] using hb)
  | lineComment hbody hafter => exact .lineComment hbody hafter
  | @comment z _ hlength =>
    obtain ⟨body, after, hz, hn, hfirst⟩ := comment_closed hlength
    obtain ⟨rfl, rfl⟩ := append_inj hz (by simp [hn])
    exact .comment hfirst

/-! ## Places -/

def Covers (s : Span) (i : Nat) : Prop := s.start ≤ i ∧ i < s.stop

/-- A token that is not the end has bytes of its own up to some offset, and its text is among
them. -/
structure Placed (t : Token) (stop : Nat) : Prop where
  not_eof : t.kind ≠ .eof
  nonempty : t.span.start < t.span.stop
  le : t.span.stop ≤ stop
  text : t.span.start ≤ t.text.start ∧ t.text.start ≤ t.text.stop ∧ t.text.stop ≤ t.span.stop

/-- An offset is inside a gap that touches no token, where the bytes start at `offset`. -/
def InGap (offset : Nat) (bs : List UInt8) (tokens : List Token) (i : Nat) : Prop :=
  ∃ before gap after, bs = before ++ gap ++ after ∧ Gap gap after ∧
    offset + before.length ≤ i ∧ i < offset + before.length + gap.length ∧
    ∀ t ∈ tokens, t.span.stop ≤ offset + before.length ∨
      offset + before.length + gap.length ≤ t.span.start

/-- An offset is in a token, in a fault or in a gap. -/
def Covered (offset : Nat) (bs : List UInt8) (tokens : List Token)
    (faults : List (LexFault × Span)) (i : Nat) : Prop :=
  (∃ t ∈ tokens, Covers t.span i) ∨ (∃ f ∈ faults, Covers f.2 i) ∨ InGap offset bs tokens i

/-- Tokens and faults of bytes that start at `offset`. -/
structure Tiling (offset : Nat) (bs : List UInt8) (tokens : List Token)
    (faults : List (LexFault × Span)) : Prop where
  placed : ∀ t ∈ tokens, offset ≤ t.span.start ∧ t.Placed (offset + bs.length)
  ordered : tokens.Pairwise fun t u => t.span.stop ≤ u.span.start
  covered : ∀ i, offset ≤ i → i < offset + bs.length → Covered offset bs tokens faults i

theorem Covered.behind (h : Covered (offset + x.length) y tokens faults i)
    (hts : ∀ t ∈ ts, t.span.stop ≤ offset + x.length) :
    Covered offset (x ++ y) (ts ++ tokens) (fs ++ faults) i := by
  rcases h with ⟨t, ht, hi⟩ | ⟨f, hf, hi⟩ | ⟨before, gap, after, rfl, hgap, hlow, hhigh, hapart⟩
  · exact .inl ⟨t, mem_append_right ts ht, hi⟩
  · exact .inr (.inl ⟨f, mem_append_right fs hf, hi⟩)
  have hlength : offset + (x ++ before).length = offset + x.length + before.length := by
    rw [length_append]
    omega
  refine .inr (.inr ⟨x ++ before, gap, after, by simp, hgap, by omega, by omega, fun t ht => ?_⟩)
  rw [hlength]
  rcases mem_append.mp ht with ht | ht
  · exact .inl (Nat.le_add_right_of_le (hts t ht))
  · exact hapart t ht

theorem Tiling.append (hy : Tiling (offset + x.length) y tokens faults)
    (hts : ∀ t ∈ ts, offset ≤ t.span.start ∧ t.Placed (offset + x.length))
    (hordered : ts.Pairwise fun t u => t.span.stop ≤ u.span.start)
    (hfirst : ∀ i, offset ≤ i → i < offset + x.length →
      Covered offset (x ++ y) (ts ++ tokens) (fs ++ faults) i) :
    Tiling offset (x ++ y) (ts ++ tokens) (fs ++ faults) where
  placed t ht := by
    rw [length_append]
    rcases mem_append.mp ht with ht | ht
    · obtain ⟨hstart, hplaced⟩ := hts t ht
      exact ⟨hstart, { hplaced with le := by have := hplaced.le; omega }⟩
    · obtain ⟨hstart, hplaced⟩ := hy.placed t ht
      exact ⟨by omega, { hplaced with le := by have := hplaced.le; omega }⟩
  ordered := by
    refine pairwise_append.mpr ⟨hordered, hy.ordered, fun t ht u hu => ?_⟩
    exact Nat.le_trans (hts t ht).2.le (hy.placed u hu).1
  covered i hlow hhigh := by
    rw [length_append] at hhigh
    by_cases hi : i < offset + x.length
    · exact hfirst i hlow hi
    · exact (hy.covered i (by omega) (by omega)).behind fun t ht => (hts t ht).2.le

theorem Tiling.addTo (h : Takes x y l) (hy : Tiling (offset + x.length) y tokens faults) :
    ∃ ts fs, (∀ lexed : Lexed, l.addTo ⟨offset, offset + x.length⟩ lexed =
        ⟨ts ++ lexed.tokens, fs ++ lexed.faults⟩) ∧
      Tiling offset (x ++ y) (ts ++ tokens) (fs ++ faults) := by
  have hpos := length_pos_iff.mpr h.ne_nil
  have hone {t : Token} (ht : offset ≤ t.span.start ∧ t.Placed (offset + x.length)) :
      ∀ u ∈ [t], offset ≤ u.span.start ∧ u.Placed (offset + x.length) := by simpa using ht
  cases l with
  | skipped =>
    refine ⟨[], [], fun _ => rfl, hy.append (by simp) .nil fun i hlow hhigh => ?_⟩
    refine .inr (.inr ⟨[], x, y, rfl, h.gap, by simpa using hlow, by simpa using hhigh, ?_⟩)
    exact fun t ht => .inr (hy.placed t ht).1
  | token k =>
    refine ⟨[⟨k, ⟨offset, offset + x.length⟩, ⟨offset, offset + x.length⟩⟩], [], fun _ => rfl,
      hy.append (hone ⟨.refl, ?_⟩) (pairwise_singleton ..) fun i hlow hhigh => ?_⟩
    · exact ⟨h.token_ne_eof, by dsimp only; omega, .refl, by simp⟩
    · exact .inl ⟨_, mem_cons_self, hlow, hhigh⟩
  | quoted k =>
    obtain ⟨q, body, -, hx, hk⟩ := h.quoted
    have hlength : x.length = body.length + 2 := by simp [hx]
    refine ⟨[⟨k, ⟨offset, offset + x.length⟩, ⟨offset + 1, offset + x.length - 1⟩⟩], [],
      fun _ => rfl, hy.append (hone ⟨.refl, ?_⟩) (pairwise_singleton ..)
        fun i hlow hhigh => ?_⟩
    · exact ⟨hk, by dsimp only; omega, .refl, by dsimp only; omega⟩
    · exact .inl ⟨_, mem_cons_self, hlow, hhigh⟩
  | fault cause =>
    refine ⟨[], [(cause, ⟨offset, offset + x.length⟩)], fun _ => rfl,
      hy.append (by simp) .nil fun i hlow hhigh => ?_⟩
    exact .inr (.inl ⟨_, mem_cons_self, hlow, hhigh⟩)

def endAt (offset : Nat) : Token := ⟨.eof, ⟨offset, offset⟩, ⟨offset, offset⟩⟩

theorem lexFrom_tiles (offset : Nat) (bs : List UInt8) :
    ∃ tokens, (lexFrom offset bs).tokens = tokens ++ [endAt (offset + bs.length)] ∧
      Tiling offset bs tokens (lexFrom offset bs).faults := by
  induction bs using lexeme_induction generalizing offset with
  | nil =>
    rw [lexFrom]
    exact ⟨[], rfl, ⟨by simp, .nil, fun i hlow hhigh => absurd hhigh (by simpa using hlow)⟩⟩
  | step x y l h ih =>
    obtain ⟨tokens, htokens, hy⟩ := ih (offset + x.length)
    obtain ⟨ts, fs, hadd, htiling⟩ := hy.addTo h
    rw [lexFrom_append h, hadd]
    refine ⟨ts ++ tokens, ?_, htiling⟩
    rw [htokens, length_append, append_assoc, Nat.add_assoc]

/-- The tokens of a text end with its end, which is found once. The others have bytes of their own,
one behind the other, with their texts inside. Each byte that is in none of them is in a fault or in
a gap, so in a text without faults it is a blank or part of a comment that ends as it should. -/
theorem lexing_tiles (source : String) :
    ∃ tokens, (lex source).tokens = tokens ++ [endAt (Text.bytes source).length] ∧
      (∀ t ∈ tokens, t.Placed (Text.bytes source).length) ∧
      (tokens.Pairwise fun t u => t.span.stop ≤ u.span.start) ∧
      ∀ i < (Text.bytes source).length, (∃ t ∈ tokens, Covers t.span i) ∨
        (∃ f ∈ (lex source).faults, Covers f.2 i) ∨ InGap 0 (Text.bytes source) tokens i := by
  obtain ⟨tokens, htokens, htiling⟩ := lexFrom_tiles 0 (Text.bytes source)
  rw [Nat.zero_add] at htokens
  refine ⟨tokens, htokens, fun t ht => ?_, htiling.ordered, fun i hi => ?_⟩
  · simpa using (htiling.placed t ht).2
  · exact htiling.covered i (Nat.zero_le i) (by simpa using hi)

end DCompiler.Token
