import DCompiler.Source

/-!
# Line and column

The starts of lines ascend, so the search for an offset finds the last line that starts up to it
(`position?_eq`). The lines that start up to an offset are those of the text in front of it, so the
position of an offset depends on that part only. One more byte adds a column, or a line if it is a
newline (`position_succ`). What positions count and how they are ordered follows by induction on the
offset.
-/

namespace DCompiler

def Position.Before (p q : Position) : Prop :=
  p.line < q.line ∨ p.line = q.line ∧ p.column < q.column

namespace SourceText

open List

variable {bs : List UInt8} {s : SourceText} {offset : Nat}

/-! ## Starts of lines -/

theorem starts_filter (start n : Nat) :
    (startsAfterNewlines start bs).filter (· ≤ start + n) =
      startsAfterNewlines start (bs.take n) := by
  induction bs generalizing start n with
  | nil => simp [startsAfterNewlines]
  | cons b bs ih =>
    cases n with
    | zero =>
      -- All starts lie behind the first byte.
      have hnone := ih (start + 1) 0
      rw [take_zero, startsAfterNewlines, filter_eq_nil_iff] at hnone ⊢
      grind [startsAfterNewlines]
    | succ n =>
      have hrest := ih (start + 1) n
      rw [Nat.add_right_comm, Nat.add_assoc] at hrest
      simp only [take_succ_cons, startsAfterNewlines]
      split
      · rw [filter_cons_of_pos (by simp), hrest]
      · exact hrest

theorem starts_append (bs : List UInt8) (start : Nat) (b : UInt8) :
    startsAfterNewlines start (bs ++ [b]) =
      startsAfterNewlines start bs ++ if b = 10 then [start + bs.length + 1] else [] := by
  induction bs generalizing start with
  | nil => simp [startsAfterNewlines]
  | cons c bs ih =>
    simp only [cons_append, startsAfterNewlines, ih, length_cons]
    split <;> simp [Nat.add_assoc, Nat.add_comm 1]

theorem starts_ascend (bs : List UInt8) (start : Nat) :
    (startsAfterNewlines start bs).Pairwise (· < ·) ∧
      ∀ x ∈ startsAfterNewlines start bs, start < x := by
  induction bs generalizing start with
  | nil => exact ⟨.nil, nofun⟩
  | cons b bs ih =>
    obtain ⟨hascend, hbehind⟩ := ih (start + 1)
    have hlt : ∀ x ∈ startsAfterNewlines (start + 1) bs, start < x := fun x hx =>
      Nat.lt_of_succ_lt (hbehind x hx)
    rw [startsAfterNewlines]
    split
    · exact ⟨.cons hbehind hascend, forall_mem_cons.mpr ⟨Nat.lt_succ_self start, hlt⟩⟩
    · exact ⟨hascend, hlt⟩

theorem lineStarts_ascend (s : SourceText) : s.lineStarts.Pairwise (· < ·) :=
  .cons (starts_ascend _ 0).2 (starts_ascend _ 0).1

/-! ## Search -/

variable {xs : List Nat} {key n : Nat}

/-- A key stands at an index, or would stand in front of the number at an index. -/
def Finds (xs : List Nat) (key : Nat) : Except Nat Nat → Prop
  | .ok i => xs[i]? = some key
  | .error n => n ≤ xs.length ∧ ∀ k x, xs[k]? = some x → x ≠ key ∧ (x < key ↔ k < n)

theorem searchWithin_finds (hxs : xs.Pairwise (· < ·)) (key : Nat) {low high : Nat}
    (hle : low ≤ high) (hhigh : high ≤ xs.length)
    (hbelow : ∀ k x, xs[k]? = some x → k < low → x < key)
    (habove : ∀ k x, xs[k]? = some x → high ≤ k → key < x) :
    Finds xs key (searchWithin xs key low high) := by
  have hmono {j k x y : Nat} (hx : xs[j]? = some x) (hy : xs[k]? = some y) (hjk : j < k) :
      x < y := by
    obtain ⟨hj, rfl⟩ := List.getElem?_eq_some_iff.mp hx
    obtain ⟨hk, rfl⟩ := List.getElem?_eq_some_iff.mp hy
    exact pairwise_iff_getElem.mp hxs j k hj hk hjk
  fun_induction searchWithin xs key low high with
  | case1 low high hlt middle hcompare ih =>
    have hmiddle : xs[middle]? = some (xs.getD middle 0) := by
      rw [getD_eq_getElem?_getD, getElem?_eq_getElem (by omega), Option.getD_some]
    have hless := Nat.compare_eq_lt.mp hcompare
    refine ih (by omega) hhigh (fun k x hx hk => ?_) habove
    rcases Nat.lt_succ_iff_lt_or_eq.mp hk with hk | rfl
    · exact Nat.lt_trans (hmono hx hmiddle hk) hless
    · obtain rfl := Option.some.inj (hx.symm.trans hmiddle)
      exact hless
  | case2 low high hlt middle hcompare =>
    have hequal := Nat.compare_eq_eq.mp hcompare
    show xs[middle]? = some key
    rw [← hequal, getD_eq_getElem?_getD, getElem?_eq_getElem (by omega), Option.getD_some]
  | case3 low high hlt middle hcompare ih =>
    have hmiddle : xs[middle]? = some (xs.getD middle 0) := by
      rw [getD_eq_getElem?_getD, getElem?_eq_getElem (by omega), Option.getD_some]
    have hgreater := Nat.compare_eq_gt.mp hcompare
    refine ih (by omega) (by omega) hbelow fun k x hx hk => ?_
    rcases Nat.lt_or_eq_of_le hk with hk | rfl
    · exact Nat.lt_trans hgreater (hmono hmiddle hx hk)
    · obtain rfl := Option.some.inj (hx.symm.trans hmiddle)
      exact hgreater
  | case4 low high hge =>
    refine ⟨by omega, fun k x hx => ?_⟩
    have h1 := hbelow k x hx
    have h2 := habove k x hx
    omega

theorem filter_eq_take (h : ∀ k x, xs[k]? = some x → (x ≤ key ↔ k < n)) :
    xs.filter (· ≤ key) = xs.take n := by
  induction xs generalizing n with
  | nil => simp
  | cons x xs ih =>
    have hx : x ≤ key ↔ 0 < n := h 0 x rfl
    cases n with
    | zero =>
      rw [filter_cons_of_neg (by simpa using hx), ih (n := 0) fun k y hy => ?_]
      · simp
      · simpa using h (k + 1) y hy
    | succ n =>
      rw [filter_cons_of_pos (by simpa using hx), take_succ_cons, ih fun k y hy => ?_]
      simpa using h (k + 1) y hy

theorem lineIndex?_eq (hxs : xs.Pairwise (· < ·)) (hfirst : xs[0]? = some 0) (key : Nat) :
    ∃ line, lineIndex? xs key = some line ∧ line < xs.length ∧
      ∀ k x, xs[k]? = some x → (x ≤ key ↔ k < line + 1) := by
  have hfound := searchWithin_finds hxs key (Nat.zero_le _) .refl
    (fun _ _ _ hk => absurd hk (Nat.not_lt_zero _)) fun k x hx hk =>
      absurd (List.getElem?_eq_some_iff.mp hx).1 (Nat.not_lt.mpr hk)
  unfold lineIndex?
  generalize searchWithin xs key 0 xs.length = found at hfound
  cases found with
  | ok line =>
    obtain ⟨hlength, hkey⟩ := List.getElem?_eq_some_iff.mp hfound
    refine ⟨line, rfl, hlength, fun k x hx => ?_⟩
    obtain ⟨hk, rfl⟩ := List.getElem?_eq_some_iff.mp hx
    have hlt := pairwise_iff_getElem.mp hxs
    rcases Nat.lt_trichotomy k line with h | rfl | h
    · have := hlt k line hk hlength h
      omega
    · omega
    · have := hlt line k hlength hk h
      omega
  | error next =>
    -- The first line starts up to each offset, so the search never ends in front of it.
    have hnext := hfound.2 0 0 hfirst
    dsimp only
    refine ⟨next - 1, if_neg (by omega), by have := hfound.1; omega, fun k x hx => ?_⟩
    have := hfound.2 k x hx
    omega

/-- The search finds the last line that starts up to an offset. -/
theorem position?_eq (s : SourceText) (offset : Nat) : s.position? offset =
    some ⟨(s.lineStarts.filter (· ≤ offset)).length,
      offset - (s.lineStarts.filter (· ≤ offset)).getLastD 0 + 1⟩ := by
  obtain ⟨line, hline, hlength, hup⟩ := lineIndex?_eq s.lineStarts_ascend rfl offset
  have hstart := getElem?_eq_getElem hlength
  have hle := (hup line _ hstart).mpr (Nat.lt_succ_self line)
  have hlast : (s.lineStarts.take (line + 1)).getLastD 0 = s.lineStarts[line] := by
    rw [take_succ_eq_append_getElem hlength, getLastD_concat]
  rw [position?, hline, filter_eq_take hup, hlast, length_take_of_le hlength]
  simp [hstart, hle]

/-! ## One step -/

def bytesBefore (s : SourceText) (offset : Nat) : List UInt8 := (Text.bytes s.text).take offset

/-- Where the line of an offset starts. -/
def lineStart (s : SourceText) (offset : Nat) : Nat :=
  (startsAfterNewlines 0 (s.bytesBefore offset)).getLastD 0

theorem starts_before (s : SourceText) (offset : Nat) :
    (startsAfterNewlines 0 (Text.bytes s.text)).filter (· ≤ offset) =
      startsAfterNewlines 0 (s.bytesBefore offset) := by
  simpa [bytesBefore] using starts_filter 0 offset

theorem position_eq (s : SourceText) (offset : Nat) : s.position offset =
    ⟨1 + (startsAfterNewlines 0 (s.bytesBefore offset)).length,
      offset - s.lineStart offset + 1⟩ := by
  rw [position, position?_eq, Option.getD_some, lineStarts, filter_cons_of_pos (by simp),
    starts_before, getLastD_cons, length_cons, Nat.add_comm, lineStart]

theorem lineStart_le (s : SourceText) (offset : Nat) : s.lineStart offset ≤ offset := by
  rw [lineStart, ← starts_before, getLastD_eq_getLast?]
  cases hlast : ((startsAfterNewlines 0 (Text.bytes s.text)).filter (· ≤ offset)).getLast? with
  | none => exact Nat.zero_le _
  | some start => simpa using (mem_filter.mp (mem_of_getLast? hlast)).2

theorem bytesBefore_succ (h : offset < (Text.bytes s.text).length) :
    s.bytesBefore (offset + 1) = s.bytesBefore offset ++ [(Text.bytes s.text)[offset]] :=
  take_succ_eq_append_getElem h

theorem position_succ (h : offset < (Text.bytes s.text).length) :
    s.position (offset + 1) =
      if (Text.bytes s.text)[offset] = 10 then ⟨(s.position offset).line + 1, 1⟩
      else ⟨(s.position offset).line, (s.position offset).column + 1⟩ := by
  have hstarts := starts_append (s.bytesBefore offset) 0 (Text.bytes s.text)[offset]
  rw [← bytesBefore_succ h] at hstarts
  have hlength : (s.bytesBefore offset).length = offset := length_take_of_le (Nat.le_of_lt h)
  have hle := s.lineStart_le offset
  simp only [position_eq, lineStart, hstarts] at hle ⊢
  split
  · simp [hlength, Nat.add_assoc]
  · simp only [append_nil, Position.mk.injEq, true_and]
    omega

/-! ## Any offset -/

theorem position_counts (h : offset ≤ (Text.bytes s.text).length) :
    s.position offset = ⟨1 + (s.bytesBefore offset).count 10,
      1 + ((s.bytesBefore offset).reverse.takeWhile (· != 10)).length⟩ := by
  induction offset with
  | zero => simp [position_eq, bytesBefore, startsAfterNewlines]
  | succ offset ih =>
    rw [position_succ h, ih (Nat.le_of_lt h), bytesBefore_succ h]
    by_cases hnewline : (Text.bytes s.text)[offset] = 10
    · simp [hnewline, Nat.add_assoc]
    · simp [hnewline, Nat.add_comm 1]

theorem position_before {later : Nat} (hlater : later ≤ (Text.bytes s.text).length)
    (h : offset < later) : (s.position offset).Before (s.position later) := by
  induction later with
  | zero => exact absurd h (Nat.not_lt_zero _)
  | succ later ih =>
    have hstep : (s.position later).Before (s.position (later + 1)) := by
      rw [position_succ hlater]
      split <;> simp [Position.Before]
    rcases Nat.lt_succ_iff_lt_or_eq.mp h with hlt | rfl
    · have hprevious := ih (Nat.le_of_lt hlater) hlt
      unfold Position.Before at hprevious hstep ⊢
      omega
    · exact hstep

/-- The search for an offset finds its line. The position counts the newlines in front of the offset
and the bytes since the last of them. Both numbers fit into 32 bits, and later offsets have later
positions. -/
theorem position_exact (hsize : (Text.bytes s.text).length < 2 ^ 32 - 1)
    (hoffset : offset ≤ (Text.bytes s.text).length) :
    s.position? offset = some ⟨1 + (s.bytesBefore offset).count 10,
        1 + ((s.bytesBefore offset).reverse.takeWhile (· != 10)).length⟩ ∧
      (s.position offset).line < 2 ^ 32 ∧ (s.position offset).column < 2 ^ 32 ∧
      ∀ later ≤ (Text.bytes s.text).length, offset < later →
        (s.position offset).Before (s.position later) ∧ s.position offset ≠ s.position later := by
  have hbytes : (s.bytesBefore offset).length = offset := length_take_of_le hoffset
  have hcount : (s.bytesBefore offset).count 10 ≤ offset :=
    Nat.le_trans count_le_length (Nat.le_of_eq hbytes)
  have hcounts := position_counts hoffset
  have hfound : s.position? offset = some (s.position offset) := by
    rw [position, position?_eq, Option.getD_some]
  refine ⟨hcounts ▸ hfound, ?_, ?_, fun later hlater h => ?_⟩
  · rw [hcounts]
    dsimp only
    omega
  · rw [position_eq]
    dsimp only
    omega
  · have hbefore := position_before hlater h
    refine ⟨hbefore, fun heq => ?_⟩
    rw [heq] at hbefore
    simp [Position.Before] at hbefore

def threeLines : SourceText := ⟨"t.d", "a\n\nbc"⟩

theorem position_exact_threeLines : threeLines.position? 4 = some ⟨3, 2⟩ ∧
    (threeLines.position 4).Before (threeLines.position 5) := by
  have h := @position_exact threeLines 4 (by decide) (by decide)
  exact ⟨h.1.trans (by decide), (h.2.2.2 5 (by decide) (by decide)).1⟩

end SourceText

end DCompiler
