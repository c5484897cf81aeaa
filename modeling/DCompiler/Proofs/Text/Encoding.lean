import DCompiler.Token.Lexer

/-!
# Characters and bytes

The low bytes of a word spell the word up to a power of 256, and a signed number up to a power of
two. Text that is written with escapes is read back as it was, as long as no code point is spelled
out.

A place in a text is a byte offset. Between two characters, and only there, bytes split as
characters do: a byte below 128 is a character of its own, so next to such a byte there is always a
boundary (`encode_split`). A slice between boundaries is the characters between them
(`slice_between`).
-/

namespace DCompiler.Text

open List
open Token (byte)

@[simp] theorem length_littleEndian (width : Nat) (value : UInt64) :
    (littleEndian width value).length = width := by
  simp [littleEndian]

theorem ofLittleEndian_digits (width n : Nat) :
    ofLittleEndian ((List.range width).map fun i => (n / 256 ^ i).toUInt8) = n % 256 ^ width := by
  induction width generalizing n with
  | zero => simp [ofLittleEndian, Nat.mod_one]
  | succ width ih =>
    have hdigits : (List.range (width + 1)).map (fun i => (n / 256 ^ i).toUInt8) =
        n.toUInt8 :: (List.range width).map fun i => (n / 256 / 256 ^ i).toUInt8 := by
      simp [range_succ_eq_map, Nat.pow_succ', Nat.div_div_eq_div_mul]
    rw [hdigits, ofLittleEndian, ih, Nat.pow_succ', Nat.mod_mul]
    rfl

theorem ofLittleEndian_littleEndian (width : Nat) (value : UInt64) :
    ofLittleEndian (littleEndian width value) = value.toNat % 256 ^ width :=
  ofLittleEndian_digits width value.toNat

theorem littleEndian_zero (width : Nat) : littleEndian width 0 = replicate width 0 := by
  refine eq_replicate_iff.mpr ⟨length_littleEndian width 0, fun b hb => ?_⟩
  obtain ⟨i, -, rfl⟩ := mem_map.mp hb
  simp

theorem toNat_toUInt64 (n : Int64) : (n.toUInt64.toNat : Int) = n.toInt % 2 ^ 64 := by
  show (n.toBitVec.toNat : Int) = _
  rw [← Int64.toInt_toBitVec, BitVec.toInt_eq_toNat_bmod, Int.bmod_def]
  split <;> omega

/-- The low bytes of a word spell a number up to their count if the word is that number. -/
theorem ofLittleEndian_of_emod {width : Nat} (hwidth : width ≤ 8) {value : UInt64} {n : Int}
    (hvalue : (value.toNat : Int) = n % 2 ^ 64) :
    (ofLittleEndian (littleEndian width value) : Int) = n % 2 ^ (8 * width) := by
  have hdvd : ((2 ^ (8 * width) : Nat) : Int) ∣ ((2 ^ 64 : Nat) : Int) :=
    Int.natCast_dvd_natCast.mpr (Nat.pow_dvd_pow 2 (by omega))
  have hpow : (256 : Nat) ^ width = 2 ^ (8 * width) := by rw [Nat.pow_mul]
  rw [ofLittleEndian_littleEndian, hpow, Int.natCast_emod, hvalue]
  exact Int.emod_emod_of_dvd n hdvd

theorem toNat_distance (a b : UInt64) (n : Int64) :
    ((a.toInt64 - b.toInt64 + n).toUInt64.toNat : Int) =
      ((a.toNat : Int) - b.toNat + n.toInt) % 2 ^ 64 := by
  have hn := toNat_toUInt64 n
  have hb := b.toNat_lt
  have hsum : (a.toInt64 - b.toInt64 + n).toUInt64 = a - b + n.toUInt64 := by simp
  rw [hsum, UInt64.toNat_add, UInt64.toNat_sub]
  omega

variable {c : Char} {cs : List Char} {s : String}

/-- A character that is printable, or a tab or an end of a line. -/
def IsPlain (c : Char) : Prop := 32 ≤ c.toNat ∧ c.toNat < 127 ∨ c ∈ ['\t', '\r', '\n']

theorem escapeChar_cases (hc : IsPlain c) :
    ((escapeChar c).toList = [c] ∧ c ≠ '"' ∧ c ≠ '\\' ∧ c.toNat < 128) ∨
      ∃ d, (escapeChar c).toList = ['\\', d] ∧ escapedChar d = c ∧ d.toNat < 128 := by
  unfold escapeChar
  split
  · exact .inr ⟨'t', rfl, rfl, by decide⟩
  · exact .inr ⟨'r', rfl, rfl, by decide⟩
  · exact .inr ⟨'n', rfl, rfl, by decide⟩
  · exact .inr ⟨'\'', rfl, rfl, by decide⟩
  · exact .inr ⟨'"', rfl, rfl, by decide⟩
  · exact .inr ⟨'\\', rfl, rfl, by decide⟩
  · next htab hreturn hnewline _ hquote hbackslash =>
    have hrange : 32 ≤ c.toNat ∧ c.toNat < 127 := by
      refine hc.resolve_right fun hblank => ?_
      simp only [mem_cons, not_mem_nil, or_false] at hblank
      exact hblank.elim htab (Or.elim · hreturn hnewline)
    rw [if_pos hrange]
    exact .inl ⟨by simp, hquote, hbackslash, by omega⟩

/-- The characters of a text between quotes. -/
def escaped (cs : List Char) : List Char := cs.flatMap fun c => (escapeChar c).toList

theorem toList_escape (s : String) : (escape s).toList = escaped s.toList := by
  rw [escape, String.toList_join, flatMap_map, escaped]

theorem unescapeChars_plain (hc : c ≠ '\\') (cs : List Char) :
    unescapeChars (c :: cs) = c :: unescapeChars cs := by
  cases cs <;> simp [unescapeChars, hc]

theorem unescapeChars_escaped (hcs : ∀ c ∈ cs, IsPlain c) : unescapeChars (escaped cs) = cs := by
  induction cs with
  | nil => rfl
  | cons c cs ih =>
    obtain ⟨hc, hcs⟩ := forall_mem_cons.mp hcs
    rw [escaped, flatMap_cons, ← escaped]
    rcases escapeChar_cases hc with ⟨hself, -, hbackslash, -⟩ | ⟨d, hescape, hd, -⟩
    · rw [hself, singleton_append, unescapeChars_plain hbackslash, ih hcs]
    · rw [hescape, cons_append, singleton_append, unescapeChars, hd, ih hcs]

theorem unescape_escape (hs : ∀ c ∈ s.toList, IsPlain c) : unescape (escape s) = s := by
  rw [unescape, toList_escape, unescapeChars_escaped hs, String.ofList_toList]

variable {x y : List UInt8} {start stop offset : Nat}

def encode (cs : List Char) : List UInt8 := cs.flatMap String.utf8EncodeChar

@[simp] theorem encode_nil : encode [] = [] := rfl

@[simp] theorem encode_cons (c : Char) (cs : List Char) :
    encode (c :: cs) = String.utf8EncodeChar c ++ encode cs := rfl

@[simp] theorem encode_append (cs ds : List Char) : encode (cs ++ ds) = encode cs ++ encode ds :=
  flatMap_append

theorem bytes_ofList (cs : List Char) : bytes (String.ofList cs) = encode cs := by
  rw [bytes, String.toList_ofList]
  rfl

/-! ## Boundaries -/

theorem encodeChar_ascii (hc : c.toNat < 128) : String.utf8EncodeChar c = [byte c] := by
  exact if_pos (show c.toNat ≤ 127 by omega)

theorem encode_ascii (hcs : ∀ c ∈ cs, c.toNat < 128) : encode cs = cs.map byte := by
  induction cs with
  | nil => rfl
  | cons c cs ih =>
    rw [encode_cons, encodeChar_ascii (hcs c mem_cons_self),
      ih fun d hd => hcs d (mem_cons_of_mem c hd)]
    rfl

theorem encodeChar_high (hc : 128 ≤ c.toNat) : ∀ b ∈ String.utf8EncodeChar c, 128 ≤ b := by
  have hle (n : Nat) (hlow : 128 ≤ n) (hhigh : n < 256) : 128 ≤ UInt8.ofNat n := by
    rw [UInt8.le_iff_toNat_le, UInt8.toNat_ofNat_of_lt' hhigh]
    exact hlow
  have hval : ¬c.val.toNat ≤ 127 := by
    have : c.val.toNat = c.toNat := rfl
    omega
  unfold String.utf8EncodeChar
  rw [if_neg hval]
  repeat' split
  all_goals
    simp only [forall_mem_cons]
    and_intros
  all_goals first | exact hle _ (by omega) (by omega) | exact nofun

theorem encodeChar_split (h : String.utf8EncodeChar c = x ++ y) (hx : x ≠ []) (hy : y ≠ []) :
    128 ≤ c.toNat := by
  refine Nat.le_of_not_lt fun hc => ?_
  have hone := h.symm.trans (encodeChar_ascii hc)
  rw [append_eq_singleton_iff] at hone
  grind

/-- Bytes next to each other belong to different characters. -/
def Boundary (x y : List UInt8) : Prop :=
  (∀ b, x.getLast? = some b → b < 128) ∨ ∀ b, y.head? = some b → b < 128

theorem encode_split (h : encode cs = x ++ y) (hxy : Boundary x y) :
    ∃ before after, cs = before ++ after ∧ encode before = x ∧ encode after = y := by
  induction cs generalizing x with
  | nil =>
    obtain ⟨rfl, rfl⟩ := append_eq_nil_iff.mp h.symm
    exact ⟨[], [], rfl, rfl, rfl⟩
  | cons c cs ih =>
    rcases append_eq_append_iff.mp h with ⟨x', rfl, hcs⟩ | ⟨z, hc, rfl⟩
    · have hxy' : Boundary x' y := by
        rcases hxy with hx | hy
        · refine .inl fun b hb => hx b ?_
          rw [getLast?_append, hb]
          rfl
        · exact .inr hy
      obtain ⟨before, after, rfl, rfl, rfl⟩ := ih hcs hxy'
      exact ⟨c :: before, after, rfl, rfl, rfl⟩
    · by_cases hx : x = []
      · subst hx
        exact ⟨[], c :: cs, rfl, rfl, by rw [encode_cons, hc]; rfl⟩
      by_cases hz : z = []
      · subst hz
        exact ⟨[c], cs, rfl, by simp [hc], rfl⟩
      -- Otherwise the bytes of one character stand on both sides.
      have hhigh := encodeChar_high (encodeChar_split hc hx hz)
      rw [hc] at hhigh
      rcases hxy with hlast | hhead
      · have hlow := hlast (x.getLast hx) (getLast?_eq_some_getLast hx)
        have := hhigh _ (mem_append_left z (getLast_mem hx))
        exact absurd hlow (UInt8.not_lt.mpr this)
      have hlow := hhead (z.head hz) (by rw [head?_append, head?_eq_some_head hz]; rfl)
      have := hhigh _ (mem_append_right x (head_mem hz))
      exact absurd hlow (UInt8.not_lt.mpr this)

/-! ## Slices -/

theorem sliceFrom_append (cs ds : List Char) :
    sliceFrom start stop offset (cs ++ ds) =
      sliceFrom start stop offset cs ++ sliceFrom start stop (offset + (encode cs).length) ds := by
  induction cs generalizing offset with
  | nil => rfl
  | cons c cs ih =>
    simp only [cons_append, sliceFrom, ih, encode_cons, length_append,
      String.length_utf8EncodeChar, Nat.add_assoc]
    split <;> rfl

theorem sliceFrom_all (hstart : start ≤ offset) (hstop : offset + (encode cs).length ≤ stop) :
    sliceFrom start stop offset cs = cs := by
  induction cs generalizing offset with
  | nil => rfl
  | cons c cs ih =>
    rw [encode_cons, length_append, String.length_utf8EncodeChar] at hstop
    have hsize := c.utf8Size_pos
    rw [sliceFrom, if_pos ⟨hstart, by omega⟩, ih (by omega) (by omega)]

theorem sliceFrom_before (hstart : offset + (encode cs).length ≤ start) :
    sliceFrom start stop offset cs = [] := by
  induction cs generalizing offset with
  | nil => rfl
  | cons c cs ih =>
    rw [encode_cons, length_append, String.length_utf8EncodeChar] at hstart
    have hsize := c.utf8Size_pos
    rw [sliceFrom, if_neg (by omega), ih (by omega)]

theorem sliceFrom_after (hstop : stop ≤ offset) : sliceFrom start stop offset cs = [] := by
  induction cs generalizing offset with
  | nil => rfl
  | cons c cs ih => rw [sliceFrom, if_neg (by omega), ih (by omega)]

theorem slice_empty (s : String) (n : Nat) : slice s n n = "" := by
  have hnone (offset : Nat) (cs : List Char) : sliceFrom n n offset cs = [] := by
    induction cs generalizing offset with
    | nil => rfl
    | cons c cs ih => rw [sliceFrom, if_neg (by omega), ih]
  rw [slice, hnone, String.ofList_nil]

theorem slice_between (before mid after : List Char) (hstart : start = (encode before).length)
    (hstop : stop = start + (encode mid).length) :
    slice (String.ofList (before ++ mid ++ after)) start stop = String.ofList mid := by
  rw [slice, String.toList_ofList, sliceFrom_append, sliceFrom_append,
    sliceFrom_before (by omega), sliceFrom_all (by omega) (by omega), sliceFrom_after, nil_append,
    append_nil]
  rw [encode_append, length_append]
  omega

end DCompiler.Text
