import DCompiler.Proofs.Grammar.Run
import Mathlib.Data.Nat.Digits.Defs

/-!
# Tokens are cut between characters, and integers are read as they are written

The scan goes byte by byte, and behind a fault it may go on inside a character. A token still starts
with a byte below 128, and so it starts where a character does, whatever stands before it.

Where the scan finds an integer, there stand a mark of the base, digits with separators and letters
of a suffix (`Spelled`). The value of the digits is read exactly, if there are any and 64 bits can
hold it, with the type that the suffix names.
-/

namespace DCompiler.Token

open Text List

variable {source s : String} {span : Span} {x y before after bs : List UInt8} {l : Lexeme}
  {k : TokenKind}

def Cuts (source : String) (span : Span) (s : String) : Prop :=
  ∃ before after : String, source = before ++ s ++ after ∧ span.start = before.utf8ByteSize ∧
    span.stop = span.start + s.utf8ByteSize

theorem utf8ByteSize_eq_encode (s : String) : s.utf8ByteSize = (encode s.toList).length := by
  have hlist (cs : List Char) : (String.ofList cs).utf8ByteSize = (encode cs).length := by
    rw [← String.size_toByteArray, String.toByteArray_ofList, utf8Encode, size_toByteArray]
    rfl
  rw [← hlist, String.ofList_toList]

theorem Cuts.valid (h : Cuts source span s) :
    String.Pos.Raw.IsValid source ⟨span.start⟩ ∧ String.Pos.Raw.IsValid source ⟨span.stop⟩ := by
  obtain ⟨before, after, hsource, hstart, hstop⟩ := h
  rw [String.Pos.Raw.isValid_iff_exists_append, String.Pos.Raw.isValid_iff_exists_append]
  refine ⟨⟨before, s ++ after, ?_, ?_⟩, ⟨before ++ s, after, hsource, ?_⟩⟩
  · rw [hsource, String.append_assoc]
  · rw [hstart, String.rawEndPos]
  · rw [hstop, hstart, String.rawEndPos, String.utf8ByteSize_append]

theorem Cuts.slice_eq (h : Cuts source span s) : slice source span.start span.stop = s := by
  obtain ⟨before, after, rfl, hstart, hstop⟩ := h
  rw [utf8ByteSize_eq_encode] at hstart hstop
  have hslice := slice_between before.toList s.toList after.toList hstart hstop
  rwa [String.ofList_append, String.ofList_append, String.ofList_toList, String.ofList_toList,
    String.ofList_toList] at hslice

theorem cuts_of_boundary (h : bytes source = before ++ (x ++ after))
    (hstart : Boundary before (x ++ after)) (hstop : Boundary x after) {text : String}
    (htext : text = slice source before.length (before.length + x.length)) :
    Cuts source ⟨before.length, before.length + x.length⟩ text ∧ encode text.toList = x := by
  obtain ⟨left, rest, hsource, rfl, hrest⟩ := encode_split h hstart
  obtain ⟨mid, right, rfl, rfl, rfl⟩ := encode_split hrest hstop
  have hcuts : Cuts source ⟨(encode left).length, (encode left).length + (encode mid).length⟩
      (String.ofList mid) := by
    refine ⟨String.ofList left, String.ofList right, ?_, ?_, ?_⟩
    · rw [← String.ofList_append, ← String.ofList_append, append_assoc, ← hsource,
        String.ofList_toList]
    all_goals rw [utf8ByteSize_eq_encode, String.toList_ofList]
  obtain rfl := htext.trans hcuts.slice_eq
  exact ⟨hcuts, by rw [String.toList_ofList]⟩

/-- The pieces of a source that are read of a token. -/
def Slices (source : String) (t : Token) : Prop :=
  Cuts source t.span (chunk source t).spelling ∧ Cuts source t.text (chunk source t).text

/-- A token that is found stands for a lexeme. -/
theorem exists_lexeme (all before : List UInt8) (hall : all = before ++ bs) :
    ∀ t ∈ (lexFrom before.length bs).tokens, t = endAt all.length ∨ ∃ left x y l,
      all = left ++ (x ++ y) ∧ Takes x y l ∧
        t ∈ (l.addTo ⟨left.length, left.length + x.length⟩ ⟨[], []⟩).tokens := by
  induction bs using lexeme_induction generalizing before with
  | nil =>
    rw [lexFrom, hall, append_nil]
    exact forall_mem_singleton.mpr (.inl rfl)
  | step x y l h ih =>
    have hrest := ih (before ++ x) (by rw [hall, append_assoc])
    rw [length_append] at hrest
    rw [lexFrom_append h]
    cases l with
    | skipped | fault => exact hrest
    | token | quoted => exact forall_mem_cons.mpr ⟨.inr ⟨_, _, _, _, hall, h, mem_cons_self⟩, hrest⟩

theorem Takes.boundary_start (h : Takes x y (.token k)) (before : List UInt8) :
    Boundary before (x ++ y) := by
  obtain ⟨b, x, rfl⟩ := exists_cons_of_ne_nil h.ne_nil
  exact .inr fun c hc => Option.some.inj hc ▸ h.token_ascii b mem_cons_self

theorem Takes.slices (h : Takes x y l) (hsource : bytes source = before ++ (x ++ y)) :
    ∀ t ∈ (l.addTo ⟨before.length, before.length + x.length⟩ ⟨[], []⟩).tokens, Slices source t := by
  cases l with
  | skipped | fault => exact nofun
  | token k =>
    have hspan := (cuts_of_boundary hsource (h.boundary_start before) (h.boundary (by simp)) rfl).1
    exact forall_mem_singleton.mpr ⟨hspan, hspan⟩
  | quoted k =>
    have hstop := h.boundary (by simp)
    obtain ⟨q, body, hq, rfl, -⟩ := h.quoted
    have hascii := quote_ascii hq
    have hstart : Boundary before (q :: (body ++ [q]) ++ y) :=
      .inr fun c hc => Option.some.inj hc ▸ hascii
    have htext : Boundary body (q :: y) := .inr fun c hc => Option.some.inj hc ▸ hascii
    have hbody := (cuts_of_boundary (show bytes source = (before ++ [q]) ++ (body ++ q :: y) by
      simpa using hsource) (boundary_concat hascii before (body ++ q :: y)) htext rfl).1
    have hlength : before.length + (q :: (body ++ [q])).length - 1 =
        (before ++ [q]).length + body.length := by
      simp only [length_cons, length_append, length_nil]
      omega
    refine forall_mem_singleton.mpr ⟨(cuts_of_boundary hsource hstart hstop rfl).1, ?_⟩
    rw [hlength]
    rwa [length_append] at hbody ⊢

theorem lex_slices : ∀ t ∈ (lex source).tokens, Slices source t := by
  intro t ht
  rcases exists_lexeme (bytes source) [] rfl t ht with rfl |
    ⟨before, x, y, l, hsource, htakes, ht⟩
  · have hend : Cuts source ⟨(bytes source).length, (bytes source).length⟩
        (slice source (bytes source).length (bytes source).length) := by
      rw [slice_empty]
      exact ⟨source, "", by simp, (utf8ByteSize_eq_encode source).symm, rfl⟩
    exact ⟨hend, hend⟩
  · exact htakes.slices hsource t ht

/-! ## Integers -/

theorem Takes.numberLength (h : Takes x y (.token k)) (hk : k = .intLiteral) :
    numberLength (x ++ y) = (x.length, .intLiteral) := by
  cases h.reads with
  | symbol hs =>
    have hall : ∀ p ∈ symbols, p.2 ≠ .intLiteral := by decide
    exact absurd hk (hall _ hs)
  | number _ hlength => rw [hlength, hk]
  | word =>
    have hall : ∀ k ∈ .ident :: TokenKind.keywords.map (·.2), k ≠ .intLiteral := by decide
    exact absurd hk (hall _ (ofWord_mem _))

theorem take_length_takeWhile (p : UInt8 → Bool) (bs : List UInt8) :
    bs.take (bs.takeWhile p).length = bs.takeWhile p :=
  (prefix_iff_eq_take.mp <| takeWhile_prefix p).symm

def char (b : UInt8) : Char := Char.ofNat b.toNat

/-- The digit that a character stands for; 16 if it is none. -/
def digitOf (c : Char) : Nat :=
  min ("0123456789abcdef".toList.idxOf c) ("0123456789ABCDEF".toList.idxOf c)

/-- The text of an integer: a mark of the base, digits and separators, and letters of a suffix. -/
structure Spelled (cs mark body suffix : List Char) (base : Nat) : Prop where
  eq : cs = mark ++ body ++ suffix
  radix : mark = [] ∧ base = 10 ∨ (mark = ['0', 'x'] ∨ mark = ['0', 'X']) ∧ base = 16
  digits : ∀ c ∈ body, c = '_' ∨ digitOf c < base
  letters : ∀ c ∈ suffix, c ∈ ['L', 'u', 'U']

theorem forall_chars {p : UInt8 → Bool} {P : Char → Prop}
    (h : ∀ n < 256, p (.ofNat n) → P (Char.ofNat n)) {bs : List UInt8} (hbs : ∀ b ∈ bs, p b) :
    ∀ c ∈ bs.map char, P c :=
  forall_mem_map.mpr fun b hb => h b.toNat b.toNat_lt (by simpa using hbs b hb)

theorem unsuffixed_spelled {bs : List UInt8} (h : (unsuffixedLength bs).2 = false) :
    ∃ mark body base, Spelled ((bs.take (unsuffixedLength bs).1).map char) mark body [] base := by
  rw [unsuffixedLength_eq] at h ⊢
  split at h
  · rename_i hhex
    rw [if_pos hhex, take_add, take_length_takeWhile, map_append]
    refine ⟨_, _, 16, (append_nil _).symm, .inr ⟨?_, rfl⟩,
      forall_chars (by decide +kernel) (all_eq_true.mp all_takeWhile), nofun⟩
    rcases bs with _ | ⟨zero, _ | ⟨mark, rest⟩⟩
    · cases hhex
    · cases hhex
    · simp only [isHex, Bool.and_eq_true, Bool.or_eq_true, beq_iff_eq] at hhex
      obtain ⟨rfl, rfl | rfl⟩ := hhex <;> simp [char, byte]
  · rename_i hhex
    simp only [decimalLength, decide_eq_false_iff_not, not_or, Decidable.not_not] at h
    rw [if_neg hhex, decimalLength, h.2, h.1, Nat.add_zero]
    dsimp only
    rw [digitsLength, take_length_takeWhile]
    exact ⟨[], _, 10, (append_nil _).symm, .inl ⟨rfl, rfl⟩,
      forall_chars (by decide +kernel) (all_eq_true.mp all_takeWhile), nofun⟩

theorem Takes.spelled (h : Takes x y (.token k)) (hk : k = .intLiteral) :
    ∃ mark body suffix base, Spelled (x.map char) mark body suffix base := by
  have hlength := h.numberLength hk
  simp only [Token.numberLength, Prod.mk.injEq] at hlength
  generalize hn : unsuffixedLength (x ++ y) = u at hlength
  generalize hl : takeWhile isNumberSuffix (drop u.1 (x ++ y)) = letters at hlength
  obtain ⟨hlength, hkind⟩ := hlength
  have hplain : (u.2 || letters.any isFloatSuffix) = false := by simpa using hkind
  rw [Bool.or_eq_false_iff, any_eq_false] at hplain
  obtain ⟨mark, body, base, hspelled⟩ := unsuffixed_spelled (hn ▸ hplain.1)
  have hx : x = take u.1 (x ++ y) ++ letters := by
    rw [← hl, ← take_length_takeWhile isNumberSuffix (drop _ _), ← take_add, hl, hlength, take_left]
  have hletters : ∀ b ∈ letters, (isNumberSuffix b && !isFloatSuffix b) = true := by
    have hall : ∀ b ∈ letters, isNumberSuffix b := hl ▸ all_eq_true.mp all_takeWhile
    exact fun b hb => by simp [hall b hb, hplain.2 b hb]
  refine ⟨mark, body, letters.map char, base, ?_, hspelled.radix, hspelled.digits,
    forall_chars (by decide +kernel) hletters⟩
  rw [hx, map_append, ← hn, hspelled.eq, append_nil]

theorem eq_map_char {cs : List Char} (h : encode cs = x) (hx : ∀ b ∈ x, b < 128) :
    cs = x.map char := by
  have hlow : ∀ c ∈ cs, c.toNat < 128 := by
    intro c hc
    refine Nat.lt_of_not_le fun hhigh => ?_
    obtain ⟨b, hb⟩ := exists_mem_of_ne_nil _ (String.utf8EncodeChar_ne_nil (c := c))
    exact absurd (hx b (h ▸ mem_flatMap.mpr ⟨c, hc, hb⟩))
      (UInt8.not_lt.mpr (encodeChar_high hhigh b hb))
  rw [← h, encode_ascii hlow, map_map]
  refine (map_id' cs).symm.trans (map_congr_left fun c hc => ?_)
  have hc := hlow c hc
  simp [char, byte, Nat.mod_eq_of_lt (show c.toNat < 256 by omega)]

theorem exists_spelled {t : Token} (ht : t ∈ (lex source).tokens) (hk : t.kind = .intLiteral) :
    ∃ mark body suffix base, Spelled (chunk source t).text.toList mark body suffix base := by
  rcases exists_lexeme (bytes source) [] rfl t ht with rfl |
    ⟨before, x, y, l, hsource, htakes, ht⟩
  · cases hk
  cases l with
  | skipped | fault => cases ht
  | quoted k =>
    obtain rfl := mem_singleton.mp ht
    cases htakes.reads <;> cases hk
  | token k =>
    obtain rfl := mem_singleton.mp ht
    have htext := (cuts_of_boundary hsource (htakes.boundary_start before)
      (htakes.boundary (by simp)) rfl).2
    dsimp only [chunk]
    rw [eq_map_char htext htakes.token_ascii]
    exact htakes.spelled hk

end DCompiler.Token

namespace DCompiler.Grammar

open List Number Token

/-- The words of a source are its tokens with two slices each. Both slices start and end between
characters, also where faults stand before them, and what is taken there is the piece of the source
between the two places, no more and no less. -/
theorem tokens_between_characters (source : String) :
    (words source (lex source).tokens).map Word.chunk = (lex source).tokens.map (chunk source) ∧
      ∀ t ∈ (lex source).tokens,
        (∀ i ∈ [t.span.start, t.span.stop, t.text.start, t.text.stop],
          String.Pos.Raw.IsValid source ⟨i⟩) ∧
        Cuts source t.span (chunk source t).spelling ∧
          Cuts source t.text (chunk source t).text := by
  refine ⟨words_chunks source, fun t ht => ?_⟩
  obtain ⟨hspan, htext⟩ := lex_slices t ht
  exact ⟨by simp [hspan.valid, htext.valid], hspan, htext⟩

variable {cs mark body suffix : List Char} {base : Nat} {c : Char}

/-! ## Digits and suffixes -/

/-- What holds of the hexadecimal digits among the ASCII characters holds of all digits. -/
theorem forall_digits {P : Char → Prop}
    (h : ∀ n < 128, digitOf (Char.ofNat n) < 16 → P (Char.ofNat n)) (hc : digitOf c < 16) :
    P c := by
  have hascii := all_eq_true.mp (show ("0123456789abcdef".toList ++ "0123456789ABCDEF".toList).all
    (·.toNat < 128) by decide)
  have hmem := (min_lt_iff.mp hc).imp idxOf_lt_length_iff.mp idxOf_lt_length_iff.mp
  simpa [hc] using h c.toNat (of_decide_eq_true (hascii c (mem_append.mpr hmem)))

theorem digit?_of_lt (h : digitOf c < base) (hbase : base = 10 ∨ base = 16) :
    (if base = 10 then decimalDigit? else hexDigit?) c = some (digitOf c) := by
  have hc := forall_digits (P := fun c => hexDigit? c = some (digitOf c) ∧
    (digitOf c < 10 → decimalDigit? c = some (digitOf c))) (by decide +kernel)
    (show digitOf c < 16 by omega)
  rcases hbase with rfl | rfl
  · exact hc.2 h
  · exact hc.1

def digitsOf (body : List Char) : List Nat := (body.filter (· != '_')).map digitOf

theorem digitsValue_eq_foldl {digit? : Char → Option Nat}
    (h : ∀ c ∈ cs, digit? c = some (digitOf c)) (acc : Nat) :
    digitsValue base digit? acc cs =
      some ((cs.map digitOf).foldl (fun n d => d + base * n) acc) := by
  induction cs generalizing acc with
  | nil => rfl
  | cons c cs ih =>
    obtain ⟨hc, hcs⟩ := forall_mem_cons.mp h
    rw [digitsValue, hc, map_cons, foldl_cons, Nat.add_comm, Nat.mul_comm]
    exact ih hcs _

theorem ofDigits_reverse (ds : List Nat) :
    Nat.ofDigits base ds.reverse = ds.foldl (fun n d => d + base * n) 0 := by
  simp [Nat.ofDigits_eq_foldr]

theorem natural?_eq (hcs : ∀ c ∈ cs, digitOf c < base) (hbase : base = 10 ∨ base = 16) :
    natural? base (if base = 10 then decimalDigit? else hexDigit?) cs =
      if cs.map digitOf = [] then none else some (Nat.ofDigits base (cs.map digitOf).reverse) := by
  simp [natural?, digitsValue_eq_foldl fun c hc => digit?_of_lt (hcs c hc) hbase, ofDigits_reverse]

theorem integerDigits?_spelled (h : Spelled cs mark body suffix base) :
    integerDigits? (withoutSeparators (mark ++ body)) =
      if digitsOf body = [] then none else some (Nat.ofDigits base (digitsOf body).reverse) := by
  have hdigits : ∀ c ∈ withoutSeparators body, digitOf c < base := by
    intro c hc
    rw [withoutSeparators, mem_filter, bne_iff_ne] at hc
    exact (h.digits c hc.1).resolve_left hc.2
  have hfilter : withoutSeparators (mark ++ body) = mark ++ withoutSeparators body := by
    refine (filter_append ..).trans (congrArg (· ++ _) ?_)
    rcases h.radix with ⟨rfl, -⟩ | ⟨rfl | rfl, -⟩ <;> rfl
  have hvalue := natural?_eq hdigits (h.radix.imp And.right And.right)
  rw [hfilter]
  refine Eq.trans ?_ hvalue
  rcases h.radix with ⟨rfl, rfl⟩ | ⟨rfl | rfl, rfl⟩
  · generalize withoutSeparators body = digits at hdigits
    rw [nil_append]
    unfold integerDigits?
    split
    · exact absurd (hdigits 'x' (by simp)) (by decide)
    · exact absurd (hdigits 'X' (by simp)) (by decide)
    · rfl
  · rfl
  · rfl

def suffixType (suffix : List Char) : Option Scalar :=
  if 'L' ∈ suffix then if 'u' ∈ suffix ∨ 'U' ∈ suffix then some .ulong else some .long
  else if 'u' ∈ suffix ∨ 'U' ∈ suffix then some .uint else none

theorem integerSuffix_eq (suffix : List Char) : integerSuffix suffix = suffixType suffix := by
  by_cases hL : 'L' ∈ suffix <;> by_cases hu : 'u' ∈ suffix <;> by_cases hU : 'U' ∈ suffix <;>
    simp [integerSuffix, suffixType, hL, hu, hU]

theorem suffix_of_spelled (h : Spelled cs mark body suffix base) {isDigit : Char → Bool}
    (hisDigit : isDigit = fun c => c != 'L' && c != 'u' && c != 'U') :
    cs.takeWhile isDigit = mark ++ body ∧ cs.dropWhile isDigit = suffix := by
  have hbody : ∀ c ∈ mark ++ body, isDigit c := by
    subst hisDigit
    refine forall_mem_append.mpr ⟨?_, fun c hc => ?_⟩
    · rcases h.radix with ⟨rfl, -⟩ | ⟨rfl | rfl, -⟩ <;> simp
    · rcases h.digits c hc with rfl | hlt
      · rfl
      · exact forall_digits (P := fun c => (c != 'L' && c != 'u' && c != 'U') = true)
          (by decide +kernel) (by rcases h.radix with h | h <;> omega)
  have hletters : ∀ c ∈ suffix, isDigit c = false := fun c hc => by
    have hc := h.letters c hc
    simp only [mem_cons, not_mem_nil, or_false] at hc
    rcases hc with rfl | rfl | rfl <;> simp [hisDigit]
  rw [h.eq, takeWhile_append_of_pos hbody, dropWhile_append_of_pos hbody]
  cases suffix with
  | nil => simp
  | cons c suffix => simp [hletters c mem_cons_self]

/-- An integer has a value if it has digits and 64 bits can hold their value. -/
theorem integerLiteral?_spelled {text : String} (h : Spelled text.toList mark body suffix base)
    {v : UInt64} {s : Option Scalar} : integerLiteral? text = some (v, s) ↔
      digitsOf body ≠ [] ∧ Nat.ofDigits base (digitsOf body).reverse = v.toNat ∧
        s = suffixType suffix := by
  obtain ⟨htake, hdrop⟩ := suffix_of_spelled h rfl
  simp only [integerLiteral?, htake, hdrop, integerDigits?_spelled h, integerSuffix_eq]
  by_cases hdigits : digitsOf body = []
  · simp [hdigits]
  generalize Nat.ofDigits base (digitsOf body).reverse = value
  have hvalue : value < 2 ^ 64 ∧ value.toUInt64 = v ↔ value = v.toNat := by
    constructor
    · rintro ⟨hlt, rfl⟩
      exact (UInt64.toNat_ofNat_of_lt' hlt).symm
    · rintro rfl
      exact ⟨v.toNat_lt, UInt64.ofNat_toNat⟩
  simp [hdigits, ← hvalue, and_assoc, eq_comm (a := s)]

/-! ## Numbers in decimal digits -/

theorem digitOf_of_mem_toDigits {n : Nat} (hc : c ∈ Nat.toDigits 10 n) :
    digitOf c < 10 ∧ digitOf c = c.toNat - '0'.toNat := by
  have hall : ∀ n < 58, 48 ≤ n →
      digitOf (Char.ofNat n) < 10 ∧ digitOf (Char.ofNat n) = n - 48 := by decide
  have hdigit := Nat.isDigit_of_mem_toDigits (by decide) (by decide) hc
  simp only [Char.isDigit, Bool.and_eq_true, decide_eq_true_eq] at hdigit
  simpa using hall c.toNat (Nat.lt_succ_of_le hdigit.2) hdigit.1

theorem ofDigits_toDigits (n : Nat) :
    Nat.ofDigits 10 ((Nat.toDigits 10 n).map digitOf).reverse = n := by
  refine (ofDigits_reverse _).trans (.trans ?_ Nat.ofDigitChars_ten_toDigits)
  rw [Nat.ofDigitChars_eq_foldl, foldl_map]
  refine foldl_ext _ _ 0 fun acc c hc => ?_
  rw [(digitOf_of_mem_toDigits hc).2, Nat.add_comm]

theorem integerLiteral?_toString {n : Nat} (hn : n < 2 ^ 64) :
    integerLiteral? (toString n) = some (n.toUInt64, none) := by
  have hspelled : Spelled (toString n).toList [] (Nat.toDigits 10 n) [] 10 :=
    ⟨by simp, .inl ⟨rfl, rfl⟩, fun c hc => .inr (digitOf_of_mem_toDigits hc).1, nofun⟩
  have hplain : digitsOf (Nat.toDigits 10 n) = (Nat.toDigits 10 n).map digitOf :=
    congrArg _ (filter_eq_self.mpr fun c hc => bne_iff_ne.mpr fun h =>
      absurd (digitOf_of_mem_toDigits (h ▸ hc)).1 (by decide))
  rw [integerLiteral?_spelled hspelled, hplain, ofDigits_toDigits]
  exact ⟨by simp, (UInt64.toNat_ofNat_of_lt' hn).symm, rfl⟩

/-! ## The integers of a source text -/

/-- A text is spelled as an integer with this value and with a suffix for this type. -/
def SpellsInteger (cs : List Char) (v : UInt64) (s : Option Scalar) : Prop :=
  ∃ mark body suffix base, Spelled cs mark body suffix base ∧ digitsOf body ≠ [] ∧
    Nat.ofDigits base (digitsOf body).reverse = v.toNat ∧ s = suffixType suffix

/-- Each integer that the scan finds is spelled as one, and it is read as what it spells. -/
theorem integer_literals_exact (source : String) {w : Word}
    (hw : w ∈ words source (lex source).tokens) (hk : w.kind = .intLiteral) :
    (∃ mark body suffix base, Spelled w.text.toList mark body suffix base) ∧
      ∀ v s, integerLiteral? w.text = some (v, s) ↔ SpellsInteger w.text.toList v s := by
  have hchunk : w.chunk ∈ (lex source).tokens.map (chunk source) :=
    words_chunks source ▸ mem_map_of_mem hw
  obtain ⟨t, ht, hchunk⟩ := mem_map.mp hchunk
  have htext : (chunk source t).text = w.text := congrArg Chunk.text hchunk
  have hspelled := exists_spelled ht ((congrArg Chunk.kind hchunk).trans hk)
  rw [htext] at hspelled
  refine ⟨hspelled, fun v s => ⟨fun h => ?_, ?_⟩⟩
  · obtain ⟨mark, body, suffix, base, hparts⟩ := hspelled
    exact ⟨mark, body, suffix, base, hparts, (integerLiteral?_spelled hparts).mp h⟩
  · rintro ⟨mark, body, suffix, base, hparts, h⟩
    exact (integerLiteral?_spelled hparts).mpr h

theorem integer_literals_exact_hex :
    SpellsInteger "0xF_fUL".toList 255 (some .ulong) ∧
      integerLiteral? "0xF_fUL" = some (255, some .ulong) := by
  have hword : (⟨.intLiteral, ⟨2, 9⟩, "0xF_fUL", "0xF_fUL"⟩ : Word) ∈
      words "f(0xF_fUL)" (lex "f(0xF_fUL)").tokens := by decide +kernel
  have hvalue : integerLiteral? "0xF_fUL" = some (255, some .ulong) := by decide +kernel
  exact ⟨((integer_literals_exact "f(0xF_fUL)" hword rfl).2 255 (some .ulong)).mp hvalue, hvalue⟩

end DCompiler.Grammar
