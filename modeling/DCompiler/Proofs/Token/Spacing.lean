import DCompiler.Proofs.Text.Encoding
import DCompiler.Proofs.Token.Lexeme

/-!
# Spacing is free

The scan looks beyond a lexeme to see where it ends. If the end of the text or a space follows, it
finds the same lexeme (`Takes.apart`): whatever was recognised in front of other text is recognised
by its own bytes. For a number this is shown part by part. Each part counts bytes as far as they go
on, so it counts the same in a text that agrees up to the end of the number and then has a space.

A text without faults is a row of chunks: tokens, and between them what is skipped (`Scans`). Chunks
are known by their own characters, so the same chunks with single spaces between them are scanned to
the same tokens.
-/

namespace DCompiler.Token

open List Text

variable {b : UInt8} {n : Nat} {rest bs x y z : List UInt8} {k : TokenKind} {l : Lexeme}

/-- The end of a text, or a space in front of more. -/
def Apart (z : List UInt8) : Prop := ∀ c, z.head? = some c → c = 32

theorem apart_space (z : List UInt8) : Apart (32 :: z) := by simp [Apart]

/-! ## Counting bytes -/

section Counting

variable {p : UInt8 → Bool}

theorem Apart.takeWhile (hz : Apart z) (hp : p 32 = false) : z.takeWhile p = [] := by
  cases z with
  | nil => rfl
  | cons c z => simp [hz c rfl, hp]

theorem Apart.any (hz : Apart z) (hp : p 32 = false) : z.head?.any p = false := by
  cases z with
  | nil => rfl
  | cons c z => simp [hz c rfl, hp]

theorem takeWhile_apart (hz : Apart z) (hp : p 32 = false) (hn : (bs.takeWhile p).length ≤ n) :
    (bs.take n ++ z).takeWhile p = bs.takeWhile p := by
  induction bs generalizing n with
  | nil => simpa using hz.takeWhile hp
  | cons b bs ih =>
    cases n with
    | zero =>
      rw [eq_nil_of_length_eq_zero (Nat.le_zero.mp hn)]
      simpa using hz.takeWhile hp
    | succ n =>
      by_cases hb : p b
      · rw [takeWhile_cons_of_pos hb] at hn ⊢
        rw [take_succ_cons, cons_append, takeWhile_cons_of_pos hb, ih (Nat.le_of_succ_le_succ hn)]
      · simp [hb]

theorem head?_any_apart (bs : List UInt8) (hz : Apart z) (hp : p 32 = false)
    (hn : bs.head?.any p → 1 ≤ n) : (bs.take n ++ z).head?.any p = bs.head?.any p := by
  cases bs with
  | nil => simpa using hz.any hp
  | cons b bs =>
    cases n with
    | zero =>
      have hb : p b = false := by
        cases h : p b with
        | false => rfl
        | true => simp [h] at hn
      simpa [hb] using hz.any hp
    | succ n => rfl

/-- A text that agrees up to some place still agrees when it is read from a place before. -/
theorem drop_apart {m : Nat} (hm : m ≤ n) (hn : n ≤ bs.length) :
    (bs.take n ++ z).drop m = (bs.drop m).take (n - m) ++ z := by
  rw [drop_append_of_le_length (by rw [length_take]; omega), drop_take]

end Counting

/-! ## Numbers -/

section

variable (hz : Apart z)
include hz

theorem digitsLength_apart (hn : digitsLength bs ≤ n) :
    digitsLength (bs.take n ++ z) = digitsLength bs :=
  congrArg List.length (takeWhile_apart hz (by decide) hn)

theorem Apart.fractionLength : fractionLength z = 0 := by
  cases z with
  | nil => rfl
  | cons c z =>
    obtain rfl := hz c rfl
    exact fractionLength_of_ne (by decide) z

/-- A point belongs to a number by what follows it, so the number must not end in front of it. -/
theorem fractionLength_apart (hn : fractionLength bs ≤ n)
    (hpoint : fractionLength bs = 0 → bs.head? = some (byte '.') → n = 0) :
    fractionLength (bs.take n ++ z) = fractionLength bs := by
  cases bs with
  | nil => simpa [Token.fractionLength] using hz.fractionLength
  | cons b rest =>
    by_cases hb : b = byte '.'
    · subst hb
      rw [fractionLength_point] at hn hpoint ⊢
      cases hends : endsWhole rest with
      | true =>
        obtain rfl := hpoint (by simp [hends]) rfl
        simpa using hz.fractionLength
      | false =>
        rw [hends, if_neg Bool.false_ne_true] at hn
        obtain ⟨m, rfl⟩ := Nat.exists_eq_add_of_le' (Nat.le_trans (by omega) hn : 1 ≤ n)
        have hends' : endsWhole (rest.take m ++ z) = endsWhole rest :=
          head?_any_apart rest hz (by decide) fun h => by simp [endsWhole, h] at hends
        rw [take_succ_cons, cons_append, fractionLength_point, hends', hends,
          digitsLength_apart hz (by omega)]
    · rw [fractionLength_of_ne hb]
      cases n with
      | zero => simpa using hz.fractionLength
      | succ n => exact fractionLength_of_ne hb _

theorem Apart.exponentLength : exponentLength z = 0 := by
  cases z with
  | nil => rfl
  | cons c z =>
    obtain rfl := hz c rfl
    exact exponentLength_of_ne (by decide) z

theorem signLength_apart (hn : signLength bs ≤ n) :
    signLength (bs.take n ++ z) = signLength bs := by
  have hhead := head?_any_apart (n := n) bs hz
    (p := fun c => c == byte '+' || c == byte '-') (by decide)
    fun h => by simpa [signLength, h] using hn
  unfold signLength
  rw [hhead]

theorem exponentLength_apart (hlength : n ≤ bs.length) (hn : exponentLength bs ≤ n) :
    exponentLength (bs.take n ++ z) = exponentLength bs := by
  cases bs with
  | nil => simpa [Token.exponentLength] using hz.exponentLength
  | cons b rest =>
    cases hb : b == byte 'e' || b == byte 'E' with
    | false =>
      rw [exponentLength_of_ne hb]
      cases n with
      | zero => simpa using hz.exponentLength
      | succ n => exact exponentLength_of_ne hb _
    | true =>
      rw [exponentLength_of_eq hb] at hn ⊢
      obtain ⟨m, rfl⟩ := Nat.exists_eq_add_of_le' (Nat.le_trans (by omega) hn : 1 ≤ n)
      rw [length_cons] at hlength
      rw [take_succ_cons, cons_append, exponentLength_of_eq hb,
        signLength_apart hz (by omega), drop_apart (by omega) (by omega),
        digitsLength_apart hz (by omega)]

theorem decimalLength_apart (hlength : n ≤ bs.length) (hn : (decimalLength bs).1 ≤ n)
    (hpoint : (bs.drop (decimalLength bs).1).head? = some (byte '.') → n = (decimalLength bs).1) :
    decimalLength (bs.take n ++ z) = decimalLength bs := by
  simp only [decimalLength] at hn hpoint ⊢
  generalize hwhole : digitsLength bs = whole at hn hpoint ⊢
  generalize hfraction : fractionLength (bs.drop whole) = fraction at hn hpoint ⊢
  have hfraction' : fractionLength ((bs.drop whole).take (n - whole) ++ z) = fraction := by
    rw [← hfraction]
    refine fractionLength_apart hz (by omega) fun hzero hhead => ?_
    -- With nothing but the whole part taken, a point is what the number ends in front of.
    have hexponent : exponentLength (bs.drop whole) = 0 := by
      obtain ⟨rest, hrest⟩ := head?_eq_some_iff.mp hhead
      rw [hrest]
      exact exponentLength_of_ne (by decide) rest
    rw [hfraction] at hzero
    rw [hzero, Nat.add_zero, hexponent, Nat.add_zero] at hpoint
    have := hpoint hhead
    omega
  rw [digitsLength_apart hz (by omega), hwhole, drop_apart (by omega) hlength, hfraction',
    drop_apart (by omega) hlength,
    exponentLength_apart hz (by rw [length_drop]; omega) (by omega)]

theorem Apart.isHex : isHex z = false := by
  match z with
  | [] | [_] => rfl
  | c :: d :: z =>
    obtain rfl := hz c rfl
    rfl

theorem Apart.isHex_cons (c : UInt8) : Token.isHex (c :: z) = false := by
  cases z with
  | nil => rfl
  | cons d z =>
    obtain rfl := hz d rfl
    simp [Token.isHex, byte]

theorem isHex_apart (hn : isHex bs → 2 ≤ n) : isHex (bs.take n ++ z) = isHex bs := by
  match bs, n with
  | [], _ =>
    rw [take_nil]
    exact hz.isHex
  | c :: bs, 0 =>
    have hbs : isHex (c :: bs) = false := by simpa using hn
    simpa [hbs] using hz.isHex
  | c :: bs, 1 =>
    have hbs : isHex (c :: bs) = false := by simpa using hn
    simpa [hbs] using hz.isHex_cons c
  | [c], n + 2 => exact hz.isHex_cons c
  | c :: d :: bs, n + 2 => rfl

theorem unsuffixedLength_apart (hlength : n ≤ bs.length)
    (hn : (unsuffixedLength bs).1 ≤ n)
    (hpoint : (bs.drop (unsuffixedLength bs).1).head? = some (byte '.') →
      n = (unsuffixedLength bs).1) :
    unsuffixedLength (bs.take n ++ z) = unsuffixedLength bs := by
  rw [unsuffixedLength_eq] at hn hpoint
  rw [unsuffixedLength_eq, unsuffixedLength_eq bs]
  cases hhex : isHex bs with
  | true =>
    rw [hhex, if_pos rfl] at hn
    rw [isHex_apart hz fun _ => by omega, hhex, if_pos rfl, if_pos rfl,
      drop_apart (by omega) hlength, takeWhile_apart hz (by decide) (by omega)]
  | false =>
    rw [hhex, if_neg Bool.false_ne_true] at hn hpoint
    rw [isHex_apart hz (by simp [hhex]), hhex, if_neg Bool.false_ne_true, if_neg Bool.false_ne_true,
      decimalLength_apart hz hlength hn hpoint]

theorem numberLength_apart (h : numberLength bs = (n, k)) :
    numberLength (bs.take n ++ z) = (n, k) := by
  have hlength : n ≤ bs.length := by simpa [h] using (number_ascii bs).le
  rw [← h]
  simp only [numberLength, Prod.mk.injEq] at h ⊢
  obtain ⟨hn, -⟩ := h
  generalize hunsuffixed : (unsuffixedLength bs).1 = m at hn
  have hpoint (hhead : (bs.drop m).head? = some (byte '.')) : n = m := by
    obtain ⟨rest, hrest⟩ := head?_eq_some_iff.mp hhead
    rw [hrest, takeWhile_cons_of_neg (by decide)] at hn
    simpa using hn.symm
  have hsame : unsuffixedLength (bs.take n ++ z) = unsuffixedLength bs :=
    unsuffixedLength_apart hz hlength (by omega) (by rwa [hunsuffixed])
  rw [hsame, hunsuffixed, drop_apart (by omega) hlength, takeWhile_apart hz (by decide) (by omega)]
  exact ⟨rfl, rfl⟩

end

/-! ## All other lexemes -/

/-- Where a digit or a letter stands, a number or a word starts. -/
theorem lexeme_other (hb : isDigit b || isIdentStart b) (rest : List UInt8) :
    lexeme b rest = if isDigit b then number b rest else word b rest := by
  have hblank : ¬isBlank b := by
    simp only [isBlank, Bool.or_eq_true, beq_iff_eq]
    rintro (((rfl | rfl) | rfl) | rfl) <;> exact absurd hb (by decide)
  have hslash : (b == byte '/') = false := by
    rw [beq_eq_false_iff_ne]
    rintro rfl
    exact absurd hb (by decide)
  unfold lexeme
  rw [if_neg hblank, hslash, Bool.false_and, if_neg Bool.false_ne_true, Bool.false_and,
    if_neg Bool.false_ne_true]
  split
  case h_29 =>
    cases hdigit : isDigit b with
    | true => rfl
    | false =>
      rw [hdigit, Bool.false_or] at hb
      simp [hb]
  all_goals
    next hc =>
      rw [eq_byte hc] at hb
      exact absurd hb (by decide)

theorem takes_number (hstart : startsNumber x) (hlength : numberLength (x ++ y) = (x.length, k)) :
    Takes x y (.token k) := by
  cases x with
  | nil => simp [startsNumber] at hstart
  | cons b x =>
    have hlexeme : lexeme b (x ++ y) = number b (x ++ y) := by
      rw [startsNumber, Bool.or_eq_true] at hstart
      rcases hstart with hdigit | hpoint
      · rw [lexeme_other (by simp [hdigit]), if_pos hdigit]
      rw [Bool.and_eq_true, beq_iff_eq] at hpoint
      obtain ⟨rfl, hdigit⟩ := hpoint
      have hdigit' : (x ++ y).head?.any isDigit := by
        cases x with
        | nil => simp at hdigit
        | cons d x => exact hdigit
      exact if_pos hdigit'
    show lexeme b (x ++ y) = _
    rw [hlexeme, number, ← cons_append, hlength]
    simp

theorem takes_word (hb : isIdentStart b) (hx : ∀ c ∈ x, isIdentContinue c)
    (hy : y.head?.all (!isIdentContinue ·)) : Takes (b :: x) y (.token (wordKind (b :: x))) := by
  have hdigit : isDigit b = false := by
    cases hdigit : isDigit b with
    | false => rfl
    | true =>
      unfold isDigit at hdigit
      unfold isIdentStart isLetter byte at hb
      grind
  have htail : (x ++ y).takeWhile isIdentContinue = x := by
    rw [takeWhile_append_of_pos hx]
    cases y with
    | nil => simp
    | cons c y => simp_all
  show lexeme b (x ++ y) = _
  rw [lexeme_other (by simp [hb]), hdigit, if_neg Bool.false_ne_true, word, htail]
  rfl

theorem takes_string (hx : stringLength (x ++ y) = some x.length) :
    Takes (byte '"' :: x) y (.quoted .stringLiteral) := by
  have hlexeme : lexeme (byte '"') (x ++ y) = (stringLength (x ++ y)).elim
      (.fault .unterminatedString, (x ++ y).length) fun length =>
        (.quoted .stringLiteral, length) := by
    unfold lexeme
    cases stringLength (x ++ y) <;> rfl
  show lexeme (byte '"') (x ++ y) = _
  rw [hlexeme, hx]
  rfl

/-- Symbols in front of a space are not part of longer ones. -/
theorem takes_symbol {s : List Char} (hs : (s, k) ∈ symbols) (hz : Apart z) :
    Takes (s.map byte) z (.token k) := by
  have hall : ∀ p ∈ symbols, Takes (p.1.map byte) z (.token p.2) := by
    simp only [symbols, forall_mem_cons, not_mem_nil, false_imp_iff, implies_true, and_true]
    cases z with
    | nil => and_intros <;> rfl
    | cons c z =>
      obtain rfl := hz c rfl
      and_intros <;> rfl
  exact hall _ hs

/-- A token is found by its own bytes if a space or the end of the text follows. -/
theorem Takes.apart (h : Takes x y l) (hz : Apart z) (hskipped : l ≠ .skipped)
    (hfault : ∀ cause, l ≠ .fault cause) : Takes x z l := by
  cases h.reads with
  | blank | lineComment | comment => exact absurd rfl hskipped
  | openComment | openString | openCharacter | unexpected => exact absurd rfl (hfault _)
  | symbol hs => exact takes_symbol hs hz
  | number hstart hlength =>
    refine takes_number hstart ?_
    have happart := numberLength_apart hz hlength
    rwa [take_left] at happart
  | @string x _ hlength =>
    obtain ⟨body, after, hx, hn, hbody⟩ := string_closed hlength
    obtain ⟨rfl, -⟩ := append_inj hx (by simp [hn])
    exact takes_string (by rw [hbody])
  | @character b _ hb =>
    show character (b :: byte '\'' :: z) = _
    simp [character, hb]
  | @escaped b =>
    show character (byte '\\' :: b :: byte '\'' :: z) = _
    simp [character]
  | word hb hx _ =>
    refine takes_word hb hx ?_
    cases z with
    | nil => rfl
    | cons c z =>
      obtain rfl := hz c rfl
      rfl

/-! ## Bytes of tokens -/

theorem word_ascii (hb : isIdentContinue b) : b < 128 := by
  unfold isIdentContinue isIdentStart isLetter isDigit byte at hb
  grind

open Text (Boundary)

theorem boundary_of_ascii (hx : ∀ b ∈ x, b < 128) (y : List UInt8) : Boundary x y :=
  .inl fun b hb => hx b (mem_of_getLast? hb)

theorem boundary_concat (hb : b < 128) (x y : List UInt8) : Boundary (x ++ [b]) y :=
  .inl fun c hc => by
    rw [getLast?_concat] at hc
    exact Option.some.inj hc ▸ hb

theorem Takes.token_ascii (h : Takes x y (.token k)) : ∀ b ∈ x, b < 128 := by
  cases h.reads with
  | symbol hs =>
    refine forall_mem_map.mpr fun c hc => ?_
    have hall : symbols.all fun p => p.1.all (byte · < 128) := by decide
    exact of_decide_eq_true (all_eq_true.mp (all_eq_true.mp hall _ hs) c hc)
  | number hstart hlength =>
    have hascii := (number_ascii (x ++ y)).ascii
    rwa [hlength, take_left] at hascii
  | word hb hx =>
    refine forall_mem_cons.mpr ⟨word_ascii ?_, fun c hc => word_ascii (hx c hc)⟩
    simp [isIdentContinue, hb]

theorem quote_ascii {q : UInt8} (hq : q ∈ [byte '"', byte '\'']) : q < 128 := by
  have hall : ∀ q ∈ [byte '"', byte '\''], q < 128 := by simp [byte]
  exact hall q hq

theorem Takes.boundary (h : Takes x y l) (hfault : ∀ cause, l ≠ .fault cause) : Boundary x y := by
  cases l with
  | fault cause => exact absurd rfl (hfault cause)
  | token k => exact boundary_of_ascii h.token_ascii y
  | quoted k =>
    obtain ⟨q, body, hq, rfl, -⟩ := h.quoted
    exact boundary_concat (quote_ascii hq) (q :: body) y
  | skipped =>
    cases h.reads with
    | blank hb =>
      refine boundary_of_ascii ?_ y
      unfold isBlank at hb
      grind
    | lineComment _ hy =>
      refine .inr fun c hc => ?_
      rcases hy with rfl | hy
      · simp at hc
      · rw [← Option.some.inj (hy.symm.trans hc)]
        decide
    | @comment x _ hlength =>
      obtain ⟨body, after, hx, hn, -⟩ := comment_closed hlength
      obtain ⟨rfl, -⟩ := append_inj hx (by simp [hn])
      have := boundary_concat (b := byte '/') (by decide)
        (byte '/' :: byte '*' :: (body ++ [byte '*'])) y
      simpa using this

/-! ## Chunks -/

/-- What is read of a token: its kind, how it is spelt in the source, and its text. -/
structure Chunk where
  kind : TokenKind
  spelling : String
  text : String
  deriving Repr, DecidableEq

def chunk (source : String) (t : Token) : Chunk :=
  ⟨t.kind, slice source t.span.start t.span.stop, slice source t.text.start t.text.stop⟩

def Chunk.eof : Chunk := ⟨.eof, "", ""⟩

/-- Characters that are scanned without a fault, to these chunks. -/
inductive Scans : List Char → List Chunk → Prop
  | nil : Scans [] []
  | skipped {cs rest : List Char} {ps : List Chunk} :
    Takes (encode cs) (encode rest) .skipped → Scans rest ps → Scans (cs ++ rest) ps
  | token {k : TokenKind} {cs rest : List Char} {ps : List Chunk} :
    Takes (encode cs) (encode rest) (.token k) → Scans rest ps →
      Scans (cs ++ rest) (⟨k, String.ofList cs, String.ofList cs⟩ :: ps)
  | quoted {k : TokenKind} {left cs right rest : List Char} {ps : List Chunk} :
    (encode left).length = 1 → (encode right).length = 1 →
      Takes (encode (left ++ cs ++ right)) (encode rest) (.quoted k) → Scans rest ps →
      Scans (left ++ cs ++ right ++ rest)
        (⟨k, String.ofList (left ++ cs ++ right), String.ofList cs⟩ :: ps)

variable {cs before : List Char} {ps : List Chunk}

theorem eq_nil_of_encode (h : encode cs = []) : cs = [] := by
  cases cs with
  | nil => rfl
  | cons c cs => simp [String.utf8EncodeChar_ne_nil] at h

theorem exists_scans {offset : Nat} (h : (lexFrom offset (encode cs)).faults = []) :
    ∃ ps, Scans cs ps := by
  generalize hbs : encode cs = bs at h
  induction bs using lexeme_induction generalizing offset cs with
  | nil =>
    obtain rfl := eq_nil_of_encode hbs
    exact ⟨[], .nil⟩
  | step x y l htakes ih =>
    rw [lexFrom_append htakes] at h
    have hfault (cause : LexFault) : l ≠ .fault cause := by
      rintro rfl
      simp [Lexeme.addTo] at h
    have hrest : (lexFrom (offset + x.length) y).faults = [] := by
      cases l with
      | fault cause => exact absurd rfl (hfault cause)
      | _ => exact h
    obtain ⟨before, after, rfl, rfl, rfl⟩ := encode_split hbs (htakes.boundary hfault)
    obtain ⟨ps, hps⟩ := ih rfl hrest
    cases l with
    | skipped => exact ⟨ps, .skipped htakes hps⟩
    | token k => exact ⟨_, .token htakes hps⟩
    | quoted k =>
      obtain ⟨q, body, hq, hquoted, -⟩ := htakes.quoted
      have hascii := quote_ascii hq
      have hleft : Boundary [q] (body ++ [q]) := boundary_concat hascii [] _
      obtain ⟨left, inner, rfl, hl, hinner⟩ := encode_split hquoted hleft
      have hright : Boundary body [q] := .inr fun c hc => Option.some.inj hc ▸ hascii
      obtain ⟨cs, right, rfl, -, hr⟩ := encode_split hinner hright
      rw [← append_assoc] at htakes ⊢
      exact ⟨_, .quoted (by simp [hl]) (by simp [hr]) htakes hps⟩
    | fault cause => exact absurd rfl (hfault cause)

theorem length_encode_append (cs ds : List Char) :
    (encode (cs ++ ds)).length = (encode cs).length + (encode ds).length := by
  rw [encode_append, length_append]

theorem Scans.lexFrom (h : Scans cs ps) (before : List Char) :
    (lexFrom (encode before).length (encode cs)).faults = [] ∧
      (lexFrom (encode before).length (encode cs)).tokens.map
        (chunk (String.ofList (before ++ cs))) = ps ++ [.eof] := by
  induction h generalizing before with
  | nil =>
    rw [encode_nil, Token.lexFrom]
    exact ⟨rfl, by simp [chunk, Chunk.eof, slice_empty]⟩
  | @skipped cs rest ps htakes _ ih =>
    have ih := ih (before ++ cs)
    rw [encode_append, lexFrom_append htakes]
    rwa [length_encode_append, append_assoc] at ih
  | @token k cs rest ps htakes _ ih =>
    obtain ⟨hfaults, htokens⟩ := ih (before ++ cs)
    rw [length_encode_append] at hfaults htokens
    have hslice := slice_between before cs rest rfl rfl
    rw [append_assoc] at htokens hslice
    rw [encode_append, lexFrom_append htakes]
    refine ⟨hfaults, ?_⟩
    simp only [Lexeme.addTo, map_cons, htokens, chunk, hslice, cons_append]
  | @quoted k left cs right rest ps hleft hright htakes _ ih =>
    obtain ⟨hfaults, htokens⟩ := ih (before ++ (left ++ cs ++ right))
    rw [length_encode_append] at hfaults htokens
    have hspelling := slice_between before (left ++ cs ++ right) rest rfl rfl
    have hstart : (encode before).length + 1 = (encode (before ++ left)).length := by
      rw [length_encode_append, hleft]
    have hstop : (encode before).length + (encode (left ++ cs ++ right)).length - 1 =
        (encode before).length + 1 + (encode cs).length := by
      rw [length_encode_append, length_encode_append, hleft, hright]
      omega
    have htext := slice_between (before ++ left) cs (right ++ rest) hstart hstop
    have hsource : before ++ left ++ cs ++ (right ++ rest) =
        before ++ (left ++ cs ++ right) ++ rest := by simp
    rw [hsource] at htext
    rw [append_assoc before] at htokens hspelling htext
    rw [encode_append _ rest, lexFrom_append htakes]
    refine ⟨hfaults, ?_⟩
    simp only [Lexeme.addTo, map_cons, htokens, chunk, hspelling, htext, cons_append]

/-! ## Single spaces -/

/-- The spellings of chunks with a space between them. -/
def spacedOut (ps : List Chunk) : String := String.intercalate " " (ps.map Chunk.spelling)

def spacedTail : List Chunk → List Char
  | [] => []
  | ps => ' ' :: (spacedOut ps).toList

theorem toList_spacedOut_cons (p : Chunk) (ps : List Chunk) :
    (spacedOut (p :: ps)).toList = p.spelling.toList ++ spacedTail ps := by
  cases ps with
  | nil => simp [spacedOut, spacedTail]
  | cons q ps => simp [spacedOut, spacedTail, String.intercalate_cons_cons]

theorem apart_spacedTail (ps : List Chunk) : Apart (encode (spacedTail ps)) := by
  cases ps with
  | nil => simp [Apart, spacedTail, encode]
  | cons p ps => exact apart_space (encode (spacedOut (p :: ps)).toList)

theorem Scans.spacedTail (h : Scans (spacedOut ps).toList ps) : Scans (spacedTail ps) ps := by
  cases ps with
  | nil => exact .nil
  | cons p ps =>
    have hspace : Takes (encode [' ']) (encode (Token.spacedOut (p :: ps)).toList) .skipped := rfl
    exact .skipped hspace h

theorem Scans.spacedOut (h : Scans cs ps) : Scans (spacedOut ps).toList ps := by
  induction h with
  | nil => exact .nil
  | skipped _ _ ih => exact ih
  | @token k cs rest ps htakes _ ih =>
    rw [toList_spacedOut_cons, String.toList_ofList]
    exact .token (htakes.apart (apart_spacedTail ps) (by simp) (by simp)) ih.spacedTail
  | @quoted k left cs right rest ps hleft hright htakes _ ih =>
    rw [toList_spacedOut_cons, String.toList_ofList]
    exact .quoted hleft hright (htakes.apart (apart_spacedTail ps) (by simp) (by simp))
      ih.spacedTail

theorem Scans.lex {source : String} (h : Scans source.toList ps) :
    (lex source).faults = [] ∧ (lex source).tokens.map (chunk source) = ps ++ [.eof] := by
  have hlex := h.lexFrom []
  rwa [nil_append, String.ofList_toList] at hlex

/-- A text without faults is read the same when its tokens, without the end, are taken as they are
spelt and set apart by single spaces. -/
theorem spacing_is_free (source : String) (hsource : (lex source).faults = []) :
    let spaced := spacedOut ((lex source).tokens.dropLast.map (chunk source))
    (lex spaced).faults = [] ∧
      (lex spaced).tokens.map (chunk spaced) = (lex source).tokens.map (chunk source) := by
  obtain ⟨ps, hps⟩ := exists_scans hsource
  have htokens := hps.lex.2
  have hdrop : (lex source).tokens.dropLast.map (chunk source) = ps := by
    rw [map_dropLast, htokens, dropLast_concat]
  rw [hdrop, htokens]
  exact hps.spacedOut.lex

def crowded : String := "x+=1..2.5f/*é*/\"é\\\"\">>='\\''//ü"

def roomy : String := "x += 1 .. 2.5f \"é\\\"\" >>= '\\''"

theorem spacing_is_free_crowded :
    (lex crowded).faults = [] ∧
      spacedOut ((lex crowded).tokens.dropLast.map (chunk crowded)) = roomy ∧
      (lex roomy).faults = [] ∧
      (lex roomy).tokens.map (chunk roomy) = (lex crowded).tokens.map (chunk crowded) := by
  have hfaults : (lex crowded).faults = [] := by decide +kernel
  have hspaced : spacedOut ((lex crowded).tokens.dropLast.map (chunk crowded)) = roomy := by
    decide +kernel
  have hfree := spacing_is_free crowded hfaults
  rw [hspaced] at hfree
  exact ⟨hfaults, hspaced, hfree⟩

end DCompiler.Token
