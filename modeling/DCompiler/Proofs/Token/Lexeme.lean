import DCompiler.Token.Lexer

/-!
# What lexemes look like

`lexeme` says what stands in front of the text and how far it goes. Here the bytes of one lexeme are
described apart from the function that finds them: `Reads x y l` says that `x` is a blank, a
comment, a symbol of the table `symbols`, a number, a literal or a word, as `l` tells, in front of
`y`. That every lexeme is so described (`Takes.reads`) is proved once, case by case of the function;
all else about lexemes follows from the description.

A text is then a row of lexemes, and properties of the scan are proved along this row
(`lexeme_induction`, `lexFrom_append`).
-/

namespace DCompiler.Token

open List Option

variable {assigning : TokenKind} {n : Nat} {bs : List UInt8}

/-! ## The forms of lexemes -/

def wordKind (x : List UInt8) : TokenKind :=
  TokenKind.ofWord (String.ofList (x.map fun b => Char.ofNat b.toNat))

/-- A number starts with a digit, or with a point in front of one. -/
def startsNumber : List UInt8 → Bool
  | [] => false
  | b :: rest => isDigit b || b == byte '.' && rest.head?.any isDigit

def symbols : List (List Char × TokenKind) :=
  [(['('], .lParen), ([')'], .rParen), (['{'], .lBrace), (['}'], .rBrace), (['['], .lBracket),
   ([']'], .rBracket), ([','], .comma), ([';'], .semi), ([':'], .colon), (['?'], .question),
   (['$'], .dollar), (['@'], .at), (['~'], .tilde), (['.'], .dot), (['.', '.'], .dotDot),
   (['.', '.', '.'], .dotDotDot), (['+'], .plus), (['+', '='], .plusAssign), (['-'], .minus),
   (['-', '='], .minusAssign), (['*'], .star), (['*', '='], .starAssign), (['/'], .slash),
   (['/', '='], .slashAssign), (['%'], .percent), (['%', '='], .percentAssign), (['='], .assign),
   (['=', '='], .eqEq), (['!'], .bang), (['!', '='], .notEq), (['&'], .amp), (['&', '&'], .ampAmp),
   (['&', '='], .ampAssign), (['|'], .pipe), (['|', '|'], .pipePipe), (['|', '='], .pipeAssign),
   (['^'], .caret), (['^', '='], .caretAssign), (['^', '^'], .caretCaret),
   (['^', '^', '='], .caretCaretAssign), (['<'], .lt), (['<', '='], .le), (['<', '<'], .shl),
   (['<', '<', '='], .shlAssign), (['>'], .gt), (['>', '='], .ge), (['>', '>'], .shr),
   (['>', '>', '='], .shrAssign)]

/-- The bytes of a lexeme, in front of others. -/
inductive Reads : List UInt8 → List UInt8 → Lexeme → Prop
  | blank {b : UInt8} {y : List UInt8} : isBlank b → Reads [b] y .skipped
  | lineComment {x y : List UInt8} : 10 ∉ x → (y = [] ∨ y.head? = some 10) →
    Reads (byte '/' :: byte '/' :: x) y .skipped
  | comment {x y : List UInt8} : commentLength (x ++ y) = some x.length →
    Reads (byte '/' :: byte '*' :: x) y .skipped
  | openComment {x : List UInt8} :
    Reads (byte '/' :: byte '*' :: x) [] (.fault .unterminatedComment)
  | symbol {s : List Char} {k : TokenKind} {y : List UInt8} : (s, k) ∈ symbols →
    Reads (s.map byte) y (.token k)
  | number {x y : List UInt8} {k : TokenKind} : startsNumber x →
    numberLength (x ++ y) = (x.length, k) → Reads x y (.token k)
  | string {x y : List UInt8} : stringLength (x ++ y) = some x.length →
    Reads (byte '"' :: x) y (.quoted .stringLiteral)
  | openString {x : List UInt8} : Reads (byte '"' :: x) [] (.fault .unterminatedString)
  | character {b : UInt8} {y : List UInt8} : b ≠ byte '\\' →
    Reads [byte '\'', b, byte '\''] y (.quoted .charLiteral)
  | escaped {b : UInt8} {y : List UInt8} :
    Reads [byte '\'', byte '\\', b, byte '\''] y (.quoted .charLiteral)
  | openCharacter {x y : List UInt8} : Reads (byte '\'' :: x) y (.fault .unterminatedCharacter)
  | word {b : UInt8} {x y : List UInt8} : isIdentStart b → (∀ c ∈ x, isIdentContinue c) →
    y.head?.all (!isIdentContinue ·) → Reads (b :: x) y (.token (wordKind (b :: x)))
  | unexpected {b : UInt8} {y : List UInt8} : Reads [b] y (.fault .unexpectedCharacter)

/-! ## Every lexeme has its form -/

variable {b : UInt8} {rest x y : List UInt8} {c : Char} {k : TokenKind} {l : Lexeme}

theorem eq_byte (hb : Char.ofNat b.toNat = c) : b = byte c := by
  have hvalid : b.toNat.isValidChar := .inl (by have := b.toNat_lt; omega)
  have hnat : (Char.ofNat b.toNat).toNat = b.toNat := by
    rw [Char.ofNat, dif_pos hvalid]
    rfl
  rw [← hb, byte, hnat]
  simp

/-- A lexeme and the number of its further bytes describe what the text starts with. -/
def Splits (b : UInt8) (rest : List UInt8) (found : Lexeme × Nat) : Prop :=
  ∃ x y, rest = x ++ y ∧ found.2 = x.length ∧ Reads (b :: x) y found.1

theorem splits_symbol {s : List Char} (hs : (s, k) ∈ symbols) (hx : s.map byte = b :: x)
    (hrest : x <+: rest) : Splits b rest (.token k, x.length) := by
  obtain ⟨y, rfl⟩ := hrest
  exact ⟨x, y, rfl, rfl, hx ▸ .symbol hs⟩

theorem splits_single (hb : Char.ofNat b.toNat = c) (hs : ([c], k) ∈ symbols) :
    Splits b rest (.token k, 0) :=
  splits_symbol hs (by rw [eq_byte hb]; rfl) nil_prefix

theorem prefix_of_head? (hrest : rest.head? = some b) : [b] <+: rest := by
  obtain ⟨y, rfl⟩ := head?_eq_some_iff.mp hrest
  exact ⟨y, rfl⟩

theorem splits_withAssign {s : List Char} (hplain : (s, k) ∈ symbols)
    (hassign : (s ++ ['='], assigning) ∈ symbols) (hx : s.map byte = b :: x) (hrest : x <+: rest) :
    Splits b rest (withAssign k assigning x.length rest) := by
  unfold withAssign
  split
  · next hnext =>
    obtain ⟨y, rfl⟩ := hrest
    rw [drop_left, beq_iff_eq] at hnext
    have hx' : (s ++ ['=']).map byte = b :: (x ++ [byte '=']) := by simp [hx]
    have := splits_symbol hassign hx' ((prefix_append_right_inj x).mpr (prefix_of_head? hnext))
    rwa [length_append] at this
  · exact splits_symbol hplain hx hrest

theorem splits_assign (hb : Char.ofNat b.toNat = c) (hplain : ([c], k) ∈ symbols)
    (hassign : ([c, '='], assigning) ∈ symbols) : Splits b rest (withAssign k assigning 0 rest) :=
  splits_withAssign hplain hassign (by rw [eq_byte hb]; rfl) nil_prefix

/-! ### Numbers -/

/-- A point in front of this does not start a fraction. -/
def endsWhole (bs : List UInt8) : Bool :=
  bs.head?.any fun c => c == byte '.' || isIdentStart c

theorem fractionLength_point (rest : List UInt8) :
    fractionLength (byte '.' :: rest) = if endsWhole rest then 0 else 1 + digitsLength rest := by
  unfold endsWhole
  cases h : rest.head?.any fun c => c == byte '.' || isIdentStart c <;> simp [fractionLength, h]

theorem fractionLength_of_ne (hb : b ≠ byte '.') (rest : List UInt8) :
    fractionLength (b :: rest) = 0 := by
  simp [fractionLength, hb]

def signLength (bs : List UInt8) : Nat :=
  if bs.head?.any fun c => c == byte '+' || c == byte '-' then 1 else 0

theorem exponentLength_of_ne (hb : (b == byte 'e' || b == byte 'E') = false) (rest : List UInt8) :
    exponentLength (b :: rest) = 0 := by
  simp only [exponentLength, hb]
  rfl

theorem exponentLength_of_eq (hb : b == byte 'e' || b == byte 'E') (rest : List UInt8) :
    exponentLength (b :: rest) =
      1 + signLength rest + digitsLength (rest.drop (signLength rest)) := by
  simp only [exponentLength, hb, if_true]
  rfl

def isHex : List UInt8 → Bool
  | zero :: x :: _ => zero == byte '0' && (x == byte 'x' || x == byte 'X')
  | _ => false

theorem unsuffixedLength_eq (bs : List UInt8) :
    unsuffixedLength bs =
      if isHex bs then
        (2 + ((bs.drop 2).takeWhile fun b => isHexDigit b || b == byte '_').length, false)
      else decimalLength bs := by
  match bs with
  | [] | [_] => rfl
  | zero :: x :: rest => rfl

/-- The text has this many bytes, and each of them is a character. -/
structure AsciiPrefix (bs : List UInt8) (n : Nat) : Prop where
  le : n ≤ bs.length
  ascii : ∀ b ∈ bs.take n, b < 128

theorem AsciiPrefix.zero (bs : List UInt8) : AsciiPrefix bs 0 := ⟨Nat.zero_le _, by simp⟩

theorem AsciiPrefix.cons (hb : b < 128) (h : AsciiPrefix rest n) :
    AsciiPrefix (b :: rest) (1 + n) := by
  rw [Nat.add_comm]
  refine ⟨Nat.succ_le_succ h.le, ?_⟩
  rw [take_succ_cons, forall_mem_cons]
  exact ⟨hb, h.ascii⟩

theorem AsciiPrefix.add {m : Nat} (h : AsciiPrefix bs m) (h' : AsciiPrefix (bs.drop m) n) :
    AsciiPrefix bs (m + n) := by
  have hle := h.le
  have hle' := h'.le
  rw [length_drop] at hle'
  refine ⟨by omega, ?_⟩
  rw [take_add, forall_mem_append]
  exact ⟨h.ascii, h'.ascii⟩

theorem asciiPrefix_takeWhile {p : UInt8 → Bool} (hp : ∀ b, p b → b < 128) (bs : List UInt8) :
    AsciiPrefix bs (bs.takeWhile p).length := by
  have htaken : bs.takeWhile p <+: bs := takeWhile_prefix p
  refine ⟨htaken.length_le, ?_⟩
  rw [← prefix_iff_eq_take.mp htaken]
  exact fun b hb => hp b (all_eq_true.mp all_takeWhile b hb)

theorem digits_ascii (bs : List UInt8) : AsciiPrefix bs (digitsLength bs) := by
  refine asciiPrefix_takeWhile (fun b hb => ?_) bs
  unfold isDigit byte at hb
  grind

theorem fraction_ascii (bs : List UInt8) : AsciiPrefix bs (fractionLength bs) := by
  cases bs with
  | nil => exact .zero []
  | cons b rest =>
    by_cases hb : b = byte '.'
    · subst hb
      rw [fractionLength_point]
      split
      · exact .zero _
      · exact .cons (by decide) (digits_ascii rest)
    · rw [fractionLength_of_ne hb]
      exact .zero _

theorem sign_ascii (bs : List UInt8) : AsciiPrefix bs (signLength bs) := by
  unfold signLength
  split
  · next hsign =>
    cases bs with
    | nil => simp at hsign
    | cons b rest =>
      simp only [head?_cons, any_some, Bool.or_eq_true, beq_iff_eq] at hsign
      rcases hsign with rfl | rfl <;> exact .cons (by decide) (.zero rest)
  · exact .zero _

theorem exponent_ascii (bs : List UInt8) : AsciiPrefix bs (exponentLength bs) := by
  cases bs with
  | nil => exact .zero []
  | cons b rest =>
    cases hb : b == byte 'e' || b == byte 'E' with
    | false =>
      rw [exponentLength_of_ne hb]
      exact .zero _
    | true =>
      rw [exponentLength_of_eq hb, Nat.add_assoc]
      refine .cons ?_ ((sign_ascii rest).add (digits_ascii _))
      rw [Bool.or_eq_true, beq_iff_eq, beq_iff_eq] at hb
      rcases hb with rfl | rfl <;> decide

theorem unsuffixed_ascii (bs : List UInt8) : AsciiPrefix bs (unsuffixedLength bs).1 := by
  rw [unsuffixedLength_eq]
  split
  · next hhex =>
    match bs with
    | zero :: x :: rest =>
      simp only [isHex, Bool.and_eq_true, Bool.or_eq_true, beq_iff_eq] at hhex
      obtain ⟨rfl, hx⟩ := hhex
      rw [show 2 = 1 + 1 from rfl, Nat.add_assoc]
      refine .cons (by decide) (.cons (by rcases hx with rfl | rfl <;> decide)
        (asciiPrefix_takeWhile (fun b hb => ?_) rest))
      unfold isHexDigit isDigit byte at hb
      grind
  · exact ((digits_ascii bs).add (fraction_ascii _)).add (exponent_ascii _)

theorem number_ascii (bs : List UInt8) : AsciiPrefix bs (numberLength bs).1 := by
  refine (unsuffixed_ascii bs).add (asciiPrefix_takeWhile (fun b hb => ?_) _)
  unfold isNumberSuffix isFloatSuffix byte at hb
  grind

theorem le_numberLength (bs : List UInt8) : (unsuffixedLength bs).1 ≤ (numberLength bs).1 :=
  Nat.le_add_right _ _

theorem digitsLength_pos (hb : isDigit b) (rest : List UInt8) : 1 ≤ digitsLength (b :: rest) := by
  simp [digitsLength, hb]

theorem numberLength_pos_of_digit (hb : isDigit b) (rest : List UInt8) :
    1 ≤ (numberLength (b :: rest)).1 := by
  refine Nat.le_trans ?_ (le_numberLength _)
  have hdecimal : 1 ≤ (decimalLength (b :: rest)).1 := by
    have := digitsLength_pos hb rest
    simp only [decimalLength]
    omega
  rw [unsuffixedLength_eq]
  split
  · exact Nat.le_add_right_of_le (by decide)
  · exact hdecimal

theorem numberLength_pos_of_point {d : UInt8} (hd : isDigit d) (rest : List UInt8) :
    2 ≤ (numberLength (byte '.' :: d :: rest)).1 := by
  refine Nat.le_trans ?_ (le_numberLength _)
  have hends : endsWhole (d :: rest) = false := by
    unfold isDigit at hd
    simp only [endsWhole, head?_cons, any_some, isIdentStart, isLetter, byte]
    grind
  have hwhole : digitsLength (byte '.' :: d :: rest) = 0 := rfl
  have hfraction : fractionLength (byte '.' :: d :: rest) = 1 + digitsLength (d :: rest) := by
    simp [fractionLength_point, hends]
  have := digitsLength_pos hd rest
  have hdecimal : unsuffixedLength (byte '.' :: d :: rest) =
      decimalLength (byte '.' :: d :: rest) := rfl
  rw [hdecimal]
  simp only [decimalLength, hwhole, drop_zero, hfraction]
  omega

theorem startsNumber_take (hstart : startsNumber (b :: rest)) :
    1 ≤ (numberLength (b :: rest)).1 ∧
      startsNumber (b :: rest.take ((numberLength (b :: rest)).1 - 1)) := by
  rw [startsNumber, Bool.or_eq_true] at hstart
  rcases hstart with hb | hpoint
  · exact ⟨numberLength_pos_of_digit hb rest, by simp [startsNumber, hb]⟩
  cases rest with
  | nil => simp at hpoint
  | cons d rest =>
    simp only [Bool.and_eq_true, beq_iff_eq, head?_cons, any_some] at hpoint
    obtain ⟨rfl, hd⟩ := hpoint
    obtain ⟨n, hn⟩ := Nat.exists_eq_add_of_le (numberLength_pos_of_point hd rest)
    have htake : (d :: rest).take ((numberLength (byte '.' :: d :: rest)).1 - 1) =
        d :: rest.take n := by
      rw [hn, show 2 + n - 1 = n + 1 by omega, take_succ_cons]
    exact ⟨by omega, by simp [htake, startsNumber, hd]⟩

theorem splits_number (hstart : startsNumber (b :: rest)) : Splits b rest (number b rest) := by
  obtain ⟨hpos, hstart'⟩ := startsNumber_take hstart
  have hle := (number_ascii (b :: rest)).le
  rw [length_cons] at hle
  have hlength : (rest.take ((numberLength (b :: rest)).1 - 1)).length =
      (numberLength (b :: rest)).1 - 1 := by
    rw [length_take]
    omega
  refine ⟨_, _, (take_append_drop _ rest).symm, hlength.symm,
    .number (k := (numberLength (b :: rest)).2) hstart' ?_⟩
  rw [cons_append, take_append_drop, length_cons, hlength, Nat.sub_add_cancel hpos]

/-! ### Literals and words -/

theorem comment_closed (h : commentLength bs = some n) :
    ∃ body after, bs = body ++ [byte '*', byte '/'] ++ after ∧ n = body.length + 2 ∧
      ¬[byte '*', byte '/'] <:+: body ++ [byte '*'] := by
  induction bs generalizing n with
  | nil => simp [commentLength] at h
  | cons b rest ih =>
    rw [commentLength] at h
    split at h
    · next hend =>
      simp only [Bool.and_eq_true, beq_iff_eq] at hend
      obtain ⟨rfl, hnext⟩ := hend
      obtain ⟨after, rfl⟩ := head?_eq_some_iff.mp hnext
      obtain rfl := Option.some.inj h
      exact ⟨[], after, rfl, rfl, fun hinfix => by simpa using hinfix.length_le⟩
    · next hend =>
      obtain ⟨m, hm, rfl⟩ := map_eq_some_iff.mp h
      obtain ⟨body, after, rfl, rfl, hfirst⟩ := ih hm
      refine ⟨b :: body, after, rfl, rfl, fun hinfix => ?_⟩
      rcases infix_cons_iff.mp hinfix with htaken | hinfix
      · obtain ⟨rfl, hslash⟩ := cons_prefix_cons.mp htaken
        cases body with
        | nil => exact absurd (cons_prefix_cons.mp hslash).1 (by decide)
        | cons c body =>
          obtain ⟨rfl, -⟩ := cons_prefix_cons.mp hslash
          simp at hend
      · exact hfirst hinfix

theorem commentLength_le (h : commentLength bs = some n) : n ≤ bs.length := by
  obtain ⟨body, after, rfl, rfl, -⟩ := comment_closed h
  simp

theorem stringLength_quote (bs : List UInt8) : stringLength (byte '"' :: bs) = some 1 := by
  cases bs <;> simp [stringLength]

theorem stringLength_escape (c : UInt8) (bs : List UInt8) :
    stringLength (byte '\\' :: c :: bs) = (stringLength bs).map (· + 2) := by
  rfl

theorem stringLength_plain (hquote : b ≠ byte '"') (hescape : b ≠ byte '\\') (bs : List UInt8) :
    stringLength (b :: bs) = (stringLength bs).map (· + 1) := by
  cases bs <;> simp [stringLength, hquote, hescape]

theorem string_closed (h : stringLength bs = some n) :
    ∃ body after, bs = body ++ [byte '"'] ++ after ∧ n = body.length + 1 ∧
      ∀ z, stringLength (body ++ [byte '"'] ++ z) = some n := by
  fun_induction stringLength bs generalizing n with
  | case1 => simp at h
  | case2 b hb =>
    obtain rfl := beq_iff_eq.mp hb
    obtain rfl := Option.some.inj h
    exact ⟨[], [], rfl, rfl, stringLength_quote⟩
  | case3 => simp at h
  | case4 b c rest hb =>
    obtain rfl := beq_iff_eq.mp hb
    obtain rfl := Option.some.inj h
    exact ⟨[], c :: rest, rfl, rfl, stringLength_quote⟩
  | case5 b c rest _ hb ih =>
    obtain rfl := beq_iff_eq.mp hb
    obtain ⟨m, hm, rfl⟩ := map_eq_some_iff.mp h
    obtain ⟨body, after, rfl, rfl, hbody⟩ := ih hm
    refine ⟨byte '\\' :: c :: body, after, rfl, rfl, fun z => ?_⟩
    simp only [cons_append, stringLength_escape, hbody, map_some]
  | case6 b c rest hquote hescape ih =>
    obtain ⟨m, hm, rfl⟩ := map_eq_some_iff.mp h
    obtain ⟨body, after, hrest, rfl, hbody⟩ := ih hm
    refine ⟨b :: body, after, by rw [hrest]; rfl, rfl, fun z => ?_⟩
    rw [beq_iff_eq] at hquote hescape
    simp only [cons_append, stringLength_plain hquote hescape, hbody, map_some]

theorem stringLength_le (h : stringLength bs = some n) : n ≤ bs.length := by
  obtain ⟨body, after, rfl, rfl, -⟩ := string_closed h
  simp

theorem splits_all (hreads : Reads (b :: rest) [] l) : Splits b rest (l, rest.length) :=
  ⟨rest, [], (append_nil rest).symm, rfl, hreads⟩

theorem splits_word (hb : isIdentStart b) : Splits b rest (word b rest) := by
  refine ⟨_, _, (takeWhile_append_dropWhile (p := isIdentContinue)).symm, rfl,
    .word hb (all_eq_true.mp all_takeWhile) ?_⟩
  have hstop := head?_dropWhile_not isIdentContinue rest
  cases h : (rest.dropWhile isIdentContinue).head? with
  | none => rfl
  | some c =>
    rw [h] at hstop
    simpa using hstop

theorem splits_body (hbody : Reads (byte '\'' :: (x ++ [byte '\''])) y.tail
    (.quoted .charLiteral)) : Splits (byte '\'') (x ++ y)
      (if y.head? == some (byte '\'') then (.quoted .charLiteral, x.length + 1)
      else (.fault .unterminatedCharacter, x.length)) := by
  split
  · next hquote =>
    obtain ⟨z, rfl⟩ := head?_eq_some_iff.mp (beq_iff_eq.mp hquote)
    exact ⟨x ++ [byte '\''], z, by simp, by simp, hbody⟩
  · exact ⟨x, y, rfl, rfl, .openCharacter⟩

theorem splits_character (hb : b = byte '\'') : Splits b rest (character rest) := by
  subst hb
  unfold character
  split
  · next hescape =>
    obtain ⟨y, rfl⟩ := head?_eq_some_iff.mp (beq_iff_eq.mp hescape)
    cases y with
    | nil => exact ⟨[byte '\\'], [], rfl, rfl, .openCharacter⟩
    | cons c z =>
      have h := splits_body (x := [byte '\\', c]) (y := z) .escaped
      simpa using h
  · next hplain =>
    cases rest with
    | nil => exact ⟨[], [], rfl, rfl, .openCharacter⟩
    | cons c z =>
      have h := splits_body (x := [c]) (y := z) (.character (by simpa using hplain))
      simpa using h

/-- What the bytes behind a point make of it. -/
theorem splits_point (hb : b = byte '.') :
    Splits b rest
      (if rest.head?.any isDigit then number b rest
      else if rest.head? == some (byte '.') then
        if rest.tail.head? == some (byte '.') then (.token .dotDotDot, 2)
        else (.token .dotDot, 1)
      else (.token .dot, 0)) := by
  subst hb
  split
  · next hdigit => exact splits_number (by simp [startsNumber, hdigit])
  split
  · next hsecond =>
    obtain ⟨y, rfl⟩ := head?_eq_some_iff.mp (beq_iff_eq.mp hsecond)
    split
    · next hthird =>
      obtain ⟨z, rfl⟩ := head?_eq_some_iff.mp (beq_iff_eq.mp hthird)
      exact ⟨[byte '.', byte '.'], z, rfl, rfl, .symbol (s := ['.', '.', '.']) (by decide)⟩
    · exact ⟨[byte '.'], y, rfl, rfl, .symbol (s := ['.', '.']) (by decide)⟩
  · exact ⟨[], rest, rfl, rfl, .symbol (s := ['.']) (by decide)⟩

theorem splits_double (hb : Char.ofNat b.toNat = c) (hnext : rest.head? == some (byte c))
    (hs : ([c, c], k) ∈ symbols) : Splits b rest (.token k, 1) :=
  splits_symbol hs (by rw [eq_byte hb]; rfl) (prefix_of_head? (beq_iff_eq.mp hnext))

theorem splits_double_assign (hb : Char.ofNat b.toNat = c) (hnext : rest.head? == some (byte c))
    (hplain : ([c, c], k) ∈ symbols) (hassign : ([c, c, '='], assigning) ∈ symbols) :
    Splits b rest (withAssign k assigning 1 rest) :=
  splits_withAssign hplain hassign (by rw [eq_byte hb]; rfl) (prefix_of_head? (beq_iff_eq.mp hnext))

theorem splits_lineComment (y : List UInt8) :
    Splits (byte '/') (byte '/' :: y) (.skipped, ((byte '/' :: y).takeWhile (· != 10)).length) := by
  refine ⟨byte '/' :: y.takeWhile (· != 10), y.dropWhile (· != 10), ?_, rfl,
    .lineComment (fun h => ?_) ?_⟩
  · rw [cons_append, takeWhile_append_dropWhile]
  · simpa using all_eq_true.mp all_takeWhile 10 h
  have hstop := head?_dropWhile_not (· != 10) y
  cases h : y.dropWhile (· != 10) with
  | nil => exact .inl rfl
  | cons c z =>
    rw [h] at hstop
    exact .inr (by simpa using hstop)

theorem splits_comment (hn : commentLength y = some n) :
    Splits (byte '/') (byte '*' :: y) (.skipped, n + 1) := by
  have hle := commentLength_le hn
  refine ⟨byte '*' :: y.take n, y.drop n, ?_, ?_, .comment ?_⟩
  · rw [cons_append, take_append_drop]
  · rw [length_cons, length_take_of_le hle]
  · rw [take_append_drop, length_take_of_le hle, hn]

theorem splits_lexeme (b : UInt8) (rest : List UInt8) : Splits b rest (lexeme b rest) := by
  unfold lexeme
  dsimp only
  split
  · next hblank => exact ⟨[], rest, rfl, rfl, .blank hblank⟩
  split
  · next hline =>
    simp only [Bool.and_eq_true, beq_iff_eq] at hline
    obtain ⟨rfl, hnext⟩ := hline
    obtain ⟨y, rfl⟩ := head?_eq_some_iff.mp hnext
    exact splits_lineComment y
  split
  · next hcomment =>
    simp only [Bool.and_eq_true, beq_iff_eq] at hcomment
    obtain ⟨rfl, hnext⟩ := hcomment
    obtain ⟨y, rfl⟩ := head?_eq_some_iff.mp hnext
    split
    · next n hn => exact splits_comment hn
    · exact splits_all .openComment
  split
  case h_1 hb | h_2 hb | h_3 hb | h_4 hb | h_5 hb | h_6 hb | h_7 hb | h_8 hb | h_9 hb | h_10 hb
    | h_11 hb | h_12 hb | h_13 hb => exact splits_single hb (by decide)
  case h_14 hb => exact splits_point (eq_byte hb)
  case h_15 hb | h_16 hb | h_17 hb | h_18 hb | h_19 hb | h_20 hb | h_21 hb =>
    exact splits_assign hb (by decide) (by decide)
  case h_22 hb | h_23 hb =>
    split
    · next hnext => exact splits_double hb hnext (by decide)
    · exact splits_assign hb (by decide) (by decide)
  case h_24 hb | h_25 hb | h_26 hb =>
    split
    · next hnext => exact splits_double_assign hb hnext (by decide) (by decide)
    · exact splits_assign hb (by decide) (by decide)
  case h_27 hb =>
    rw [eq_byte hb]
    split
    · next n hn =>
      have hlength := length_take_of_le (stringLength_le hn)
      refine ⟨_, _, (take_append_drop n _).symm, hlength.symm, .string ?_⟩
      rw [take_append_drop, hlength, hn]
    · exact splits_all .openString
  case h_28 hb => exact splits_character (eq_byte hb)
  case h_29 =>
    split
    · next hdigit => exact splits_number (by simp [startsNumber, hdigit])
    split
    · next hstart => exact splits_word hstart
    · exact ⟨[], rest, rfl, rfl, .unexpected⟩

/-! ## Rows of lexemes -/

/-- The lexeme that is found has these bytes, in front of others. -/
def Takes (x y : List UInt8) (l : Lexeme) : Prop :=
  match x with
  | [] => False
  | b :: x => lexeme b (x ++ y) = (l, x.length)

instance (x y : List UInt8) (l : Lexeme) : Decidable (Takes x y l) :=
  match x with
  | [] => inferInstanceAs (Decidable False)
  | b :: x => inferInstanceAs (Decidable (lexeme b (x ++ y) = (l, x.length)))

theorem Takes.ne_nil (h : Takes x y l) : x ≠ [] := by
  rintro rfl
  exact h

theorem Takes.reads (h : Takes x y l) : Reads x y l := by
  cases x with
  | nil => exact h.elim
  | cons b x =>
    have hfound : lexeme b (x ++ y) = (l, x.length) := h
    obtain ⟨x', y', hrest, hlength, hreads⟩ := splits_lexeme b (x ++ y)
    rw [hfound] at hlength hreads
    obtain ⟨rfl, rfl⟩ := append_inj hrest hlength
    exact hreads

theorem ofWord_mem (w : String) : TokenKind.ofWord w ∈ .ident :: TokenKind.keywords.map (·.2) := by
  unfold TokenKind.ofWord
  cases h : TokenKind.keywords.lookup w with
  | none => exact mem_cons_self
  | some k =>
    obtain ⟨before, after, hkeywords, -⟩ := lookup_eq_some_iff.mp h
    exact mem_cons_of_mem _ (by simp [hkeywords])

theorem Takes.token_ne_eof (h : Takes x y (.token k)) : k ≠ .eof := by
  cases h.reads with
  | symbol hs =>
    have hall : ∀ p ∈ symbols, p.2 ≠ .eof := by decide
    exact hall _ hs
  | number hstart hlength =>
    have hkind := congrArg Prod.snd hlength
    simp only [numberLength] at hkind
    rw [← hkind]
    split <;> simp
  | word =>
    have hall : ∀ k ∈ .ident :: TokenKind.keywords.map (·.2), k ≠ .eof := by decide
    exact hall _ (ofWord_mem _)

/-- A literal stands between two quotes, which are not part of its text. -/
theorem Takes.quoted (h : Takes x y (.quoted k)) :
    ∃ q body, q ∈ [byte '"', byte '\''] ∧ x = q :: (body ++ [q]) ∧ k ≠ .eof := by
  cases h.reads with
  | @string z _ hlength =>
    obtain ⟨body, after, hz, hn, -⟩ := string_closed hlength
    obtain ⟨rfl, -⟩ := List.append_inj hz (by simp [hn])
    exact ⟨byte '"', body, by simp, rfl, by simp⟩
  | @character b => exact ⟨byte '\'', [b], by simp, rfl, by simp⟩
  | @escaped b => exact ⟨byte '\'', [byte '\\', b], by simp, rfl, by simp⟩

theorem exists_takes (b : UInt8) (rest : List UInt8) :
    ∃ x y l, b :: rest = x ++ y ∧ Takes x y l := by
  obtain ⟨x, y, rfl, hlength, -⟩ := splits_lexeme b rest
  exact ⟨b :: x, y, (lexeme b (x ++ y)).1, rfl, Prod.ext rfl hlength⟩

/-- What holds of the empty text, and of a text if it holds behind its first lexeme, holds of
all. -/
@[elab_as_elim]
theorem lexeme_induction {P : List UInt8 → Prop} (bs : List UInt8) (nil : P [])
    (step : ∀ x y l, Takes x y l → P y → P (x ++ y)) : P bs := by
  induction h : bs.length using Nat.strongRecOn generalizing bs with
  | ind n ih =>
    subst h
    cases bs with
    | nil => exact nil
    | cons b rest =>
      obtain ⟨x, y, l, hbs, htakes⟩ := exists_takes b rest
      have hx := length_pos_iff.mpr htakes.ne_nil
      rw [hbs] at ih ⊢
      exact step x y l htakes (ih y.length (by simp; omega) y rfl)

def Lexeme.addTo (l : Lexeme) (span : Span) (others : Lexed) : Lexed :=
  match l with
  | .skipped => others
  | .token kind => { others with tokens := ⟨kind, span, span⟩ :: others.tokens }
  | .quoted kind =>
    { others with tokens := ⟨kind, span, ⟨span.start + 1, span.stop - 1⟩⟩ :: others.tokens }
  | .fault cause => { others with faults := (cause, span) :: others.faults }

theorem lexFrom_append (h : Takes x y l) (offset : Nat) :
    lexFrom offset (x ++ y) =
      l.addTo ⟨offset, offset + x.length⟩ (lexFrom (offset + x.length) y) := by
  cases x with
  | nil => exact h.elim
  | cons b x =>
    have hfound : lexeme b (x ++ y) = (l, x.length) := h
    have hstop : offset + 1 + x.length = offset + (b :: x).length := by
      rw [length_cons]
      omega
    rw [cons_append, lexFrom]
    simp only [hfound, drop_left, hstop]
    cases l <;> rfl

end DCompiler.Token
