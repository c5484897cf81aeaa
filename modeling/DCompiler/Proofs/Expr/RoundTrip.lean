import DCompiler.Proofs.Grammar.Phrases

/-!
# Printed expressions are read back

The text of a tree is scanned to the words of the tree, in front of whatever can stand behind an
expression (`spells_text`). Texts are put together from those of the parts, so the same is shown for
each way to do that, from the right: a word is found in front of what was found before. The grammar
reads these words as the tree (`Phrase.of_readable`).
-/

namespace DCompiler

open Token Text List ExprTable Grammar

variable {x y : List UInt8} {k : TokenKind} {rest : List Char} {ps qs : List Chunk} {c : Char}
  {p : UInt8 → Bool} {below : ExprId → String}

/-! ## Behind an expression -/

/-- The marks that can stand behind an expression. -/
def marks : List Char := [' ', '(', ')', '[', ']', ',']

/-- What can stand behind an expression: the end, a mark, or a point in front of a name. -/
inductive Follows : List Char → Prop
  | nil : Follows []
  | mark {c : Char} {rest : List Char} : c ∈ marks → Follows (c :: rest)
  | point {rest : List Char} : (encode rest).head?.any isIdentStart → Follows ('.' :: rest)

theorem encode_mark (hc : c ∈ marks) (rest : List Char) :
    encode (c :: rest) = byte c :: encode rest := by
  have hascii : marks.all (·.toNat < 128) := by decide
  rw [encode_cons, encodeChar_ascii (of_decide_eq_true (all_eq_true.mp hascii c hc))]
  rfl

/-- None of the bytes that can follow goes on with a word or a number. -/
theorem Follows.head?_any (h : Follows rest) (hp : ('.' :: marks).all fun c => !p (byte c)) :
    (encode rest).head?.any p = false := by
  rw [all_cons, Bool.and_eq_true, Bool.not_eq_true', all_eq_true] at hp
  cases h with
  | nil => rfl
  | mark hc =>
    rw [encode_mark hc]
    exact Bool.not_eq_true' _ ▸ hp.2 _ hc
  | point => exact hp.1

theorem takeWhile_of_head?_any (h : y.head?.any p = false) : y.takeWhile p = [] := by
  cases y with
  | nil => rfl
  | cons b y => exact takeWhile_cons_of_neg (by simpa using h)

theorem Follows.takeWhile (h : Follows rest) (hp : ('.' :: marks).all fun c => !p (byte c)) :
    (encode rest).takeWhile p = [] :=
  takeWhile_of_head?_any (h.head?_any hp)

/-! ## Words -/

/-- A token that starts as a name is found in front of all that does not go on with it. -/
theorem Token.Takes.word (h : Takes x [] (.token k)) (hx : x.head?.any isIdentStart)
    (hy : y.head?.any isIdentContinue = false) : Takes x y (.token k) := by
  cases h.reads with
  | @symbol s _ _ hs =>
    have hall : ∀ p ∈ symbols, (p.1.map byte).head?.any isIdentStart = false := by decide
    rw [hall _ hs] at hx
    exact nomatch hx
  | number hstart =>
    cases x with
    | nil => exact nomatch hx
    | cons b x =>
      simp only [startsNumber, isDigit, head?_cons, Option.any_some, isIdentStart, isLetter,
        byte] at hstart hx
      grind
  | word hb htail => exact takes_word hb htail (by cases y <;> simp_all)

theorem Token.Takes.ident_start (h : Takes x y (.token .ident)) : x.head?.any isIdentStart := by
  generalize hk : TokenKind.ident = k at h
  cases h.reads with
  | symbol hs =>
    have hall : ∀ p ∈ symbols, .ident ≠ p.2 := by decide
    exact absurd hk (hall _ hs)
  | number _ hlength =>
    have hkind := hk.trans (congrArg Prod.snd hlength).symm
    simp only [Token.numberLength] at hkind
    split at hkind <;> cases hkind
  | word hb => exact hb

theorem isHex_digits (hx : ∀ b ∈ x, isDigit b) (hne : x ≠ []) (hrest : Follows rest) :
    isHex (x ++ encode rest) = false := by
  have hmark := hrest.head?_any (p := fun b => b == byte 'x' || b == byte 'X') (by decide)
  obtain ⟨b, x, rfl⟩ := exists_cons_of_ne_nil hne
  cases x with
  | nil =>
    cases hy : encode rest with
    | nil => rfl
    | cons c y =>
      rw [hy] at hmark
      simpa [isHex] using fun _ => by simpa using hmark
  | cons c x =>
    have hc := hx c (by simp)
    have hcx : (c == byte 'x' || c == byte 'X') = false := by
      unfold isDigit at hc
      unfold byte
      grind
    simp [isHex, hcx]

theorem Follows.fractionLength (h : Follows rest) : fractionLength (encode rest) = 0 := by
  cases h with
  | nil => rfl
  | mark hc =>
    have hne : marks.all (byte · != byte '.') := by decide
    rw [encode_mark hc]
    exact fractionLength_of_ne (bne_iff_ne.mp (all_eq_true.mp hne _ hc)) _
  | @point rest hname =>
    have hends : endsWhole (encode rest) := by
      unfold endsWhole
      cases hy : encode rest with
      | nil => simp [hy] at hname
      | cons b y => simp_all
    exact (fractionLength_point _).trans (if_pos hends)

theorem takes_digits (hx : ∀ b ∈ x, isDigit b) (hne : x ≠ []) (hrest : Follows rest) :
    Takes x (encode rest) (.token .intLiteral) := by
  have hdigits : digitsLength (x ++ encode rest) = x.length := by
    rw [digitsLength, takeWhile_append_of_pos (by simp +contextual [hx]),
      hrest.takeWhile (by decide), append_nil]
  have hexponent : exponentLength (encode rest) = 0 := by
    have hmark := hrest.head?_any (p := fun b => b == byte 'e' || b == byte 'E') (by decide)
    cases hy : encode rest with
    | nil => rfl
    | cons b y =>
      rw [hy] at hmark
      exact exponentLength_of_ne (by simpa using hmark) y
  have hlength : unsuffixedLength (x ++ encode rest) = (x.length, false) := by
    rw [unsuffixedLength_eq, isHex_digits hx hne hrest, if_neg Bool.false_ne_true]
    simp [decimalLength, hdigits, hrest.fractionLength, hexponent]
  refine takes_number ?_ ?_
  · obtain ⟨b, x, rfl⟩ := exists_cons_of_ne_nil hne
    simp [startsNumber, hx b]
  · simp [numberLength, hlength, hrest.takeWhile (p := isNumberSuffix) (by decide)]

/-! ## Texts of one word -/

variable {s : String}

theorem Token.Scans.word (htakes : Takes (bytes s) (encode rest) (.token k)) (h : Scans rest ps) :
    Scans (s.toList ++ rest) (.word k s :: ps) := by
  have hscans := Scans.token htakes h
  rwa [String.ofList_toList] at hscans

theorem Token.Scans.space (h : Scans rest ps) : Scans (' ' :: rest) ps := by
  rw [← singleton_append]
  exact .skipped rfl h

theorem Token.Scans.operator (hs : (s.toList, k) ∈ symbols) (h : Scans rest ps) :
    Scans (' ' :: (s.toList ++ ' ' :: rest)) (.word k s :: ps) := by
  have hascii : ∀ p ∈ symbols, encode p.1 = p.1.map byte := by decide
  refine (Scans.word ?_ h.space).space
  show Takes (encode s.toList) _ _
  rw [hascii _ hs]
  exact takes_symbol hs (apart_space _)

/-- A text that is scanned to these words in front of what can stand behind an expression, and that
does not turn a symbol in front of it into another one. -/
structure Spells (s : String) (ps : List Chunk) : Prop where
  begins : (bytes s).head?.any (· != byte '=')
  scans : ∀ {rest : List Char} {qs : List Chunk}, Follows rest → Scans rest qs →
    Scans (s.toList ++ rest) (ps ++ qs)

theorem head?_any_append (h : x.head?.any p) (y : List UInt8) : (x ++ y).head?.any p := by
  cases x with
  | nil => exact nomatch h
  | cons b x => exact h

theorem begins_append {t : String} (h : (bytes s).head?.any (· != byte '=')) :
    (bytes (s ++ t)).head?.any (· != byte '=') := by
  rw [bytes, String.toList_append, flatMap_append]
  exact head?_any_append h _

theorem begins_of_head (hp : p (byte '=') = false) (h : (bytes s).head?.any p) :
    (bytes s).head?.any (· != byte '=') := by
  cases hs : bytes s with
  | nil => simp [hs] at h
  | cons b bs =>
    rw [hs, head?_cons, Option.any_some] at h
    have hne : b ≠ byte '=' := by
      rintro rfl
      simp [hp] at h
    simpa using hne

theorem spells_word (h : Takes (bytes s) [] (.token k))
    (hstart : (bytes s).head?.any isIdentStart) : Spells s [.word k s] where
  begins := begins_of_head (by decide) hstart
  scans hrest hscans := hscans.word (h.word hstart (hrest.head?_any (by decide)))

theorem digit_byte (hc : c.isDigit) : c.toNat < 128 ∧ isDigit (byte c) := by
  simp only [Char.isDigit, Bool.and_eq_true, decide_eq_true_eq, ge_iff_le,
    UInt32.le_iff_toNat_le] at hc
  have hlow : 48 ≤ c.toNat := hc.1
  have hhigh : c.toNat ≤ 57 := hc.2
  have hbyte : (byte c).toNat = c.toNat := by
    rw [byte, Nat.toUInt8_eq, UInt8.toNat_ofNat']
    omega
  simp only [isDigit, Bool.and_eq_true, decide_eq_true_eq, UInt8.le_iff_toNat_le, hbyte]
  exact ⟨by omega, hlow, hhigh⟩

theorem spells_integer (n : Nat) : Spells (toString n) [.word .intLiteral (toString n)] := by
  have hdigits : ∀ c ∈ Nat.toDigits 10 n, c.toNat < 128 ∧ isDigit (byte c) := fun c hc =>
    digit_byte (Nat.isDigit_of_mem_toDigits (by decide) (by decide) hc)
  have hbytes : bytes (toString n) = (Nat.toDigits 10 n).map byte := by
    rw [Nat.toString_eq_ofList_toDigits, bytes_ofList, encode_ascii fun c hc => (hdigits c hc).1]
  have hall : ∀ b ∈ bytes (toString n), isDigit b := by
    rw [hbytes]
    exact forall_mem_map.mpr fun c hc => (hdigits c hc).2
  have hne : bytes (toString n) ≠ [] := by
    rw [hbytes, ne_eq, map_eq_nil_iff]
    exact Nat.toDigits_ne_nil
  refine ⟨begins_of_head (p := isDigit) (by decide) ?_, fun hrest hscans => ?_⟩
  · obtain ⟨b, bs, hbs⟩ := exists_cons_of_ne_nil hne
    rw [hbs]
    exact hall b (hbs ▸ mem_cons_self)
  · exact hscans.word (takes_digits hall hne hrest)

theorem byte_ne {d : Char} (hc : c.toNat < 128) (hd : d.toNat < 128) (h : c ≠ d) :
    byte c ≠ byte d := by
  intro heq
  have hnat := congrArg UInt8.toNat heq
  simp only [byte, Nat.toUInt8_eq, UInt8.toNat_ofNat'] at hnat
  exact h (Char.toNat_inj.mp (by omega))

theorem stringLength_escaped {cs : List Char} (hcs : ∀ c ∈ cs, IsPlain c) (y : List UInt8) :
    stringLength (encode (escaped cs) ++ byte '"' :: y) =
      some ((encode (escaped cs)).length + 1) := by
  induction cs with
  | nil => exact stringLength_quote y
  | cons c cs ih =>
    obtain ⟨hc, hcs⟩ := List.forall_mem_cons.mp hcs
    rw [escaped, List.flatMap_cons, ← escaped]
    rcases escapeChar_cases hc with ⟨hself, hquote, hbackslash, hascii⟩ | ⟨d, hescape, -, hd⟩
    · rw [hself, List.singleton_append, encode_cons, encodeChar_ascii hascii, List.singleton_append,
        List.cons_append, stringLength_plain (byte_ne hascii (by decide) hquote)
        (byte_ne hascii (by decide) hbackslash), ih hcs]
      rfl
    · rw [hescape, List.cons_append, List.singleton_append, encode_cons, encode_cons,
        encodeChar_ascii hd, encodeChar_ascii (by decide), List.singleton_append,
        List.singleton_append,
        List.cons_append, List.cons_append, stringLength_escape, ih hcs]
      rfl

theorem spells_string (hs : ∀ c ∈ s.toList, IsPlain c) :
    Spells ("\"" ++ escape s ++ "\"")
      [⟨.stringLiteral, "\"" ++ escape s ++ "\"", escape s⟩] where
  begins := begins_append (begins_append (by decide))
  scans {rest qs} hrest hscans := by
    have htakes : Takes (encode (['"'] ++ escaped s.toList ++ ['"'])) (encode rest)
        (.quoted .stringLiteral) := by
      have hlength := stringLength_escaped hs (encode rest)
      have hquote : encode ['"'] = [byte '"'] := rfl
      rw [encode_append, encode_append, hquote, singleton_append, cons_append]
      refine takes_string ?_
      rw [append_assoc, singleton_append, hlength, length_append]
      rfl
    have hchars : ("\"" ++ escape s ++ "\"").toList = ['"'] ++ escaped s.toList ++ ['"'] := by
      rw [String.toList_append, String.toList_append, toList_escape]
      rfl
    have hquoted := @Scans.quoted _ ['"'] _ ['"'] _ _ rfl rfl htakes hscans
    rwa [← hchars, ← toList_escape, String.ofList_toList, String.ofList_toList] at hquoted

theorem spells_leaf {x : Leaf} (hx : x.Readable) : Spells x.chunk.spelling [x.chunk] := by
  cases x with
  | integer value => exact spells_integer _
  | bool value => cases value with
    | true => exact spells_word (by decide) rfl
    | false => exact spells_word (by decide) rfl
  | string text => exact spells_string hx
  | null | thisRef | superRef => exact spells_word (by decide) rfl
  | dollar => exact ⟨rfl, fun _ hscans => hscans.word rfl⟩
  | name text => exact spells_word hx.1 hx.1.ident_start

theorem textWith_leaf {x : Leaf} (hx : x.Readable) (t : ExprTable) (names : Names)
    (below : ExprId → String) : t.textWith names below x.expr = x.chunk.spelling := by
  cases x with
  | integer value => exact if_pos hx
  | bool value => cases value <;> rfl
  | _ => rfl

/-! ## Texts of several words -/

theorem AssignOp.IsWord.mem_symbols {op : AssignOp} (h : op.IsWord) :
    (op.symbol.toList, op.kind) ∈ symbols := by
  obtain ⟨k, hk⟩ := h
  unfold assignOp? at hk
  split at hk <;> cases hk <;> decide

theorem Spells.enclosed (h : Spells s ps) (e : Tree) (outer : Nat) :
    Spells (if e.strength < outer then "(" ++ s ++ ")" else s) (e.enclosed outer ps) := by
  unfold Tree.enclosed
  split
  · refine ⟨begins_append (begins_append (by decide)), fun hrest hscans => ?_⟩
    simp only [String.toList_append, append_assoc, cons_append]
    exact .word rfl (h.scans (.mark (by decide)) (hscans.word rfl))
  · exact h

theorem withAssign_plain {assigning : TokenKind} (hy : y.head?.any (· != byte '=')) :
    withAssign k assigning 0 y = (.token k, 0) := by
  cases y with
  | nil => rfl
  | cons b y => simp_all [withAssign]

theorem Spells.prefixed {op : UnaryOp} (hop : op ≠ .addressOf) (h : Spells s ps) :
    Spells (op.symbol ++ s) (.word op.kind op.symbol :: ps) where
  begins := begins_append (by cases op <;> decide)
  scans {rest qs} hrest hscans := by
    have hnext : (encode (s.toList ++ rest)).head?.any (· != byte '=') := by
      rw [encode_append]
      exact head?_any_append h.begins _
    rw [String.toList_append, append_assoc]
    refine .word ?_ (h.scans hrest hscans)
    cases op with
    | complement => rfl
    | neg | not | deref => exact withAssign_plain hnext
    | addressOf => exact absurd rfl hop

theorem Spells.operator {l r : String} {ls rs : List Chunk} (hl : Spells l ls)
    (hs : (s.toList, k) ∈ symbols) (hr : Spells r rs) :
    Spells (l ++ " " ++ s ++ " " ++ r) (ls ++ .word k s :: rs) where
  begins := begins_append (begins_append (begins_append (begins_append hl.begins)))
  scans hrest hscans := by
    simp only [String.toList_append, append_assoc, cons_append]
    exact hl.scans (.mark (by decide)) (.operator hs (hr.scans hrest hscans))

/-- A point in front of a name is not part of a number or of other points. -/
theorem takes_point (hy : y.head?.any isIdentStart) : Takes (bytes ".") y (.token .dot) := by
  cases y with
  | nil => exact nomatch hy
  | cons b y =>
    have hdigit : isDigit b = false := by
      unfold isIdentStart isLetter byte at hy
      unfold isDigit
      grind
    have hpoint : b ≠ byte '.' := by
      rintro rfl
      exact nomatch hy
    have hlexeme : lexeme (byte '.') (b :: y) =
        if isDigit b then number (byte '.') (b :: y)
        else if some b == some (byte '.') then
          if y.head? == some (byte '.') then (.token .dotDotDot, 2) else (.token .dotDot, 1)
        else (.token .dot, 0) := rfl
    show lexeme (byte '.') (b :: y) = _
    simp [hlexeme, hdigit, hpoint]

theorem scans_listed {ids : List ExprId} {es : List Tree} (hlength : ids.length = es.length)
    (hzip : ∀ p ∈ ids.zip es, Spells (below p.1) p.2.chunks) (hrest : Follows rest)
    (h : Scans rest qs) : Scans ((String.intercalate ", " (ids.map below)).toList ++ rest)
      (Tree.listed (es.map Tree.chunks) ++ qs) := by
  induction ids generalizing es with
  | nil =>
    obtain rfl := eq_nil_of_length_eq_zero hlength.symm
    exact h
  | cons c ids ih =>
    obtain ⟨e, es, rfl⟩ := exists_cons_of_length_eq_add_one hlength.symm
    have hlength := Nat.succ.inj hlength
    rw [zip_cons_cons, forall_mem_cons] at hzip
    have ih := ih hlength hzip.2
    cases ids with
    | nil =>
      obtain rfl := eq_nil_of_length_eq_zero hlength.symm
      simpa [Tree.listed] using hzip.1.scans hrest h
    | cons d ids =>
      obtain ⟨f, es, rfl⟩ := exists_cons_of_length_eq_add_one hlength.symm
      simp only [map_cons, String.intercalate_cons_cons, Tree.listed, intercalate_cons_cons,
        String.toList_append, append_assoc, cons_append, nil_append] at ih ⊢
      exact hzip.1.scans (.mark (by decide)) (.word (s := ",") rfl ih.space)

variable {t : ExprTable} {names : Names} {id : ExprId} {e : Tree}

/-- The text of an entry, if the texts of its parts are as they should be. -/
theorem spells_textWith (h : Denotes t id e) (he : e.Readable)
    (hbelow : ∀ c ∈ t.children id, ∀ f, Denotes t c f → f.Readable → Spells (below c) f.chunks) :
    Spells (t.textWith names below (t.kind id)) e.chunks := by
  -- A part stands as it is, in brackets if it is too loose for its place, or in a list.
  have hpart {k : Expr} (hkind : t.kind id = k) {c : ExprId} {f : Tree} (hf : Denotes t c f)
      (hr : f.Readable) (hc : c ∈ k.children := by simp [Expr.children]) :
      Spells (below c) f.chunks :=
    hbelow c (by rwa [children, hkind]) f hf hr
  have hoperand {k : Expr} (hkind : t.kind id = k) {c : ExprId} {f : Tree} (hf : Denotes t c f)
      (hr : f.Readable) (outer : Nat) (hc : c ∈ k.children := by simp [Expr.children]) :
      Spells (if (t.kind c).strength < outer then "(" ++ below c ++ ")" else below c)
        (f.enclosed outer f.chunks) := by
    rw [hf.strength]
    exact (hpart hkind hf hr hc).enclosed f outer
  have hlist {k : Expr} (hkind : t.kind id = k) {ids : List ExprId}
      (hids : ∀ c ∈ ids, c ∈ k.children) {es : List Tree}
      (hzip : ∀ p ∈ ids.zip es, Denotes t p.1 p.2) (hes : ∀ e ∈ es, e.Readable) :
      ∀ p ∈ ids.zip es, Spells (below p.1) p.2.chunks := fun p hp =>
    hpart hkind (hzip p hp) (hes _ (of_mem_zip hp).2) (hids _ (of_mem_zip hp).1)
  cases h with
  | leaf hkind =>
    cases he with
    | leaf hx =>
      rw [hkind, textWith_leaf hx, Tree.chunks]
      exact spells_leaf hx
  | array hkind hlength hzip =>
    cases he with
    | array he =>
      have hzip := hlist hkind (by simp [Expr.children]) hzip he
      rw [hkind, Tree.chunks]
      dsimp only [textWith]
      refine ⟨begins_append (begins_append (by decide)), fun hrest hscans => ?_⟩
      simp only [String.toList_append, append_assoc, cons_append]
      exact .word rfl (scans_listed hlength hzip (.mark (by decide)) (hscans.word rfl))
  | unary hkind h =>
    cases he with
    | unary hop he =>
      have h := hoperand hkind h he Expr.atomic
      rw [hkind, Tree.chunks]
      exact h.prefixed hop
  | @binary _ _ _ op _ _ hkind hl hr =>
    cases he with
    | binary hop hel her =>
      have hl := hoperand hkind hl hel op.precedence
      have hr := hoperand hkind hr her (op.precedence + 1)
      rw [hkind, Tree.chunks]
      exact hl.operator (by cases op <;> decide) hr
  | assign hkind hl hr =>
    cases he with
    | assign hop _ hel her =>
      have hl := hpart hkind hl hel
      have hr := hpart hkind hr her
      rw [hkind, Tree.chunks]
      exact hl.operator hop.mem_symbols hr
  | comma hkind hl hr =>
    cases he with
    | comma hel her =>
      have hl := hpart hkind hl hel
      have hr := hpart hkind hr her
      rw [hkind, Tree.chunks]
      dsimp only [textWith]
      refine ⟨begins_append (begins_append (begins_append (begins_append (by decide)))),
        fun hrest hscans => ?_⟩
      simp only [String.toList_append, append_assoc, cons_append]
      exact .word rfl (hl.scans (.mark (by decide)) (.word (s := ",") rfl
        (.space (hr.scans (.mark (by decide)) (hscans.word rfl)))))
  | cond hkind hc hy hn =>
    cases he with
    | cond _ hec hey hen =>
      have hc := hoperand hkind hc hec 1
      have hy := hpart hkind hy hey
      have hn := hpart hkind hn hen
      rw [hkind, Tree.chunks]
      dsimp only [textWith]
      refine ⟨begins_append (begins_append (begins_append (begins_append hc.begins))),
        fun hrest hscans => ?_⟩
      simp only [String.toList_append, append_assoc, cons_append]
      exact hc.scans (.mark (by decide)) (.operator (s := "?") (by decide)
        (hy.scans (.mark (by decide)) (.operator (s := ":") (by decide) (hn.scans hrest hscans))))
  | @dot _ _ name _ hkind hb =>
    cases he with
    | dot _ hname heb =>
      have hb := hoperand hkind hb heb Expr.atomic
      rw [hkind, Tree.chunks]
      dsimp only [textWith]
      refine ⟨begins_append (begins_append hb.begins), fun {rest qs} hrest hscans => ?_⟩
      -- The point does not belong to a number in front of it, as a name follows.
      have hstart := hname.ident_start
      have hnext : (encode (name.toList ++ rest)).head?.any isIdentStart := by
        rw [encode_append]
        exact head?_any_append hstart _
      have hscans := hscans.word (hname.word hstart (hrest.head?_any (by decide)))
      simp only [String.toList_append, append_assoc, cons_append]
      exact hb.scans (.point hnext) (.word (s := ".") (takes_point hnext) hscans)
  | call hkind hf hlength hzip =>
    cases he with
    | call _ hef he =>
      have hf := hoperand hkind hf hef Expr.atomic
      have hzip := hlist hkind (by simp +contextual [Expr.children]) hzip he
      rw [hkind, Tree.chunks]
      dsimp only [textWith]
      refine ⟨begins_append (begins_append (begins_append hf.begins)), fun hrest hscans => ?_⟩
      simp only [String.toList_append, append_assoc, cons_append]
      exact hf.scans (.mark (by decide)) (.word (s := "(") rfl
        (scans_listed hlength hzip (.mark (by decide)) (hscans.word rfl)))
  | index hkind hb hi =>
    cases he with
    | index _ heb hei =>
      have hb := hoperand hkind hb heb Expr.atomic
      have hi := hpart hkind hi hei
      rw [hkind, Tree.chunks]
      dsimp only [textWith]
      refine ⟨begins_append (begins_append (begins_append hb.begins)), fun hrest hscans => ?_⟩
      simp only [String.toList_append, append_assoc, cons_append]
      exact hb.scans (.mark (by decide)) (.word (s := "[") rfl
        (hi.scans (.mark (by decide)) (hscans.word rfl)))
  | slice hkind hb =>
    cases he with
    | slice _ heb =>
      have hb := hoperand hkind hb heb Expr.atomic
      rw [hkind, Tree.chunks]
      dsimp only [textWith]
      refine ⟨begins_append hb.begins, fun hrest hscans => ?_⟩
      simp only [String.toList_append, append_assoc, cons_append]
      exact hb.scans (.mark (by decide)) (.word (s := "[") rfl (.word (s := "]") rfl hscans))
  | range hkind hb hl hu =>
    cases he with
    | range _ heb hel heu =>
      have hb := hoperand hkind hb heb Expr.atomic
      have hl := hpart hkind hl hel
      have hu := hpart hkind hu heu
      rw [hkind, Tree.chunks]
      dsimp only [textWith]
      refine ⟨begins_append (begins_append (begins_append (begins_append (begins_append
        hb.begins)))), fun hrest hscans => ?_⟩
      simp only [String.toList_append, append_assoc, cons_append]
      exact hb.scans (.mark (by decide)) (.word (s := "[") rfl (hl.scans (.mark (by decide))
        (.operator (s := "..") (by decide) (hu.scans (.mark (by decide)) (hscans.word rfl)))))

theorem spells_text (h : Denotes t id e) (he : e.Readable) : Spells (t.text names id) e.chunks := by
  have hwithin {n : Nat} (hn : t.Within n id) : Spells (t.textWithin names n id) e.chunks := by
    induction n generalizing id e with
    | zero => exact hn.elim
    | succ n ih => exact spells_textWith h he fun c hc f hf hr => ih hf hr (hn c hc)
  obtain ⟨n, hn⟩ := h.exists_within
  exact hwithin (within_size hn)

/-! ## Reading back -/

theorem readExpr_of_scans {source : String} {e : Tree} (hscans : Scans source.toList e.chunks)
    (he : e.Readable) (u : SyntaxTables) :
    ∃ id u', u.readExpr source = .ok (id, u') ∧ Denotes u'.exprs id e := by
  obtain ⟨hfaults, htokens⟩ := hscans.lex
  have hwords := words_chunks source
  rw [htokens] at hwords
  generalize hall : words source (lex source).tokens = ws at hwords
  have hlength : (e.chunks ++ [Chunk.eof]).length = ws.length := by rw [← hwords, length_map]
  obtain ⟨id, s', hrun, htree⟩ : Runs (wholeExpr (rules (ws.length + 1)))
      ⟨ws, .synthetic, u.exprs, u.stmts, u.types⟩ fun id s' => Denotes s'.exprs id e := by
    refine .bind ((Phrase.of_readable he).expr.runs hwords (by omega) rfl) fun id s1 h1 => ?_
    exact .expect_last h1.chunks rfl fun _ => .pure h1.tree
  refine ⟨id, ⟨s'.exprs, s'.stmts, s'.types⟩, ?_, htree⟩
  simp only [SyntaxTables.readExpr, SyntaxTables.read, hfaults, hall, hrun]

/-- The text of an expression whose tree has a spelling is read as an expression with the same tree,
whatever else is in the tables. -/
theorem printed_expressions_are_read_back (t : ExprTable) (names : Names) (id : ExprId)
    (e : Tree) (h : Denotes t id e) (he : e.Readable) (u : SyntaxTables) :
    ∃ id' u', u.readExpr (t.text names id) = .ok (id', u') ∧
      ∀ e', Denotes u'.exprs id' e' ↔ e' = e := by
  have hspells : Spells (t.text names id) e.chunks := spells_text h he
  have hscans : Scans (t.text names id).toList e.chunks := by simpa using hspells.scans .nil .nil
  obtain ⟨id', u', hread, htree⟩ := readExpr_of_scans hscans he u
  refine ⟨id', u', hread, fun e' => ⟨fun h' => h'.unique htree, ?_⟩⟩
  rintro rfl
  exact htree

/-- An assignment to a slice of a call, of a conditional with a comma. -/
def intricate : Tree :=
  .assign .plain
    (.range (.call (.leaf (.name "f")) [.binary .sub (.leaf (.name "a"))
        (.binary .sub (.leaf (.name "b")) (.dot (.leaf (.integer 5)) "c")),
      .leaf (.string "\"\n")]) (.leaf (.integer 1)) (.leaf .dollar))
    (.cond (.unary .not (.leaf (.name "p"))) (.array [])
      (.comma (.leaf (.name "q"))
        (.binary .mul (.unary .neg (.unary .complement (.leaf (.integer 2))))
          (.leaf (.bool true)))))

/-- The entries of `intricate`, parts before wholes. -/
def intricateTable : ExprTable :=
  ⟨([.identifier "f", .identifier "a", .identifier "b", .integer 5 none, .dot ⟨3⟩ "c",
    .binary .sub ⟨2⟩ ⟨4⟩, .binary .sub ⟨1⟩ ⟨5⟩, .string "\"\n", .call ⟨0⟩ [⟨6⟩, ⟨7⟩],
    .integer 1 none, .dollar, .slice ⟨8⟩ (some ⟨9⟩) (some ⟨10⟩) none, .identifier "p",
    .unary .not ⟨12⟩, .array [], .identifier "q", .integer 2 none, .unary .complement ⟨16⟩,
    .unary .neg ⟨17⟩, .integer 1 (some .bool), .binary .mul ⟨18⟩ ⟨19⟩, .comma ⟨15⟩ ⟨20⟩,
    .cond ⟨13⟩ ⟨14⟩ ⟨21⟩, .assign .plain ⟨11⟩ ⟨22⟩ false].map fun e =>
      ⟨e, .synthetic, none⟩).toArray⟩

theorem denotes_intricate : Denotes intricateTable ⟨23⟩ intricate := by
  have hdifference : Denotes intricateTable ⟨6⟩ (.binary .sub (.leaf (.name "a"))
      (.binary .sub (.leaf (.name "b")) (.dot (.leaf (.integer 5)) "c"))) :=
    .binary rfl (.leaf rfl) (.binary rfl (.leaf rfl) (.dot rfl (.leaf rfl)))
  have htext : Denotes intricateTable ⟨7⟩ (.leaf (.string "\"\n")) := .leaf rfl
  refine .assign rfl (.range rfl (.call rfl (.leaf rfl) rfl ?_) (.leaf rfl) (.leaf rfl))
    (.cond rfl (.unary rfl (.leaf rfl)) (.array rfl rfl (by simp)) (.comma rfl (.leaf rfl)
      (.binary rfl (.unary rfl (.unary rfl (.leaf rfl))) (.leaf rfl))))
  simpa using ⟨hdifference, htext⟩

theorem readable_intricate : intricate.Readable := by
  have hname : ∀ w ∈ ["f", "a", "b", "p", "q"], (Tree.leaf (.name w)).Readable := by
    have hall : ∀ w ∈ ["f", "a", "b", "p", "q"], IsName w ∧ Scalar.ofName? w = none := by
      decide +kernel
    exact fun w hw => .leaf (hall w hw)
  have hinteger : ∀ n ∈ [(1 : UInt64), 2, 5], (Tree.leaf (.integer n)).Readable := by
    have hall : ∀ n ∈ [(1 : UInt64), 2, 5], n.toNat < 2 ^ 63 := by simp
    exact fun n hn => .leaf (hall n hn)
  have hdifference : (Tree.binary .sub (.leaf (.name "a"))
      (.binary .sub (.leaf (.name "b")) (.dot (.leaf (.integer 5)) "c"))).Readable :=
    .binary (by decide) (hname _ (by simp)) (.binary (by decide) (hname _ (by simp))
      (.dot rfl (by decide +kernel) (hinteger _ (by simp))))
  have htext : (Tree.leaf (.string "\"\n")).Readable :=
    .leaf (show ∀ c ∈ ['"', '\n'], Text.IsPlain c by simp [Text.IsPlain])
  refine .assign ⟨.assign, rfl⟩ rfl
    (.range rfl (.call rfl (hname _ (by simp)) ?_) (hinteger _ (by simp)) (.leaf trivial))
    (.cond rfl (.unary (by decide) (hname _ (by simp))) (.array (by simp))
      (.comma (hname _ (by simp)) (.binary (by decide)
        (.unary (by decide) (.unary (by decide) (hinteger _ (by simp)))) (.leaf trivial))))
  simpa using ⟨hdifference, htext⟩

theorem printed_expressions_are_read_back_intricate :
    let names : ExprTable.Names := ⟨.empty, .initial⟩
    Denotes intricateTable ⟨23⟩ intricate ∧ intricate.Readable ∧
      intricateTable.text names ⟨23⟩ =
        "f(a - (b - 5.c), \"\\\"\\n\")[1 .. $] = !p ? [] : (q, -~2 * true)" ∧
      ∃ id u, SyntaxTables.empty.readExpr (intricateTable.text names ⟨23⟩) = .ok (id, u) ∧
        ∀ e', Denotes u.exprs id e' ↔ e' = intricate :=
  ⟨denotes_intricate, readable_intricate, by decide +kernel,
    printed_expressions_are_read_back intricateTable ⟨.empty, .initial⟩ ⟨23⟩ intricate
      denotes_intricate readable_intricate .empty⟩

end DCompiler
