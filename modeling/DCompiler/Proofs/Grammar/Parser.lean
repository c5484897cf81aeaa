import DCompiler.Proofs.Tables.Reach

/-!
# What parsers do

A parser adds entries and never changes one that is there (`Grown`). What it adds refers only to
what is there. A result that is good for some reach is good for every larger one, so facts about
earlier results are carried along.

The rules of grammar call each other with a bounded depth of calls. To say that the bound does not
matter, `Parses` compares a parser with the one for another bound: both do the same, without running
out of depth. Behind a word that is taken there is one word less, which is what lets a rule call the
others. `Rules.Sound` says of two records of rules what is then proved of every rule, for one word
more.
-/

namespace DCompiler.Grammar

open Reach

def State.reach (s : State) : Reach := ⟨s.exprs.size, s.types.size⟩

/-- Entries stay, and new ones are as a source text writes them. -/
structure Grown (s s' : State) : Prop where
  exprs : ∀ i < s.exprs.size, s'.exprs.nodes[i]? = s.exprs.nodes[i]?
  newExprs : ∀ i n, s.exprs.size ≤ i → s'.exprs.nodes[i]? = some n → n.Written s'.reach
  stmts : ∀ i < s.stmts.size, s'.stmts.nodes[i]? = s.stmts.nodes[i]?
  newStmts : ∀ i n, s.stmts.size ≤ i → s'.stmts.nodes[i]? = some n → n.kind.Fits s'.reach
  types : s.types.Grows s'.types
  reach : s.reach ≤ s'.reach
  stmtsSize : s.stmts.size ≤ s'.stmts.size
  wellFormed : s.types.WellFormed s.exprs.size → s'.types.WellFormed s'.exprs.size

namespace Grown

theorem of_same {s s' : State} (he : s'.exprs = s.exprs) (hs : s'.stmts = s.stmts)
    (ht : s'.types = s.types) : Grown s s' where
  exprs _ _ := by rw [he]
  newExprs i n hi hn := by
    rw [he, Array.getElem?_eq_none hi] at hn
    cases hn
  stmts _ _ := by rw [hs]
  newStmts i n hi hn := by
    rw [hs, Array.getElem?_eq_none hi] at hn
    cases hn
  types := ht ▸ .refl
  reach := by
    rw [State.reach, State.reach, he, ht]
    exact le_refl _
  stmtsSize := Nat.le_of_eq (by rw [hs])
  wellFormed h := by rwa [he, ht]

theorem refl (s : State) : Grown s s := of_same rfl rfl rfl

theorem trans {s t u : State} (h : Grown s t) (h' : Grown t u) : Grown s u where
  exprs i hi := by rw [h'.exprs i (Nat.lt_of_lt_of_le hi h.reach.1), h.exprs i hi]
  newExprs i n hi hn := by
    by_cases ht : i < t.exprs.size
    · rw [h'.exprs i ht] at hn
      exact (h.newExprs i n hi hn).mono h'.reach
    · exact h'.newExprs i n (Nat.le_of_not_lt ht) hn
  stmts i hi := by rw [h'.stmts i (Nat.lt_of_lt_of_le hi h.stmtsSize), h.stmts i hi]
  newStmts i n hi hn := by
    by_cases ht : i < t.stmts.size
    · rw [h'.stmts i ht] at hn
      exact (h.newStmts i n hi hn).mono h'.reach
    · exact h'.newStmts i n (Nat.le_of_not_lt ht) hn
  types := h.types.trans h'.types
  reach := le_trans h.reach h'.reach
  stmtsSize := Nat.le_trans h.stmtsSize h'.stmtsSize
  wellFormed hw := h'.wellFormed (h.wellFormed hw)

end Grown

variable {α β γ : Type} {n m : Nat} {b c d : Bool} {w : Option TokenKind} {r : Reach}
  {x y : Parser α} {f f' : α → Parser β} {Q : Reach → α → Prop} {R : Reach → β → Prop} {s t : State}

/-- The last word is the end of the text. -/
def State.Ends (s : State) : Prop := ∃ kinds, s.rest.map (·.kind) = kinds ++ [.eof]

/-- A state with at most `n` words, the next of a kind if `w` tells one, and at least a reach. -/
structure State.Within (s : State) (n : Nat) (w : Option TokenKind) (r : Reach) : Prop where
  ends : s.Ends
  count : s.rest.length ≤ n
  kind : ∀ kind ∈ w, s.kindAt 0 = kind
  reach : r ≤ s.reach
  types : TypeTable.initial.Grows s.types

/-- From a state on two parsers do the same: they stop with a fault, or they only add to the tables,
and their result has a property. If `b` is true, they take a word when they succeed. -/
inductive Agrees (b : Bool) (x y : Parser α) (Q : Reach → α → Prop) (s : State) : Prop
  | done {a : α} {t : State} : x s = .ok (a, t) → y s = .ok (a, t) → t.Ends →
    t.rest.length + b.toNat ≤ s.rest.length → Grown s t → Q t.reach a → Agrees b x y Q s
  | stop {cause : Fault} {position : Nat} : x s = .error (.fault cause position) →
    y s = .error (.fault cause position) → Agrees b x y Q s

/-- Two parsers agree in each state within bounds. -/
def Parses (n : Nat) (b : Bool) (w : Option TokenKind) (r : Reach) (x y : Parser α)
    (Q : Reach → α → Prop) : Prop :=
  ∀ s : State, s.Within n w r → Agrees b x y Q s

/-- A parser that agrees with itself and of whose result nothing has to be known. -/
def TakesWords (b : Bool) (x : Parser α) : Prop :=
  ∀ {n : Nat} {w : Option TokenKind} {r : Reach}, Parses n b w r x x fun _ _ => True

namespace Parses

/-! ## Sequences -/

/-- Words are taken by the first parser or by what follows. -/
theorem bind_of (hx : Parses n c w r x y Q)
    (hf : ∀ a r', r ≤ r' → Q r' a → Parses m d none r' (f a) (f' a) R) (hn : n ≤ m + c.toNat)
    (hb : b.toNat ≤ c.toNat + d.toNat) : Parses n b w r (x >>= f) (y >>= f') R := by
  intro s hs
  have hrun (z : Parser α) (k : α → Parser β) : (z >>= k) s = z s >>= fun p => k p.1 p.2 := rfl
  cases hx s hs with
  | @stop cause position hx hy =>
    have hxf : (x >>= f) s = .error (.fault cause position) := by rw [hrun, hx]; rfl
    have hyf : (y >>= f') s = .error (.fault cause position) := by rw [hrun, hy]; rfl
    exact .stop hxf hyf
  | @done a t hx hy ht hlt hgrown ha =>
    have hxf : (x >>= f) s = f a t := by rw [hrun, hx]; rfl
    have hyf : (y >>= f') s = f' a t := by rw [hrun, hy]; rfl
    have hcount : t.rest.length ≤ m := by have := hs.count; omega
    cases hf a t.reach (le_trans hs.reach hgrown.reach) ha t
      ⟨ht, hcount, nofun, le_refl _, hs.types.trans hgrown.types⟩ with
    | stop hf hf' => exact .stop (hxf.trans hf) (hyf.trans hf')
    | done hf hf' hu hle hgrown' hb' =>
      exact .done (hxf.trans hf) (hyf.trans hf') hu (by omega) (hgrown.trans hgrown') hb'

theorem bind (hx : Parses n c w r x y Q)
    (hf : ∀ a r', r ≤ r' → Q r' a → Parses n b none r' (f a) (f' a) R) :
    Parses n b w r (x >>= f) (y >>= f') R :=
  hx.bind_of hf (Nat.le_add_right ..) (Nat.le_add_left ..)

theorem past (hx : Parses (n + 1) true w r x y Q)
    (hf : ∀ a r', r ≤ r' → Q r' a → Parses n false none r' (f a) (f' a) R) :
    Parses (n + 1) b w r (x >>= f) (y >>= f') R :=
  hx.bind_of hf .refl (Bool.toNat_le b)

theorem assoc {S : Reach → γ → Prop} {k k' : β → Parser γ}
    (h : Parses n b w r ((x >>= f) >>= k) ((y >>= f') >>= k') S) :
    Parses n b w r (x >>= fun a => f a >>= k) (y >>= fun a => f' a >>= k') S := by
  rwa [bind_assoc, bind_assoc] at h

theorem pure {a : α} (ha : ∀ r', r ≤ r' → Q r' a) : Parses n false w r (pure a) (pure a) Q :=
  fun s hs => .done rfl rfl hs.ends .refl (.refl s) (ha _ hs.reach)

/-- What is known of more words, of less reach and of words that are taken. -/
theorem weaken {r' : Reach} (hx : Parses m c w r x y Q) (hn : n ≤ m) (hb : b.toNat ≤ c.toNat)
    (hr : r ≤ r') : Parses n b w r' x y Q := by
  intro s hs
  cases hx s ⟨hs.ends, Nat.le_trans hs.count hn, hs.kind, le_trans hr hs.reach, hs.types⟩ with
  | stop hx hy => exact .stop hx hy
  | done hx hy ht hlt hgrown ha => exact .done hx hy ht (by omega) hgrown ha

theorem mono {r' : Reach} (hx : Parses n b w r x y Q) (h : r ≤ r') : Parses n b w r' x y Q :=
  hx.weaken .refl .refl h

theorem inside (hx : Parses (n + 1) c w r x y Q) : Parses n false w r x y Q :=
  hx.weaken (Nat.le_succ n) (Nat.zero_le _) (le_refl _)

theorem any (hx : Parses n true w r x y Q) : Parses n b w r x y Q :=
  hx.weaken .refl (Bool.toNat_le b) (le_refl _)

theorem fail {cause : Fault} :
    Parses n b w r (Grammar.fail cause : Parser α) (Grammar.fail cause) Q :=
  fun _ _ => .stop rfl rfl

theorem failAtWord {cause : String → Fault} :
    Parses n b w r (Grammar.failAtWord cause : Parser α) (Grammar.failAtWord cause) Q :=
  fun _ _ => .stop rfl rfl

theorem orFail {p : Prop} [Decidable p] {cause : Fault} {rest rest' : PUnit → Parser β}
    (h : ¬p → Parses n b w r (rest ⟨⟩) (rest' ⟨⟩) R) :
    Parses n b w r (if p then Grammar.fail cause >>= rest else rest ⟨⟩)
      (if p then Grammar.fail cause >>= rest' else rest' ⟨⟩) R := by
  split
  · exact fun _ _ => .stop rfl rfl
  · exact h ‹_›

/-! ## Looking at words -/

theorem look {q : State → γ} {f f' : γ → Parser β} (h : ∀ a, Parses n b w r (f a) (f' a) R) :
    Parses n b w r ((do return q (← get)) >>= f) ((do return q (← get)) >>= f') R := by
  intro s hs
  cases h (q s) s hs with
  | stop hf hf' => exact .stop hf hf'
  | done hf hf' ht hlt hgrown ha => exact .done hf hf' ht hlt hgrown ha

theorem get {f f' : State → Parser β} (h : ∀ a, Parses n b w r (f a) (f' a) R) :
    Parses n b w r (MonadState.get >>= f) (MonadState.get >>= f') R := .look (q := id) h

/-- The kind of the next word is known from then on. -/
theorem peek {f f' : TokenKind → Parser β}
    (h : ∀ kind, Parses n b (some kind) r (f kind) (f' kind) R) :
    Parses n b w r (Grammar.peek >>= f) (Grammar.peek >>= f') R := by
  intro s hs
  have hs' : s.Within n (some (s.kindAt 0)) r :=
    ⟨hs.ends, hs.count, fun _ hkind => Option.some.inj hkind, hs.reach, hs.types⟩
  cases h (s.kindAt 0) s hs' with
  | stop hf hf' => exact .stop hf hf'
  | done hf hf' ht hlt hgrown ha => exact .done hf hf' ht hlt hgrown ha

end Parses

namespace TakesWords

/-- Taking words before a parser does not matter to it. -/
theorem andThen {f f' : α → Parser β} (hx : TakesWords c x)
    (hf : ∀ a, Parses n b none r (f a) (f' a) R) : Parses n b w r (x >>= f) (x >>= f') R :=
  .bind hx fun a _ hr _ => (hf a).mono hr

theorem past {f f' : α → Parser β} (hx : TakesWords true x)
    (hf : ∀ a, Parses n false none r (f a) (f' a) R) :
    Parses (n + 1) b w r (x >>= f) (x >>= f') R :=
  Parses.past hx fun a _ hr _ => (hf a).mono hr

theorem pure {a : α} : TakesWords false (pure a) := .pure fun _ _ => trivial

end TakesWords

/-! ## Taking words -/

theorem State.Ends.next (hs : s.Ends) : s.next.Ends ∧ s.next.rest.length ≤ s.rest.length := by
  obtain ⟨kinds, hkinds⟩ := hs
  unfold State.next
  split
  · next v u rest hrest =>
    rw [hrest] at hkinds
    cases kinds with
    | nil => simp at hkinds
    | cons kind kinds =>
      rw [List.map_cons, List.cons_append, List.cons.injEq] at hkinds
      exact ⟨⟨kinds, hkinds.2⟩, by simp [hrest]⟩
  · exact ⟨⟨kinds, hkinds⟩, .refl⟩

theorem State.Ends.next_lt (hs : s.Ends) (hkind : s.kindAt 0 ≠ .eof) :
    s.next.rest.length + 1 ≤ s.rest.length := by
  obtain ⟨kinds, hkinds⟩ := hs
  unfold State.next
  split
  · next v u rest hrest => simp [hrest]
  · next hrest =>
    match h : s.rest with
    | [] => simp [h] at hkinds
    | v :: u :: rest => exact absurd h (hrest v u rest)
    | [v] =>
      rw [h] at hkinds
      cases kinds with
      | nil => exact absurd (by simpa [State.kindAt, headKind, h] using hkinds) hkind
      | cons kind kinds => simp at hkinds

theorem grown_next (s : State) : Grown s s.next := by
  unfold State.next
  split <;> exact .of_same rfl rfl rfl

theorem advance_takesWords : TakesWords false advance := fun s hs =>
  .done rfl rfl hs.ends.next.1 hs.ends.next.2 (grown_next s) trivial

theorem advance_parses {kind : TokenKind} (hne : kind ≠ .eof) :
    Parses n true (some kind) r advance advance fun _ _ => True := by
  intro s hs
  have hkind : s.kindAt 0 ≠ .eof := by rwa [hs.kind kind rfl]
  exact .done rfl rfl hs.ends.next.1 (hs.ends.next_lt hkind) (grown_next s) trivial

theorem Parses.taken {kind : TokenKind} {f f' : Span → Parser β} (hne : kind ≠ .eof)
    (hf : ∀ a, Parses n false none r (f a) (f' a) R) :
    Parses (n + 1) b (some kind) r (advance >>= f) (advance >>= f') R :=
  .past (advance_parses hne) fun a _ hr _ => (hf a).mono hr

theorem Parses.eat {kind : TokenKind} {x y x' y' : Parser β} (hne : kind ≠ .eof)
    (hyes : Parses n false none r x y R) (hno : Parses (n + 1) b w r x' y' R) :
    Parses (n + 1) b w r (Grammar.eat kind >>= fun taken => if taken = true then x else x')
      (Grammar.eat kind >>= fun taken => if taken = true then y else y') R := by
  intro s hs
  have heat (z z' : Parser β) :
      (Grammar.eat kind >>= fun taken => if taken = true then z else z') s =
        if s.kindAt 0 = kind then (advance >>= fun _ => z) s else z' s := by
    show ((if s.kindAt 0 = kind then (do let _ ← advance; return true) else return false) >>=
      fun taken => if taken = true then z else z' : Parser β) s = _
    split <;> rfl
  by_cases hkind : s.kindAt 0 = kind
  · have hs' : s.Within (n + 1) (some kind) r :=
      ⟨hs.ends, hs.count, fun _ h => hkind.trans (Option.some.inj h), hs.reach, hs.types⟩
    cases Parses.taken (b := b) hne (fun _ => hyes) s hs' with
    | stop hx hy => exact .stop (by rw [heat, if_pos hkind, hx]) (by rw [heat, if_pos hkind, hy])
    | done hx hy ht hlt hgrown ha =>
      exact .done (by rw [heat, if_pos hkind, hx]) (by rw [heat, if_pos hkind, hy]) ht hlt hgrown ha
  · cases hno s hs with
    | stop hx hy => exact .stop (by rw [heat, if_neg hkind, hx]) (by rw [heat, if_neg hkind, hy])
    | done hx hy ht hlt hgrown ha =>
      exact .done (by rw [heat, if_neg hkind, hx]) (by rw [heat, if_neg hkind, hy]) ht hlt hgrown ha

theorem eat_takesWords {kind : TokenKind} : TakesWords false (eat kind) := by
  refine .peek fun found => ?_
  split
  · exact advance_takesWords.andThen fun _ => .pure fun _ _ => trivial
  · exact .pure fun _ _ => trivial

theorem expect_takesWords {kind : TokenKind} {what : String} :
    TakesWords false (expect kind what) := by
  refine .peek fun found => ?_
  split
  · exact advance_takesWords
  · exact .failAtWord

theorem Parses.expect {kind : TokenKind} {what : String} {f f' : Span → Parser β}
    (hf : ∀ span, Parses n b none r (f span) (f' span) R) :
    Parses n b w r (Grammar.expect kind what >>= f) (Grammar.expect kind what >>= f') R :=
  expect_takesWords.andThen hf

theorem expect_takes {kind : TokenKind} (hne : kind ≠ .eof) {what : String} :
    TakesWords true (expect kind what) := by
  refine .peek fun found => ?_
  split
  · next h => exact advance_parses (h ▸ hne)
  · exact .failAtWord

theorem identifier_takesWords : TakesWords true identifier := by
  refine .peek fun found => ?_
  split
  · next h =>
    subst h
    exact .look fun _ => .bind_of (advance_parses nofun) (fun _ _ _ _ => .pure fun _ _ => trivial)
      (Nat.le_add_right ..) .refl
  · exact .failAtWord

theorem skip_takesWords {count : Nat} : TakesWords false (skip count) := by
  induction count with
  | zero => exact .pure fun _ _ => trivial
  | succ count ih => exact advance_takesWords.andThen fun _ => ih

/-! ## Entries -/

theorem known_intern {t : TypeTable} (ht : TypeTable.initial.Grows t) {k : TypeKind}
    (hk : k ≠ .error) (n : Nat) : (t.intern k).1.Known ⟨n, (t.intern k).2.size⟩ := by
  have hlt := (Array.getElem?_eq_some_iff.mp (t.kinds_intern k)).1
  refine ⟨Nat.lt_of_lt_of_le hlt (Nat.le_max_right _ _), fun h => hk ?_⟩
  have herror : t.kinds[TypeId.error.index]? = some .error := ht.kinds_eq rfl
  have hsame := TypeTable.kinds_of_intern herror (k := k)
  rw [← h, t.kinds_intern k] at hsame
  exact Option.some.inj hsame

theorem addExpr_parses {k : Expr} {span : Span} (hk : k.isWritten = true) (hfits : k.Fits r) :
    Parses n false w r (addExpr k span) (addExpr k span) fun r' e => e.In r' := by
  intro s hs
  have hle : s.reach ≤ State.reach { s with exprs := (s.exprs.add k span).2 } :=
    ⟨by simp [State.reach, ExprTable.add, ExprTable.addNode, ExprTable.size], .refl⟩
  refine .done rfl rfl hs.ends .refl ⟨fun i hi => ?_, fun i n hi hn => ?_, fun _ _ => rfl,
    fun i n hi hn => ?_, .refl, hle, .refl, fun h => h.mono hle.1⟩ ?_
  · have hi : i < s.exprs.nodes.size := hi
    simp [Array.getElem?_push, Nat.ne_of_lt hi]
  · have hi : s.exprs.nodes.size ≤ i := hi
    simp only [Array.getElem?_push] at hn
    split at hn
    · cases hn
      exact ⟨rfl, hk, hfits.mono (le_trans hs.reach hle)⟩
    · rw [Array.getElem?_eq_none hi] at hn
      cases hn
  · rw [Array.getElem?_eq_none hi] at hn
    cases hn
  · simp [ExprId.In, State.reach, ExprTable.size]

theorem addStmt_parses {k : Stmt} {span : Span} (hfits : k.Fits r) :
    Parses n false w r (addStmt k span) (addStmt k span) fun _ _ => True := by
  intro s hs
  refine .done rfl rfl hs.ends .refl ⟨fun _ _ => rfl, fun i n hi hn => ?_, fun i hi => ?_,
    fun i n hi hn => ?_, .refl, le_refl _, by simp [StmtTable.size], fun h => h⟩ trivial
  · rw [Array.getElem?_eq_none hi] at hn
    cases hn
  · have hi : i < s.stmts.nodes.size := hi
    simp [Array.getElem?_push, Nat.ne_of_lt hi]
  have hi : s.stmts.nodes.size ≤ i := hi
  simp only [Array.getElem?_push] at hn
  split at hn
  · cases hn
    exact hfits.mono hs.reach
  · rw [Array.getElem?_eq_none hi] at hn
    cases hn

theorem grown_internType {s : State} {k : TypeKind}
    (hk : s.types.WellFormed s.exprs.size → s.types.Admits s.exprs.size k) :
    Grown s { s with types := (s.types.intern k).2 } where
  exprs _ _ := rfl
  newExprs i n hi hn := by
    rw [Array.getElem?_eq_none hi] at hn
    cases hn
  stmts _ _ := rfl
  newStmts i n hi hn := by
    rw [Array.getElem?_eq_none hi] at hn
    cases hn
  types := TypeTable.Grows.refl.intern k
  reach := ⟨.refl, (TypeTable.Grows.refl.intern k).size_le⟩
  stmtsSize := .refl
  wellFormed h := h.intern (hk h)

theorem internType_parses {k : TypeKind} (hk : k ≠ .error) (hdelegate : ∀ f, k ≠ .delegate f)
    (hcomponents : ∀ c ∈ k.components, c.Known r) (hdefaults : k.defaults = []) :
    Parses n false w r (internType k) (internType k) fun r' t => t.Known r' := by
  intro s hs
  refine .done rfl rfl hs.ends .refl (grown_internType fun _ =>
    ⟨fun c hc => (hcomponents c hc).mono hs.reach, fun {f} hf => absurd hf (hdelegate f),
      by simp [hdefaults]⟩) ?_
  exact known_intern hs.types hk _

end DCompiler.Grammar

namespace DCompiler

open TypeKind

namespace StorageClass

theorem contains_lazy_iff (a : StorageClass) :
    a.contains .lazy = true ↔ a.bits.toNat.testBit 3 = true := by
  simp only [contains, lazy, beq_iff_eq, ← UInt32.toNat_inj, UInt32.toNat_and]
  show a.bits.toNat &&& 2 ^ 3 = 2 ^ 3 ↔ _
  constructor
  · intro h
    have hbit := congrArg (Nat.testBit · 3) h
    simp only [Nat.testBit_and, Nat.testBit_two_pow_self, Bool.and_true] at hbit
    exact hbit
  · intro h
    refine Nat.eq_of_testBit_eq fun i => ?_
    rw [Nat.testBit_and, Nat.testBit_two_pow]
    by_cases hi : 3 = i
    · subst hi
      simp [h]
    · simp [hi]

theorem contains_lazy_or (a b : StorageClass) :
    (a ||| b).contains .lazy = (a.contains .lazy || b.contains .lazy) := by
  rw [Bool.eq_iff_iff, Bool.or_eq_true, contains_lazy_iff, contains_lazy_iff, contains_lazy_iff]
  show ((a.bits ||| b.bits).toNat).testBit 3 = true ↔ _
  rw [UInt32.toNat_or, Nat.testBit_or, Bool.or_eq_true]

end StorageClass

namespace Grammar

/-- A parser over rules does the same with two records of them. -/
abbrev Both {α : Type} (g g' : Rules) (n : Nat) (b : Bool) (w : Option TokenKind) (r : Reach)
    (x : Rules → Parser α) (Q : Reach → α → Prop) : Prop :=
  Parses n b w r (x g) (x g') Q

/-- Two records of rules agree in each state with at most so many words, and add to the tables only
what refers to what is there. -/
structure Rules.Sound (n : Nat) (g g' : Rules) : Prop where
  type {w r} : Both g g' n false w r (·.type) fun r' t => t.Known r'
  typeTail {w r head} (h : head.Known r) :
    Both g g' n false w r (·.typeTail head) fun r' t => t.Known r'
  parameters {w r} (l : Linkage) :
    Both g g' n false w r (·.parameters l) fun r' ps => ∀ p ∈ ps.1, p.Fits r'
  parameterList {w r} (l : Linkage) :
    Both g g' n false w r (·.parameterList l) fun r' ps => ∀ p ∈ ps.1, p.Fits r'
  unary {w r} : Both g g' n false w r (·.unary) fun r' e => e.In r'
  accessTail {w r base} (h : base.In r) :
    Both g g' n false w r (·.accessTail base) fun r' e => e.In r'
  binary {w r} (least : Nat) : Both g g' n false w r (·.binary least) fun r' e => e.In r'
  binaryTail {w r lhs} (least : Nat) (h : lhs.In r) :
    Both g g' n false w r (·.binaryTail least lhs) fun r' e => e.In r'
  cond {w r} : Both g g' n false w r (·.cond) fun r' e => e.In r'
  assign {w r} : Both g g' n false w r (·.assign) fun r' e => e.In r'
  expr {w r} : Both g g' n false w r (·.expr) fun r' e => e.In r'
  commaTail {w r lhs} (h : lhs.In r) : Both g g' n false w r (·.commaTail lhs) fun r' e => e.In r'
  arguments {w r close} (hclose : close ≠ .eof) :
    Both g g' n false w r (·.arguments close) fun r' es => ∀ e ∈ es, e.In r'
  traitArguments {w r} : Both g g' n false w r (·.traitArguments) fun r' es => ∀ e ∈ es, e.In r'
  statement {w r} : Both g g' n false w r (·.statement) fun _ _ => True
  statements {w r} : Both g g' n false w r (·.statements) fun _ _ => True
  functionTail {w r} (hasContract : Bool) :
    Both g g' n false w r (·.functionTail hasContract) fun _ _ => True
  localDecls {w r} {d : LocalDecls} (name : String) (htype : ∀ t ∈ d.type, t.Known r)
    (hstorage : d.storage.contains .lazy = false) :
    Both g g' n false w r (·.localDecls d name) fun _ _ => True
  nameTail {w r} (name : String) : Both g g' n false w r (·.nameTail name) fun _ _ => True
  attributes {w r} {attrs : Attributes} (h : attrs.storage.contains .lazy = false) :
    Both g g' n false w r (·.attributes attrs) fun _ attrs => attrs.storage.contains .lazy = false
  globalDecls {w r} {d : GlobalDecls} (name : String) (span : Span)
    (htype : ∀ t ∈ d.type, t.Known r) (hstorage : d.storage.contains .lazy = false) :
    Both g g' n false w r (·.globalDecls d name span) fun r' ds => ∀ d ∈ ds, d.Fits r'
  enumMembers {w r} : Both g g' n false w r (·.enumMembers)
    fun r' ms => ∀ m ∈ ms, ∀ e ∈ m.value, e.In r'
  decls {w r} {attrs : Attributes} (inAggregate : Bool) (stop : DeclsEnd)
    (h : attrs.storage.contains .lazy = false) :
    Both g g' n false w r (·.decls attrs inAggregate stop) fun r' ds => ∀ d ∈ ds, d.Fits r'

variable {n : Nat} {w : Option TokenKind} {r : Reach} {g g' : Rules} (hg : g.Sound n g')

theorem namedType_parses (name : String) :
    Parses n false w r (namedType name) (namedType name) fun r' t => t.Known r' := by
  unfold namedType
  split
  · refine internType_parses (by simp) (by simp) ?_ rfl
    simp [components, TypeId.known_ofScalar]
  split
  · exact .pure fun r' _ => TypeId.known_ofScalar
  · exact internType_parses (by simp) (by simp) (by simp [components]) rfl

/-- A function type and the delegate or pointer to it, entered one after the other. -/
theorem internFunction_parses {sig : Signature} (isDelegate : Bool)
    (hcomponents : ∀ c ∈ (function sig).components, c.Known r)
    (hdefaults : (function sig).defaults = []) {x : Parser TypeId}
    (hx : x = do
      let func ← internType (.function sig)
      internType (if isDelegate then .delegate func else .pointer func)) :
    Parses n false w r x x fun r' t => t.Known r' := by
  subst hx
  intro s hs
  let u : State := { s with types := (s.types.intern (.function sig)).2 }
  have hgrown : Grown s u := grown_internType fun _ =>
    ⟨fun c hc => (hcomponents c hc).mono hs.reach, by simp, by simp [hdefaults]⟩
  have hknown : (s.types.intern (.function sig)).1.Known u.reach :=
    known_intern hs.types (by simp) _
  have hfunc : u.types.IsFunction (s.types.intern (.function sig)).1 :=
    ⟨sig, s.types.kinds_intern _⟩
  refine .done rfl rfl hs.ends .refl (hgrown.trans (grown_internType fun _ => ?_))
    (known_intern (hs.types.trans hgrown.types) (by cases isDelegate <;> simp) _)
  cases isDelegate with
  | false =>
    refine ⟨fun c hc => ?_, by simp, by simp [defaults]⟩
    exact List.mem_singleton.mp hc ▸ hknown
  | true =>
    refine ⟨fun c hc => ?_, fun hf => ?_, by simp [defaults]⟩
    · exact List.mem_singleton.mp hc ▸ hknown
    · cases hf
      exact hfunc

include hg

theorem type_parses : Both g g' (n + 1) true w r type fun r' t => t.Known r' := by
  refine .peek fun kind => ?_
  split
  · refine .taken nofun fun _ => eat_takesWords.andThen fun paren => ?_
    split
    · exact .bind hg.type fun inner r1 _ hinner =>
        .expect fun _ => hg.typeTail hinner
    · exact hg.type
  · refine .look fun name => .taken nofun fun _ => ?_
    exact .bind (namedType_parses name) fun t r1 _ ht => hg.typeTail ht
  · exact .failAtWord

theorem bracketTail_parses {elem : TypeId} (helem : elem.Known r) :
    Both g g' n false w r (bracketTail · elem) fun r' t => t.Known r' := by
  refine eat_takesWords.andThen fun closed => ?_
  split
  · exact internType_parses (by simp) (by simp) (by simpa [components]) rfl
  refine .look fun kind => .look fun next => ?_
  split
  · refine .look fun digits => ?_
    split
    · exact .failAtWord
    · exact skip_takesWords.andThen fun _ =>
        internType_parses (by simp) (by simp) (by simpa [components]) rfl
  · refine .bind hg.type fun key r1 h1 hkey => .expect fun _ => ?_
    refine internType_parses (by simp) (by simp) ?_ rfl
    simpa [components] using ⟨hkey, helem.mono h1⟩

theorem typeTail_parses {head : TypeId} (hhead : head.Known r) :
    Both g g' (n + 1) false w r (typeTail · head) fun r' t => t.Known r' := by
  refine .peek fun kind => ?_
  split
  · refine .taken (by decide) fun _ => ?_
    exact .bind (internType_parses (by simp) (by simp) (by simpa [components]) rfl)
      fun t r1 _ ht => hg.typeTail ht
  · exact .taken (by decide) fun _ =>
      .bind (bracketTail_parses hg hhead) fun t r1 _ ht => hg.typeTail ht
  · refine .look fun word => ?_
    split
    · refine .taken (by decide) fun _ => .bind (hg.parameters .d) fun ps r1 h1 hps => ?_
      refine .assoc (.bind (internFunction_parses (word == "delegate") ?_ ?_ rfl)
        fun t r2 _ ht => hg.typeTail ht)
      · intro c hc
        simp only [components, List.map_map, List.mem_cons, List.mem_map] at hc
        rcases hc with rfl | ⟨p, hp, rfl⟩
        · exact hhead.mono h1
        · exact (hps p hp).type
      · simp [defaults, List.filterMap_map, paramOfDecl]
    · exact .pure fun r' hr => hhead.mono hr
  · exact .pure fun r' hr => hhead.mono hr

theorem wholeType_parses : Both g g' (n + 1) true w r wholeType fun r' t => t.Known r' := by
  intro s hs
  cases type_parses hg s hs with
  | stop hx hy => exact .stop (by rw [wholeType, hx]; rfl) (by rw [wholeType, hy]; rfl)
  | done hx hy ht hlt hgrown ha =>
    exact .done (by rw [wholeType, hx]) (by rw [wholeType, hy]) ht hlt hgrown ha

/-! ## Parameters -/

omit hg in
theorem storageFlags_parses {flag? : TokenKind → TokenKind → Option StorageClass}
    {Q : StorageClass → Prop} (hQ : ∀ ws, Q (storageRun flag? ws).1) :
    Parses n false w r (storageFlags flag?) (storageFlags flag?) fun _ flags => Q flags :=
  .get fun s => skip_takesWords.andThen fun _ => .pure fun _ _ => hQ s.rest

omit hg in
theorem optionalAfter_parses {α : Type} {kind : TokenKind} {x y : Parser α} {Q : Reach → α → Prop}
    (hne : kind ≠ .eof) (hx : ∀ {w}, Parses n false w r x y Q)
    (hmono : ∀ {a b : Reach} {z : α}, Q a z → a ≤ b → Q b z) :
    Parses (n + 1) false w r (optionalAfter kind x) (optionalAfter kind y)
      fun r' found => ∀ z ∈ found, Q r' z := by
  refine .eat hne (.bind hx fun z r1 _ hz => .pure fun r' hr found hfound => ?_)
    (.pure fun _ _ => by simp)
  cases hfound
  exact hmono hz hr

theorem parameter_parses : Both g g' (n + 1) true w r parameter fun r' p => p.Fits r' := by
  refine .look fun start => .bind (storageFlags_parses (Q := fun _ => True) fun _ => trivial)
    fun flags r0 _ _ => .past (wholeType_parses hg) fun type r1 h1 htype => .look fun kind => ?_
  extract_lets rest rest'
  have hrest (name : Option String) {r : Reach} (hr : r1 ≤ r) :
      Parses n false none r (rest name) (rest' name) fun r' p => p.Fits r' :=
    .bind (optionalAfter_parses (by nofun) hg.assign ExprId.In.mono).inside
      fun default r2 h2 hdefault => .look fun _ => .pure fun r' hr' =>
        ⟨((htype.mono hr).mono h2).mono hr', fun e he => (hdefault e he).mono hr'⟩
  split
  · exact identifier_takesWords.andThen fun _ =>
      TakesWords.pure.andThen fun name => hrest name (Reach.le_refl _)
  · exact TakesWords.pure.andThen fun name => hrest name (Reach.le_refl _)

theorem parameterList_parses (l : Linkage) :
    Both g g' (n + 1) false w r (parameterList · l) fun r' ps => ∀ p ∈ ps.1, p.Fits r' := by
  have hone {n r} {p : ParamDecl} (hp : p.Fits r) (variadic : Variadic) :
      Parses n false none r (pure ([p], variadic)) (pure ([p], variadic))
        fun r' (ps : List ParamDecl × Variadic) => ∀ p ∈ ps.1, p.Fits r' :=
    .pure fun r' hr => by simpa using hp.mono hr
  refine .eat nofun (.pure fun _ _ => by simp) (.eat nofun ?_ ?_)
  · exact .expect fun _ => .pure fun _ _ => by simp
  refine .past (parameter_parses hg) fun p r1 h1 hp => eat_takesWords.andThen fun dots => ?_
  split
  · exact .expect fun _ => hone hp _
  refine eat_takesWords.andThen fun comma => ?_
  split
  · refine .bind (hg.parameterList l) fun others r2 h2 hothers => .pure fun r' hr q hq => ?_
    rcases List.mem_cons.mp hq with rfl | hq
    · exact (hp.mono h2).mono hr
    · exact (hothers q hq).mono hr
  · exact .expect fun _ => hone hp _

theorem parameters_parses (l : Linkage) :
    Both g g' (n + 1) true w r (parameters · l) fun r' ps => ∀ p ∈ ps.1, p.Fits r' :=
  TakesWords.past (expect_takes (by nofun)) fun _ => hg.parameterList l

end Grammar

end DCompiler
