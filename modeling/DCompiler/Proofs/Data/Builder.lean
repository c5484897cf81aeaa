import Mathlib.Algebra.GroupWithZero.Nat
import DCompiler.Data.Builder
import DCompiler.Proofs.Pool.Chain
import DCompiler.Proofs.Text.Encoding

/-!
# What data builders append

The *content* of a description is what it stands for: a sequence of bytes and of fields with
addresses. Different records can have the same content, such as a run of zeros and two shorter
ones, and a builder may leave any of them.

Every step of a `DataBuilder` on a chain that it owns gives a result, touches no other chain, and
appends some content (`Adds`), whichever records it makes or changes for it. The size of the whole
has to fit into a word, since runs of zeros are counted in one.

The records of a chain are old ones, new ones or stand for bytes. So they can be written into an
object file (`Writable`) if those that were given can: none is a shared block, and every symbol they
name is in the symbol table.
-/

attribute [instance (2000), default_instance 20000] instPowNat

namespace DCompiler

open List DataRecord

inductive DataTarget where
  /-- A copy of bytes that are only read. -/
  | constant (bytes : List UInt8)
  | symbol (s : ObjectSymbolId)
  | code
  deriving Repr, DecidableEq

/-- A part of data: a byte, or a field with the address of a target plus an offset. -/
inductive Datum where
  | byte (b : UInt8)
  | pointer (width : Nat) (target : DataTarget) (offset : UInt64)
  deriving Repr, DecidableEq

namespace Datum

def size : Datum → Nat
  | byte _ => 1
  | pointer width _ _ => width

def literal (bs : List UInt8) : List Datum := bs.map byte

/-- A field, which is nothing if it takes no bytes. -/
def field (width : Nat) (target : DataTarget) (offset : UInt64) : List Datum :=
  if width = 0 then [] else [pointer width target offset]

def total (ds : List Datum) : Nat := (ds.map size).sum

def copies (n : Nat) (ds : List Datum) : List Datum := (replicate n ds).flatten

variable {ds es : List Datum}

@[simp] theorem total_nil : total [] = 0 := rfl

@[simp] theorem total_append (ds es : List Datum) : total (ds ++ es) = total ds + total es := by
  simp [total]

@[simp] theorem total_literal (bs : List UInt8) : total (literal bs) = bs.length := by
  simp [total, literal, size, Function.comp_def, map_const']

@[simp] theorem total_field (width : Nat) (target : DataTarget) (offset : UInt64) :
    total (field width target offset) = width := by
  unfold field
  split <;> simp [*, total, size]

@[simp] theorem literal_append (bs cs : List UInt8) :
    literal (bs ++ cs) = literal bs ++ literal cs := map_append

theorem copies_succ (n : Nat) (ds : List Datum) : copies (n + 1) ds = ds ++ copies n ds := by
  simp [copies, replicate_succ]

@[simp] theorem total_copies (n : Nat) (ds : List Datum) : total (copies n ds) = n * total ds := by
  induction n with
  | zero => simp [copies]
  | succ n ih => rw [copies_succ, total_append, ih, Nat.succ_mul, Nat.add_comm]

theorem copies_zeros (n m : Nat) :
    copies n (literal (replicate m 0)) = literal (replicate (m * n) 0) := by
  induction n with
  | zero => rfl
  | succ n ih =>
    rw [copies_succ, ih, ← literal_append, replicate_append_replicate, Nat.mul_succ, Nat.add_comm]

end Datum

open Datum

namespace DataRecord

/-- What a record stands for. A shared block has no content. -/
def content : DataRecord → List Datum
  | zeros size => literal (replicate size.toNat 0)
  | inline bs | bytes bs => literal bs
  | constant width offset bs => field width (.constant bs) offset
  | address width s offset => field width (.symbol s) offset
  | codeAddress width offset => field width .code offset
  | common _ => []

def IsPlain : DataRecord → Prop
  | common _ => False
  | _ => True

def IsLiteral : DataRecord → Prop
  | zeros _ | inline _ | bytes _ => True
  | _ => False

theorem IsLiteral.isPlain {r : DataRecord} (hr : r.IsLiteral) : r.IsPlain := by
  cases r <;> trivial

theorem isLiteral_ofBytes (bs : List UInt8) : (ofBytes bs).IsLiteral := by
  unfold ofBytes
  split <;> trivial

theorem content_ofBytes (bs : List UInt8) : (ofBytes bs).content = literal bs := by
  unfold ofBytes
  split <;> rfl

theorem size_eq (r : DataRecord) : r.size = (total r.content).toUInt64 := by
  cases r <;> simp [DataRecord.size, content]

theorem size_pos (r : DataRecord) : ∀ d ∈ r.content, 0 < d.size := by
  have hliteral : ∀ bs, ∀ d ∈ literal bs, 0 < d.size := fun bs d hd => by
    obtain ⟨b, -, rfl⟩ := mem_map.mp hd
    exact Nat.one_pos
  have hfield : ∀ width target offset, ∀ d ∈ field width target offset, 0 < d.size := by
    intro width target offset d hd
    unfold field at hd
    split at hd
    · exact nomatch hd
    · next hwidth =>
      rw [mem_singleton.mp hd]
      exact Nat.pos_of_ne_zero hwidth
  cases r with
  | zeros | inline | bytes => exact hliteral _
  | constant | address | codeAddress => exact hfield _ _ _
  | common => exact nofun

end DataRecord

namespace Data

def contents (rs : List DataRecord) : List Datum := rs.flatMap content

@[simp] theorem contents_nil : contents [] = [] := rfl

@[simp] theorem contents_cons (r : DataRecord) (rs : List DataRecord) :
    contents (r :: rs) = r.content ++ contents rs := rfl

@[simp] theorem contents_append (rs ss : List DataRecord) :
    contents (rs ++ ss) = contents rs ++ contents ss := flatMap_append

theorem contents_copies (n : Nat) (rs : List DataRecord) :
    contents (replicate n rs).flatten = copies n (contents rs) := by
  induction n with
  | zero => rfl
  | succ n ih =>
    rw [replicate_succ, flatten_cons, contents_append, ih, copies_succ]

theorem sizeOf_eq (rs : List DataRecord) : sizeOf rs = (total (contents rs)).toUInt64 := by
  induction rs with
  | nil => rfl
  | cons r rs ih =>
    have hcons : sizeOf (r :: rs) = r.size + sizeOf rs := rfl
    rw [hcons, ih, r.size_eq, contents_cons, total_append]
    exact (UInt64.ofNat_add _ _).symm

theorem toNat_sizeOf {rs : List DataRecord} (hfits : total (contents rs) < 2 ^ 64) :
    (sizeOf rs).toNat = total (contents rs) := by
  rw [sizeOf_eq]
  exact UInt64.toNat_ofNat_of_lt' hfits

theorem contents_eq_nil {rs : List DataRecord} (hzero : total (contents rs) = 0) :
    contents rs = [] := by
  refine List.eq_nil_iff_forall_not_mem.mpr fun d hd => ?_
  obtain ⟨r, -, hr⟩ := List.mem_flatMap.mp hd
  have hpos := r.size_pos d hr
  have hnone := List.sum_eq_zero_iff_forall_eq_nat.mp hzero _ (List.mem_map.mpr ⟨d, hd, rfl⟩)
  omega

end Data

/-! ## Builders -/

open Cells Work Data

namespace DataBuilder

variable {E : Fault → Prop} {p q u : DataPool} {b b' b'' other : DataBuilder} {c : Chain}
  {h t : Handle} {l m n : Cells DataRecord} {r : DataRecord} {x y : List Datum}
  {new more : List DataRecord} {rs : List DataRecord}

/-- A builder with more content, in records that are new for it or stand for bytes. -/
structure Lengthens (b : DataBuilder) (l : Cells DataRecord) (x : List Datum)
    (new : List DataRecord) (b' : DataBuilder) (m : Cells DataRecord) : Prop where
  pointerSize_eq : b'.pointerSize = b.pointerSize
  content : total (contents (items l) ++ x) < 2 ^ 64 →
    contents (items m) = contents (items l) ++ x
  origin : ∀ r ∈ items m, r ∈ items l ∨ r ∈ new ∨ r.IsLiteral

/-- What is left by work that owned the cells `l` of a builder, and appended content. -/
structure Adds (p : DataPool) (b : DataBuilder) (l : Cells DataRecord) (x : List Datum)
    (new : List DataRecord) (q : DataPool) (b' : DataBuilder) (m : Cells DataRecord) : Prop
    extends Built p l q b'.chain m, Lengthens b l x new b' m

theorem adds_nil (hp : p.WF) (hb : Builds p b.chain l) (new : List DataRecord) :
    Adds p b l [] new p b l :=
  ⟨hb.built hp, rfl, fun _ => (append_nil _).symm, fun _ hr => .inl hr⟩

theorem Lengthens.trans (hx : Lengthens b l x new b' m) (hy : Lengthens b' m y more b'' n) :
    Lengthens b l (x ++ y) (new ++ more) b'' n where
  pointerSize_eq := hy.pointerSize_eq.trans hx.pointerSize_eq
  content hfits := by
    rw [← append_assoc] at hfits ⊢
    have hfirst := hx.content (by rw [total_append] at hfits; omega)
    rw [hy.content (hfirst ▸ hfits), hfirst]
  origin r hr := by
    rcases hy.origin r hr with hr | hr | hr
    · rcases hx.origin r hr with hr | hr | hr
      · exact .inl hr
      · exact .inr (.inl (mem_append_left _ hr))
      · exact .inr (.inr hr)
    · exact .inr (.inl (mem_append_right _ hr))
    · exact .inr (.inr hr)

theorem Adds.trans (hx : Adds p b l x new q b' m) (hy : Adds q b' m y more u b'' n) :
    Adds p b l (x ++ y) (new ++ more) u b'' n :=
  ⟨hy.toBuilt.after hx.frame, hx.toLengthens.trans hy.toLengthens⟩

/-- Content may be described in another way, if it fits. -/
theorem Adds.of_eq (hx : Adds p b l x new q b' m)
    (hxy : total (contents (items l) ++ y) < 2 ^ 64 → x = y) : Adds p b l y new q b' m :=
  { hx with content := fun hfits => hxy hfits ▸ hx.content (hxy hfits ▸ hfits) }

theorem Adds.of_subset (hx : Adds p b l x new q b' m) (hnew : new ⊆ more) :
    Adds p b l x more q b' m :=
  { hx with origin := fun r hr => (hx.origin r hr).imp_right fun h => h.imp_left fun h => hnew h }

/-! ## Single records -/

section

variable (hp : p.WF)
include hp

theorem push_adds (hb : Builds p b.chain l) (r : DataRecord) :
    (b.push r).Gives E p fun result q => ∃ m, Adds p b l r.content [r] q result.2 m := by
  refine .bind (push_gives hp hb r) fun result q hq => .pure ⟨_, hq, rfl, fun _ => ?_, ?_⟩
  · simp
  · simp only [items_append, items_cons, items_nil, mem_append]
    exact fun s hs => hs.imp_right .inl

/-- A record that stands for bytes is none of those that have to be told. -/
theorem push_literal (hb : Builds p b.chain l) (hr : r.IsLiteral) :
    (b.push r).Gives E p fun result q => ∃ m, Adds p b l r.content [] q result.2 m :=
  (push_adds hp hb r).imp fun _ _ ⟨m, hm⟩ => ⟨m, { hm with
    origin := fun s hs => (hm.origin s hs).imp_right fun h =>
      .inr (h.elim (fun h => mem_singleton.mp h ▸ hr) fun h => h) }⟩

theorem bytes_adds (hb : Builds p b.chain l) (bs : List UInt8) :
    (b.bytes bs).Gives E p fun result q => ∃ m, Adds p b l (literal bs) [] q result.2 m := by
  rw [bytes]
  by_cases hbs : bs = []
  · subst hbs
    exact .pure ⟨l, adds_nil hp hb []⟩
  · rw [if_neg (by simpa using hbs), ← content_ofBytes bs]
    exact .bind (push_literal hp hb (isLiteral_ofBytes bs)) fun _ _ hq => .pure hq

theorem grow_adds {f : DataRecord → DataRecord} {run size : UInt64}
    (hb : Builds p b.chain (l ++ [(t, .zeros run)])) (hf : f (.zeros run) = .zeros (run + size)) :
    (ChainWork.modifyItem t f).Gives E p fun _ q =>
      ∃ m, Adds p b (l ++ [(t, .zeros run)]) (literal (replicate size.toNat 0)) [] q b m := by
  refine (modifyItem_gives (f := f) hp hb).imp fun _ q hq =>
    ⟨_, hq, rfl, fun hfits => ?_, fun r hr => ?_⟩
  · have hsum : (run + size).toNat = run.toNat + size.toNat := by
      simp only [items_append, items_cons, items_nil, contents_append, contents_cons, contents_nil,
        total_append, content, total_literal, length_replicate] at hfits
      rw [UInt64.toNat_add, Nat.mod_eq_of_lt (by omega)]
    simp only [items_append, items_cons, items_nil, contents_append, contents_cons, contents_nil,
      append_nil, append_assoc, hf, content, hsum, ← literal_append,
      replicate_append_replicate]
  · simp only [items_append, items_cons, items_nil, mem_append, mem_singleton, hf] at hr ⊢
    rcases hr with hr | rfl
    · exact .inl (.inl hr)
    · exact .inr (.inr trivial)

theorem zeros_adds (hb : Builds p b.chain l) (size : UInt64) :
    (b.zeros size).Gives E p fun b' q =>
      ∃ m, Adds p b l (literal (replicate size.toNat 0)) [] q b' m := by
  rw [zeros]
  have hpush : (do return (← b.push (.zeros size)).2 : DataWork DataBuilder).Gives E p fun b' q =>
      ∃ m, Adds p b l (literal (replicate size.toNat 0)) [] q b' m :=
    .bind (push_literal hp hb (r := .zeros size) trivial) fun _ _ hq => .pure hq
  by_cases hsize : size = 0
  · rw [if_pos hsize, hsize]
    exact .pure ⟨l, adds_nil hp hb []⟩
  rw [if_neg hsize]
  cases hlast : b.chain.last with
  | none => exact hpush
  | some tail =>
    obtain ⟨before, r, rfl⟩ := hb.last_cell hlast
    obtain ⟨e, -, hcell⟩ := hb.spans.split
    cases hcell with
    | cons hget _ =>
      refine .after (record_run hget) ?_
      cases r with
      | zeros run => exact .bind (grow_adds hp hb rfl) fun _ _ hq => .pure hq
      | _ => exact hpush

theorem number_adds (hb : Builds p b.chain l) (width : Nat) (n : UInt64) :
    (b.number width n).Gives E p fun b' q =>
      ∃ m, Adds p b l (literal (Text.littleEndian width n)) [] q b' m := by
  rw [number]
  by_cases hn : n = 0
  · rw [if_pos hn, hn]
    refine (zeros_adds hp hb width.toUInt64).imp fun b' q ⟨m, hm⟩ => ⟨m, hm.of_eq fun hfits => ?_⟩
    rw [total_append, total_literal, Text.length_littleEndian] at hfits
    have hlt : width < 2 ^ 64 := by omega
    have hwidth : width.toUInt64.toNat = width := UInt64.toNat_ofNat_of_lt' hlt
    rw [hwidth, Text.littleEndian_zero]
  · rw [if_neg hn]
    exact .bind (bytes_adds hp hb _) fun _ _ hq => .pure hq

theorem address_adds (hb : Builds p b.chain l) (s : ObjectSymbolId) (offset : UInt64) :
    (b.address s offset).Gives E p fun result q => ∃ m, Adds p b l
      (field b.pointerSize (.symbol s) offset) [.address b.pointerSize s offset] q result.2 m :=
  push_adds hp hb _

/-! ## Whole chains -/

theorem append_adds (hb : Builds p b.chain l) (hother : Builds p other.chain m)
    (hapart : ∀ h ∈ handles m, h ∉ handles l) :
    (b.append other).Gives E p fun b' q => Adds p b (l ++ m) [] [] q b' (l ++ m) := by
  exact .bind (append_gives hp hb hother hapart) fun _ _ hq =>
    .pure ⟨hq, rfl, fun _ => (append_nil _).symm, fun _ hr => .inl hr⟩

theorem appendChain_adds (hb : Builds p b.chain l) (hm : Spans p c m)
    (hapart : ∀ h ∈ handles m, h ∉ handles l) :
    (b.appendChain c).Gives E p fun b' q => Adds p b (l ++ m) [] [] q b' (l ++ m) := by
  exact .bind (appendChain_gives hp hb hm hapart) fun _ _ hq =>
    .pure ⟨hq, rfl, fun _ => (append_nil _).symm, fun _ hr => .inl hr⟩

theorem pushAll_adds (hb : Builds p b.chain l) :
    (b.pushAll rs).Gives E p fun b' q => ∃ m, Adds p b l (contents rs) rs q b' m := by
  induction rs generalizing p b l with
  | nil => exact .pure ⟨l, adds_nil hp hb []⟩
  | cons r rs ih =>
    refine .bind (push_adds hp hb r) fun result q ⟨m, hm⟩ => ?_
    exact (ih hm.wf hm.toBuilds).imp fun _ _ ⟨n, hn⟩ => ⟨n, hm.trans hn⟩

end

theorem isZeroRun_gives (hm : Spans p c m) :
    (isZeroRun c).Gives E p fun isZero q =>
      q = p ∧ (isZero = true → ∃ h size, m = [(h, .zeros size)]) := by
  cases hm with
  | nil => exact .pure ⟨rfl, nofun⟩
  | @cons h r next m hget hrest =>
    refine .after (record_run hget) (.pure ⟨rfl, fun hzero => ?_⟩)
    cases r with
    | zeros size =>
      cases hrest with
      | nil => exact ⟨h, size, rfl⟩
      | cons _ _ => exact nomatch hzero
    | _ => exact nomatch hzero

theorem repeatZeros_adds (hp : p.WF) (hb : Builds p b.chain l) (size : UInt64) :
    (b.repeatZeros size).Gives E p fun b' q =>
      ∃ m, Adds p b l (literal (replicate size.toNat 0)) [] q b' m := by
  rw [repeatZeros]
  have hspans := hb.spans
  cases hfirst : b.chain.first with
  | none => exact zeros_adds hp hb size
  | some h =>
    rw [hfirst] at hspans
    refine .bind (isZeroRun_gives hspans) fun isZero q ⟨hq, hzero⟩ => ?_
    subst hq
    by_cases hrun : isZero
    · rw [if_pos hrun]
      obtain ⟨k, run, rfl⟩ := hzero hrun
      obtain rfl : h = k := by
        cases hspans
        rfl
      exact .bind (grow_adds (l := []) hp hb rfl) fun _ _ hq => .pure hq
    · rw [if_neg hrun]
      exact zeros_adds hp hb size

theorem flatten_ok (hrs : ∀ r ∈ rs, r.IsPlain) (hflat : rs.any isPointer = false) :
    ∃ bs, flatten rs = .ok bs ∧ literal bs = contents rs := by
  induction rs with
  | nil => exact ⟨[], rfl, rfl⟩
  | cons r rs ih =>
    rw [any_cons, Bool.or_eq_false_iff] at hflat
    obtain ⟨bs, hbs, hcontents⟩ := ih (fun s hs => hrs s (mem_cons_of_mem _ hs)) hflat.2
    have hr := hrs r mem_cons_self
    rw [flatten, hbs, contents_cons, ← hcontents]
    cases r with
    | zeros size => exact ⟨_, rfl, literal_append _ _⟩
    | inline bytes => exact ⟨_, rfl, literal_append _ _⟩
    | bytes bytes => exact ⟨_, rfl, literal_append _ _⟩
    | common size => exact hr.elim
    | _ => simp [isPointer] at hflat

/-- Copies whose size fits are copies of records whose size fits. -/
theorem total_of_copies {count : UInt64} (hcount : count ≠ 0)
    (hfits : total (contents (items l) ++ copies count.toNat x) < 2 ^ 64) : total x < 2 ^ 64 := by
  have hpos : 1 ≤ count.toNat := by
    rcases Nat.eq_zero_or_pos count.toNat with h | h
    · exact absurd (UInt64.toNat_inj.mp h) hcount
    · exact h
  rw [total_append, total_copies] at hfits
  have hle := Nat.mul_le_mul_right (total x) hpos
  omega

/-- All forms of repeated data have the same content. -/
theorem repeatChain_adds (hp : p.WF) (hb : Builds p b.chain l) (hm : Spans p c m)
    (hplain : ∀ r ∈ items m, r.IsPlain) (count : UInt64) :
    (b.repeatChain c count).Gives E p fun b' q =>
      ∃ n, Adds p b l (copies count.toNat (contents (items m))) (items m) q b' n := by
  rw [repeatChain]
  by_cases hcount : count = 0
  · rw [if_pos hcount, hcount]
    exact .pure ⟨l, adds_nil hp hb _⟩
  rw [if_neg hcount]
  refine .after (items_run hp hm) ?_
  by_cases hsize : Data.sizeOf (items m) = 0
  · rw [if_pos hsize]
    refine .pure ⟨l, (adds_nil hp hb _).of_eq fun hfits => ?_⟩
    have htotal := toNat_sizeOf (total_of_copies hcount hfits)
    rw [hsize] at htotal
    rw [contents_eq_nil htotal.symm]
    simp [copies]
  rw [if_neg hsize]
  refine .bind (isZeroRun_gives hm) ?_
  rintro isZero _ ⟨rfl, hzero⟩
  by_cases hrun : isZero
  · rw [if_pos hrun]
    obtain ⟨k, run, rfl⟩ := hzero hrun
    refine (repeatZeros_adds hp hb _).imp ?_
    rintro b' q ⟨n, hn⟩
    refine ⟨n, (hn.of_eq fun hfits => ?_).of_subset (nil_subset _)⟩
    have hsum : Data.sizeOf [.zeros run] = run := by simp [Data.sizeOf, DataRecord.size]
    simp only [items_cons, items_nil, contents_cons, contents_nil, append_nil,
      content, total_append, total_copies, total_literal, length_replicate] at hfits
    simp only [hsum, items_cons, items_nil, contents_cons, contents_nil, append_nil,
      content, copies_zeros]
    rw [UInt64.toNat_mul, Nat.mod_eq_of_lt (by rw [Nat.mul_comm]; omega)]
  rw [if_neg hrun]
  by_cases hpointers : (items m).any isPointer
  · rw [if_pos hpointers]
    refine (pushAll_adds hp hb).imp ?_
    rintro b' q ⟨n, hn⟩
    refine ⟨n, (hn.of_eq fun _ => contents_copies _ _).of_subset fun r hr => ?_⟩
    obtain ⟨copy, hcopy, hr⟩ := mem_flatten.mp hr
    exact eq_of_mem_replicate hcopy ▸ hr
  · rw [if_neg hpointers]
    obtain ⟨bs, hbs, hcontents⟩ := flatten_ok hplain (by simpa using hpointers)
    rw [hbs]
    refine .after (run_pure bs _) (.bind (push_literal hp hb trivial) ?_)
    rintro result q ⟨n, hn⟩
    · refine .pure ⟨n, (hn.of_eq fun _ => ?_).of_subset (nil_subset _)⟩
      rw [← hcontents]
      simp [content, literal, copies]

theorem size_run (hp : p.WF) (hb : Builds p b.chain l) :
    b.size.run p = (.ok (total (contents (items l))).toUInt64, p) := by
  rw [size, Data.size, run_bind (items_run hp hb.spans), run_pure, sizeOf_eq]

/-! ## Finished descriptions -/

/-- What is left by work that merges zeros of the cells `l` of a chain. -/
structure Merges (p : DataPool) (l : Cells DataRecord) (q : DataPool) (c : Chain)
    (m : Cells DataRecord) : Prop where
  wf : q.WF
  spans : Spans q c m
  frame : Frame p l q m
  content : total (contents (items l)) < 2 ^ 64 → contents (items m) = contents (items l)
  origin : ∀ r ∈ items m, r ∈ items l ∨ r.IsLiteral

theorem merges_refl (hp : p.WF) (hl : Spans p c l) : Merges p l p c l :=
  ⟨hp, hl, .refl p l, fun _ => rfl, fun _ hr => .inl hr⟩

theorem merge_gives {next : Handle} {behind : Chain} {run size : UInt64} (hp : p.WF)
    (hl : Spans p (some h) ((h, .zeros run) :: (next, .zeros size) :: l))
    (hnext : p.get? next = some ⟨.zeros size, behind⟩) :
    (do
      ChainWork.modifyRecord h fun _ => ⟨.zeros (run + size), behind⟩
      ChainWork.remove next : DataWork (Linked DataRecord)).Gives E p fun _ q =>
      Merges p ((h, .zeros run) :: (next, .zeros size) :: l) q (some h)
        ((h, .zeros (run + size)) :: l) := by
  obtain ⟨hh, hnl, -⟩ : h ∉ next :: handles l ∧ next ∉ handles l ∧ (handles l).Nodup := by
    simpa only [handles_cons, nodup_cons] using hl.nodup
  obtain ⟨hne, hhl⟩ : h ≠ next ∧ h ∉ handles l := by simpa using hh
  cases hl with
  | cons hget hrest =>
    cases hrest with
    | cons hget' hrest' =>
      obtain rfl := (Linked.mk.inj (Option.some.inj (hnext.symm.trans hget'))).2
      have hlive := Pool.contains_of_get? hget
      refine .after (modifyRecord_run hget _) ((remove_gives (hp.set hlive) (by
        rw [Pool.get?_set hlive, if_neg hne.symm, hget'])).imp fun _ q ⟨hq, hcount, hlookup⟩ => ?_)
      have hother : ∀ k, k ≠ h → k ≠ next → q.get? k = p.get? k := fun k hkh hkn => by
        rw [hlookup, if_neg hkn, Pool.get?_set hlive, if_neg hkh]
      refine ⟨hq, ?_, ⟨fun k r hr hk => ⟨?_, ?_⟩, ?_⟩, fun hfits => ?_, fun r hr => ?_⟩
      · refine .cons ?_ (hrest'.congr fun k hk => hother k ?_ ?_)
        · rw [hlookup, if_neg hne, Pool.get?_set hlive, if_pos rfl]
        · exact fun hkh => hhl (hkh ▸ hk)
        · exact fun hkn => hnl (hkn ▸ hk)
      · simp only [handles_cons, mem_cons, not_or] at hk
        exact (hother k hk.1 hk.2.1).trans hr
      · simp only [handles_cons, mem_cons, not_or] at hk ⊢
        exact ⟨hk.1, hk.2.2⟩
      · rw [Pool.live_set] at hcount
        simp only [length_cons]
        omega
      · simp only [items_cons, contents_cons, content, total_append, total_literal,
          length_replicate] at hfits
        have hsum : (run + size).toNat = run.toNat + size.toNat := by
          rw [UInt64.toNat_add, Nat.mod_eq_of_lt (by omega)]
        simp only [items_cons, contents_cons, content, hsum, ← append_assoc,
          ← literal_append, replicate_append_replicate]
      · rcases mem_cons.mp hr with rfl | hr
        · exact .inr trivial
        · exact .inl (mem_cons_of_mem _ (mem_cons_of_mem _ hr))

theorem Merges.trans {d : Chain} (hlm : Merges p l q c m) (hmn : Merges q m u d n) :
    Merges p l u d n :=
  ⟨hmn.wf, hmn.spans, hlm.frame.trans hmn.frame, fun hfits => by
    have hm := hlm.content hfits
    rw [hmn.content (hm ▸ hfits), hm], fun r hr => (hmn.origin r hr).elim (hlm.origin r) .inr⟩

theorem mergeZeros_merges {steps : Nat} (hp : p.WF) (hl : Spans p (some h) l) :
    (mergeZeros h steps).Gives E p fun _ q => ∃ m, Merges p l q (some h) m := by
  induction steps generalizing p l with
  | zero => exact .pure ⟨l, merges_refl hp hl⟩
  | succ steps ih =>
    have hdone : ∃ m, Merges p l p (some h) m := ⟨l, merges_refl hp hl⟩
    have hwhole := hl
    cases hl with
    | @cons _ r _ l hget hrest =>
      refine .after (record_run hget) ?_
      dsimp only
      split
      · next run next =>
        cases hrest with
        | @cons _ s behind l hget' hrest' =>
          refine .after (record_run hget') ?_
          dsimp only
          split
          · next size =>
            -- One more run is merged; what follows is the same work on a shorter chain.
            rw [← bind_assoc]
            refine .bind (merge_gives hp hwhole hget') fun _ q hq => ?_
            exact (ih hq.wf hq.spans).imp fun _ _ ⟨m, hm⟩ => ⟨m, hq.trans hm⟩
          · exact .pure hdone
      · exact .pure hdone

theorem finish_merges (hp : p.WF) (hb : Builds p b.chain l) :
    b.finish.Gives E p fun c q => ∃ m, Merges p l q c m := by
  have hspans := hb.spans
  rw [finish]
  cases hfirst : b.chain.first with
  | none =>
    rw [hfirst] at hspans
    exact .pure ⟨l, merges_refl hp hspans⟩
  | some h =>
    rw [hfirst] at hspans
    exact .after (run_get p) (.bind (mergeZeros_merges hp hspans) fun _ _ hq => .pure hq)

end DataBuilder

/-! ## Records that can be written -/

/-- Whether a record can be written with a table of so many symbols. -/
def DataRecord.Writable (count : Nat) : DataRecord → Prop
  | common _ => False
  | address _ s _ => s.index < count
  | _ => True

variable {r : DataRecord}

/-- Whether it is written without a fault into any file: it does not point to bytes. -/
def DataRecord.Safe (count : Nat) : DataRecord → Prop
  | constant _ _ _ => False
  | r => r.Writable count

theorem DataRecord.IsLiteral.safe (hr : r.IsLiteral) (count : Nat) : r.Safe count := by
  cases r <;> trivial

theorem DataRecord.Safe.writable {count : Nat} (hr : r.Safe count) : r.Writable count := by
  cases r <;> trivial

theorem DataRecord.Writable.isPlain {count : Nat} (hr : r.Writable count) : r.IsPlain := by
  cases r <;> trivial

end DCompiler
