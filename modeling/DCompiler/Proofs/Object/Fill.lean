import DCompiler.Proofs.Object.Assembly

/-!
# Filling in the fields of a symbol

References of all kinds wait for their symbols in fields that do not overlap. What becomes of the
fields of a symbol is said once (`Fills`): each holds a number, those that cannot hold a distance
get one relocation each, and all other bytes stay. One field is filled in by a write
(`Fixup.put_eq`), and more of them by induction, since a later write leaves an earlier field alone.

The table of waiting fields is described by the references that were made (`Queued`): symbols stand
in the order of their first references, and each has its fields in the order in which they came.
-/

namespace DCompiler

open Work List ObjectFile FixupTable Text Fixup

namespace Fixup

variable {s : ObjectSymbol} {f f' : ObjectFile} {x y : Fixup}

/-! ## Places of fields -/

/-- The byte at an offset of a segment is in the field. -/
def Covers (x : Fixup) (g : Segment) (k : Nat) : Prop :=
  x.segment = g ∧ x.offset.toNat ≤ k ∧ k < x.offset.toNat + x.width

/-- The fields are in different segments, or one of them ends where the other starts or before. -/
def Apart (x y : Fixup) : Prop :=
  x.segment ≠ y.segment ∨ x.offset.toNat + x.width ≤ y.offset.toNat ∨
    y.offset.toNat + y.width ≤ x.offset.toNat

instance : DecidableRel Apart := fun x y =>
  inferInstanceAs (Decidable (x.segment ≠ y.segment ∨ _))

theorem Apart.symm (hxy : x.Apart y) : y.Apart x := hxy.imp Ne.symm Or.symm

theorem Apart.not_covers (hxy : x.Apart y) {g : Segment} {k : Nat} (hx : x.Covers g k) :
    ¬ y.Covers g k := by
  rintro ⟨hy, hylo, hyhi⟩
  obtain ⟨hsegment, hxlo, hxhi⟩ := hx
  rcases hxy with h | h
  · exact h (hsegment.trans hy.symm)
  · omega

def bytes (x : Fixup) (f : ObjectFile) : List UInt8 :=
  ((f.segment x.segment).drop x.offset.toNat).take x.width

/-- The field is in the file, and as wide as its flags say. -/
structure Fits (f : ObjectFile) (x : Fixup) : Prop where
  inside : x.offset.toNat + x.width ≤ (f.segment x.segment).length
  width_eq : x.width = f.fieldWidth x.flags

theorem bytes_congr (hsame : ∀ k, x.Covers x.segment k →
    (f'.segment x.segment)[k]? = (f.segment x.segment)[k]?) : x.bytes f' = x.bytes f := by
  apply ext_getElem?
  intro k
  by_cases hk : k < x.width
  · simp only [bytes, getElem?_take_of_lt hk, getElem?_drop]
    exact hsame _ ⟨rfl, by omega, by omega⟩
  · simp only [bytes, getElem?_take, if_neg hk]

theorem length_bytes (hx : x.Fits f) : (x.bytes f).length = x.width := by
  have hinside := hx.inside
  simp only [bytes, length_take, length_drop]
  omega

theorem Apart.place_ne (hxy : x.Apart y) (hx : 0 < x.width) (hy : 0 < y.width) :
    ¬ (x.segment = y.segment ∧ x.offset = y.offset) := by
  rintro ⟨hsegment, hoffset⟩
  rcases hxy with h | h
  · exact h hsegment
  · rw [hoffset] at h
    omega

/-! ## What a field holds -/

/-- The distance to a symbol in arithmetic that wraps around. -/
def way (x : Fixup) (s : ObjectSymbol) : Int64 :=
  s.offset.toInt64 - (x.offset + x.width.toUInt64).toInt64 + x.addend

/-- The field should hold a distance, and there is a fault in its computation. -/
def Misses (x : Fixup) (s : ObjectSymbol) (e : Fault) : Prop :=
  x.isLocal s ∧ x.distance s = .error e

/-- The word whose low bytes the field of a symbol holds. -/
def word (x : Fixup) (s : ObjectSymbol) : UInt64 :=
  if x.isLocal s then (x.way s).toUInt64 else x.addend.toUInt64

/-- The number that the field of a symbol stands for: the way from behind the field to the symbol,
or the addend alone. -/
def value (x : Fixup) (s : ObjectSymbol) : Int :=
  if x.isLocal s then s.offset.toNat - (x.offset.toNat + x.width) + x.addend.toInt
  else x.addend.toInt

def relocation (x : Fixup) (s : ObjectSymbol) : Relocation :=
  ⟨x.segment, x.offset, .symbol s.name, x.addend, x.width, x.flags.contains .selfRelative⟩

/-- The relocations at the field of a symbol: none if it holds a distance. -/
def relocations (x : Fixup) (s : ObjectSymbol) : List Relocation :=
  if x.isLocal s then [] else [x.relocation s]

theorem toNat_word (x : Fixup) (s : ObjectSymbol) :
    ((x.word s).toNat : Int) = x.value s % 2 ^ 64 := by
  unfold word value
  split
  · rw [way, toNat_distance, UInt64.toNat_add]
    have hwidth : x.width.toUInt64.toNat = x.width % 2 ^ 64 := UInt64.toNat_ofNat
    omega
  · exact toNat_toUInt64 x.addend

theorem ofLittleEndian_word (hwidth : x.width ≤ 8) :
    (ofLittleEndian (littleEndian x.width (x.word s)) : Int) =
      x.value s % 2 ^ (8 * x.width) :=
  ofLittleEndian_of_emod hwidth (toNat_word x s)

/-- The file with the field of a symbol filled in. -/
def put (s : ObjectSymbol) (f : ObjectFile) (x : Fixup) : ObjectFile :=
  if x.isLocal s then f.write x.segment x.offset (littleEndian x.width (x.word s))
  else f.referToSymbol x.segment x.offset s.name x.addend x.flags

theorem put_eq (hwidth : x.width = f.fieldWidth x.flags) (s : ObjectSymbol) :
    put s f x = { f.write x.segment x.offset (littleEndian x.width (x.word s)) with
      relocations := f.relocations ++ x.relocations s } := by
  unfold put word relocations
  split
  · rw [append_nil]
    rfl
  · rw [referToSymbol, ← hwidth]
    rfl

/-- Without a fault the distance is the one that wraps around. -/
theorem distance_cases (x : Fixup) (s : ObjectSymbol) :
    x.distance s = .ok (x.way s) ∨ ∃ e, x.distance s = .error e := by
  unfold distance
  rcases Fault.wordOr_cases .sumOverflow (x.offset.toNat + x.width) with ⟨h, -⟩ | ⟨h, -⟩ <;> rw [h]
  · simp only [bind, Except.bind]
    have hbehind : (x.offset.toNat + x.width).toUInt64 = x.offset + x.width.toUInt64 := by simp
    generalize (x.offset.toNat + x.width).toUInt64 = behind at hbehind
    rcases Fault.signedWordOr_cases .differenceOverflow
      (s.offset.toInt64.toInt - behind.toInt64.toInt) with ⟨h, -⟩ | ⟨h, -⟩ <;> rw [h]
    · rcases Fault.signedWordOr_cases .sumOverflow
        ((Int64.ofInt (s.offset.toInt64.toInt - behind.toInt64.toInt)).toInt + x.addend.toInt)
        with ⟨h, -⟩ | ⟨h, -⟩
      · refine .inl (h.trans (congrArg Except.ok ?_))
        rw [Int64.ofInt_add, Int64.ofInt_toInt, Int64.ofInt_sub, Int64.ofInt_toInt,
          Int64.ofInt_toInt, Int64.ofInt_toInt, hbehind, way]
      · exact .inr ⟨_, h⟩
    · exact .inr ⟨_, rfl⟩
  · exact .inr ⟨_, rfl⟩

/-- There is no fault in the distances of a file of some size. -/
theorem not_misses {e : Fault} (hx : x.offset.toNat + x.width < 2 ^ 63) (haddend : x.addend = 0)
    (hs : s.offset.toNat < 2 ^ 63) : ¬ x.Misses s e := by
  rintro ⟨-, hmiss⟩
  have hsmall {w : UInt64} (hw : w.toNat < 2 ^ 63) : w.toInt64.toInt = w.toNat := by
    have hbits : w.toInt64.toInt = w.toBitVec.toInt := rfl
    have hhalf : 2 * w.toBitVec.toNat < 2 ^ 64 := Nat.mul_lt_mul_of_pos_left hw (by decide)
    rw [hbits, BitVec.toInt_eq_toNat_of_lt hhalf]
    rfl
  have hbehind : (x.offset.toNat + x.width).toUInt64.toNat = x.offset.toNat + x.width :=
    toNat_offset (by omega)
  rw [distance, Fault.wordOr, if_pos (by omega)] at hmiss
  simp only [bind, Except.bind, hsmall hs, hsmall (hbehind ▸ hx), hbehind] at hmiss
  rw [Fault.signedWordOr, if_pos (by omega)] at hmiss
  simp only [haddend] at hmiss
  rw [Int64.toInt_ofInt_of_le (by omega) (by omega), Fault.signedWordOr, if_pos (by simp; omega)]
    at hmiss
  cases hmiss

theorem apply_cases (s : ObjectSymbol) (f : ObjectFile) (x : Fixup) :
    apply s f x = .ok (put s f x) ∧ (∀ e, ¬ x.Misses s e) ∨
      ∃ e, apply s f x = .error e ∧ x.Misses s e := by
  unfold apply put word Misses
  by_cases hlocal : x.isLocal s
  · rcases x.distance_cases s with hway | ⟨e, he⟩
    · exact .inl (by simp [hlocal, hway])
    · exact .inr ⟨e, by simp [hlocal, he]⟩
  · exact .inl (by simp [hlocal]; rfl)

end Fixup

/-! ## Files with fields filled in -/

/-- The file `f'` is the file `f` with fields of a symbol written to. -/
structure Touches (s : ObjectSymbol) (xs : List Fixup) (f f' : ObjectFile) : Prop where
  relocations : f'.relocations = f.relocations ++ xs.flatMap (·.relocations s)
  outside : ∀ g k, (∀ x ∈ xs, ¬ x.Covers g k) → (f'.segment g)[k]? = (f.segment g)[k]?
  length : ∀ g, (f'.segment g).length = (f.segment g).length
  rest : f' = { f with segments := f'.segments, relocations := f'.relocations }

/-- The file `f'` is the file `f` with fields of a symbol filled in. -/
structure Fills (s : ObjectSymbol) (xs : List Fixup) (f f' : ObjectFile) : Prop
    extends Touches s xs f f' where
  fields : ∀ x ∈ xs, x.bytes f' = littleEndian x.width (x.word s)

section Fills

variable {s : ObjectSymbol} {f f' f'' : ObjectFile} {x : Fixup} {xs : List Fixup}

theorem fieldWidth_congr (hsize : f'.pointerSize = f.pointerSize) (flags : CodeFlags) :
    f'.fieldWidth flags = f.fieldWidth flags := by
  rw [fieldWidth, fieldWidth, hsize]

theorem Fixup.Fits.of_length (hx : x.Fits f) (hsize : f'.pointerSize = f.pointerSize)
    (hlength : ∀ g, (f.segment g).length ≤ (f'.segment g).length) : x.Fits f' :=
  ⟨Nat.le_trans hx.inside (hlength _), hx.width_eq.trans (fieldWidth_congr hsize _).symm⟩

theorem ObjectFile.Grows.fits (hf : f.Grows f') (hx : x.Fits f) : x.Fits f' :=
  hx.of_length hf.pointerSize hf.length

theorem Touches.pointerSize (hf : Touches s xs f f') : f'.pointerSize = f.pointerSize := by
  rw [hf.rest]

theorem Touches.fits (hf : Touches s xs f f') (hx : x.Fits f) : x.Fits f' :=
  hx.of_length hf.pointerSize fun g => Nat.le_of_eq (hf.length g).symm

theorem touches_nil (s : ObjectSymbol) (f : ObjectFile) : Touches s [] f f :=
  ⟨(append_nil _).symm, fun _ _ _ => rfl, fun _ => rfl, rfl⟩

theorem touches_put (hx : x.Fits f) (s : ObjectSymbol) : Touches s [x] f (put s f x) := by
  have hinside := hx.inside
  rw [put_eq hx.width_eq]
  refine ⟨by simp, fun g k hk => ?_, fun g => ?_, rfl⟩
  · refine getElem?_write_outside (by omega) fun hg => ?_
    have hout := hk x mem_cons_self
    simp only [Covers, hg, true_and, not_and, Nat.not_lt] at hout
    rw [length_littleEndian]
    by_cases hoffset : x.offset.toNat ≤ k
    · exact .inr (hout hoffset)
    · exact .inl (by omega)
  · show ((f.write x.segment x.offset _).segment g).length = _
    rw [segment_write]
    by_cases hg : g = x.segment
    · subst hg
      rw [if_pos rfl, length_writeAt, length_littleEndian]
      omega
    · rw [if_neg hg]

theorem bytes_put (hx : x.Fits f) (s : ObjectSymbol) :
    x.bytes (put s f x) = littleEndian x.width (x.word s) := by
  rw [put_eq hx.width_eq]
  apply ext_getElem?
  intro k
  by_cases hk : k < x.width
  · simp only [Fixup.bytes, getElem?_take_of_lt hk, getElem?_drop]
    exact getElem?_write_inside (by simpa using hk)
  · rw [Fixup.bytes, getElem?_take, if_neg hk, getElem?_eq_none (by simp; omega)]

theorem Touches.cons (hx : Touches s [x] f f') (hxs : Touches s xs f' f'') :
    Touches s (x :: xs) f f'' := by
  refine ⟨?_, fun g k hk => ?_, fun g => (hxs.length g).trans (hx.length g), ?_⟩
  · rw [hxs.relocations, hx.relocations, append_assoc]
    simp
  · rw [hxs.outside g k fun y hy => hk y (mem_cons_of_mem _ hy),
      hx.outside g k fun y hy => mem_singleton.mp hy ▸ hk x mem_cons_self]
  · rw [hxs.rest, hx.rest]

theorem touches_foldl (hfits : ∀ x ∈ xs, x.Fits f) (s : ObjectSymbol) :
    Touches s xs f (xs.foldl (put s) f) := by
  induction xs generalizing f with
  | nil => exact touches_nil s f
  | cons x xs ih =>
    have hx := touches_put (hfits x mem_cons_self) s
    exact hx.cons (ih fun y hy => hx.fits (hfits y (mem_cons_of_mem _ hy)))

theorem fills_foldl (hfits : ∀ x ∈ xs, x.Fits f) (hapart : xs.Pairwise Apart)
    (s : ObjectSymbol) : Fills s xs f (xs.foldl (put s) f) := by
  refine ⟨touches_foldl hfits s, ?_⟩
  induction xs generalizing f with
  | nil => exact nofun
  | cons x xs ih =>
    obtain ⟨hhead, htail⟩ := pairwise_cons.mp hapart
    have hx := hfits x mem_cons_self
    have hrest : ∀ y ∈ xs, y.Fits (put s f x) := fun y hy =>
      (touches_put hx s).fits (hfits y (mem_cons_of_mem _ hy))
    intro y hy
    rcases mem_cons.mp hy with rfl | hy
    · -- The later writes leave this field alone.
      have hkept : y.bytes (xs.foldl (put s) (put s f y)) =
          y.bytes (put s f y) := bytes_congr fun k hk =>
        (touches_foldl hrest s).outside y.segment k fun z hz => (hhead z hz).not_covers hk
      exact hkept.trans (bytes_put hx s)
    · exact ih hrest htail y hy

theorem Fixup.Fits.width_mem (hx : x.Fits f) (hsize : f.pointerSize = 4 ∨ f.pointerSize = 8) :
    x.width = 4 ∨ x.width = 8 := by
  rw [hx.width_eq, fieldWidth]
  unfold relocationWidth
  split
  · exact .inl rfl
  · exact hsize

theorem Fills.number (hf : Fills s xs f f') (hsize : f.pointerSize = 4 ∨ f.pointerSize = 8)
    (hx : x ∈ xs) (hfits : x.Fits f) :
    (x.bytes f').length = x.width ∧
      (ofLittleEndian (x.bytes f') : Int) = x.value s % 2 ^ (8 * x.width) := by
  have hwidth := hfits.width_mem hsize
  refine ⟨length_bytes (hf.fits hfits), ?_⟩
  rw [hf.fields x hx]
  exact ofLittleEndian_word (by omega)

theorem filter_relocations {ps : List (Fixup × ObjectSymbol)}
    (hapart : ps.Pairwise fun p q => p.1.Apart q.1) (hwidths : ∀ p ∈ ps, 0 < p.1.width)
    (hx : (x, s) ∈ ps) :
    (ps.flatMap fun p => p.1.relocations p.2).filter
      (fun r => r.segment = x.segment && r.offset = x.offset) = x.relocations s := by
  obtain ⟨front, back, rfl⟩ := append_of_mem hx
  obtain ⟨-, hback, hfront⟩ := pairwise_append.mp hapart
  have hself : (x.relocations s).filter
      (fun r => r.segment = x.segment && r.offset = x.offset) = x.relocations s := by
    unfold Fixup.relocations
    split
    · rfl
    · simp [relocation]
  have hnone : ∀ qs : List (Fixup × ObjectSymbol),
      (∀ p ∈ qs, p ∈ front ++ (x, s) :: back ∧ p.1.Apart x) →
      (qs.flatMap fun p => p.1.relocations p.2).filter
        (fun r => r.segment = x.segment && r.offset = x.offset) = [] := by
    intro qs hqs
    rw [filter_flatMap, flatMap_eq_nil_iff]
    intro p hp
    obtain ⟨hmem, hpx⟩ := hqs p hp
    have hne := hpx.place_ne (hwidths p hmem) (hwidths (x, s) hx)
    unfold Fixup.relocations
    split
    · rfl
    · simpa [relocation] using hne
  rw [flatMap_append, flatMap_cons, filter_append, filter_append, hself,
    hnone front fun p hp => ⟨by simp [hp], hfront p hp (x, s) mem_cons_self⟩,
    hnone back fun p hp => ⟨by simp [hp], ((pairwise_cons.mp hback).1 p hp).symm⟩]
  simp

/-- A field that was filled in gets a relocation of its own, or none. -/
theorem Touches.relocationsAt (hf : Touches s xs f f') (hapart : xs.Pairwise Apart)
    (hwidths : ∀ x ∈ xs, 0 < x.width) (hx : x ∈ xs) :
    f'.relocationsAt x.segment x.offset =
      f.relocationsAt x.segment x.offset ++ x.relocations s := by
  have hown : ((xs.map (·, s)).flatMap fun p => p.1.relocations p.2).filter
      (fun r => r.segment = x.segment && r.offset = x.offset) = x.relocations s :=
    filter_relocations (pairwise_map.mpr hapart) (by simpa using hwidths) (by simpa using hx)
  rw [flatMap_map] at hown
  rw [ObjectFile.relocationsAt, hf.relocations, filter_append, hown]
  rfl

end Fills

/-! ## References -/

structure Reference where
  symbol : ObjectSymbolId
  segment : Segment
  offset : UInt64
  addend : Int64
  flags : CodeFlags
  deriving Repr, DecidableEq

def Reference.fixup (f : ObjectFile) (r : Reference) : Fixup :=
  ⟨r.segment, r.flags, r.offset, r.addend, f.fieldWidth r.flags⟩

namespace Assemble

variable {a b : Assembly} {rs : List Reference} {id : ObjectSymbolId} {s : ObjectSymbol}
  {f : ObjectFile}

def referAll : List Reference → Assemble Unit
  | [] => return
  | r :: rs => do
    let _ ← addFixup r.symbol r.segment r.offset r.addend r.flags
    referAll rs

def withReference (a : Assembly) (r : Reference) : Assembly :=
  { a with
    fixups := a.fixups.add r.symbol (r.fixup a.file)
    file := a.file.write r.segment r.offset (replicate (a.file.fieldWidth r.flags) 0) }

theorem referAll_run (rs : List Reference) (a : Assembly) :
    (referAll rs).run a = (.ok ⟨⟩, rs.foldl withReference a) := by
  induction rs generalizing a with
  | nil => rfl
  | cons r rs ih => exact ih (withReference a r)

/-- The table holds the fields of references, by symbol. -/
structure Queued (rs : List Reference) (f : ObjectFile) (t : FixupTable) : Prop where
  wf : t.WF
  order : t.order = (rs.map (·.symbol)).eraseDups
  waiting : ∀ i, t.waiting i = (rs.filter (·.symbol = i)).map (·.fixup f)

theorem queued_nil (f : ObjectFile) : Queued [] f .empty := ⟨wf_empty, rfl, fun _ => rfl⟩

theorem eraseDups_concat (l : List ObjectSymbolId) (i : ObjectSymbolId) :
    (l ++ [i]).eraseDups = if i ∈ l then l.eraseDups else l.eraseDups ++ [i] := by
  rw [eraseDups_append]
  by_cases hi : i ∈ l
  · have hnone : [i].removeAll l = [] := by simp [removeAll, hi]
    rw [if_pos hi, hnone]
    exact append_nil _
  have hone : [i].removeAll l = [i] := by simp [removeAll, hi]
  rw [if_neg hi, hone]
  rfl

theorem Queued.add {t : FixupTable} (ht : Queued rs f t) (r : Reference) :
    Queued (rs ++ [r]) f (t.add r.symbol (r.fixup f)) := by
  refine ⟨ht.wf.add _ _, ?_, fun i => ?_⟩
  · rw [ht.wf.order_add, map_append, map_singleton, eraseDups_concat, ht.order]
    simp only [mem_eraseDups]
  · rw [waiting_add, ht.waiting, ht.waiting, filter_append, map_append]
    by_cases hi : i = r.symbol
    · simp [hi]
    · simp [hi, Ne.symm hi]

/-- References were made from a file: their fields wait, and are in the file. -/
structure Refers (rs : List Reference) (f : ObjectFile) (a : Assembly) : Prop where
  queued : Queued rs f a.fixups
  pointerSize : a.file.pointerSize = f.pointerSize
  fits : ∀ r ∈ rs, (r.fixup f).Fits a.file

theorem fits_withReference (a : Assembly) (r : Reference) :
    (r.fixup a.file).Fits (withReference a r).file := by
  refine ⟨?_, rfl⟩
  rw [withReference, segment_write, Reference.fixup, if_pos rfl, length_writeAt, length_replicate]
  exact Nat.le_max_right _ _

theorem Refers.add (ha : Refers rs f a) (r : Reference) :
    Refers (rs ++ [r]) f (withReference a r) := by
  have hfixup : r.fixup a.file = r.fixup f := by
    rw [Reference.fixup, Reference.fixup, fieldWidth_congr ha.pointerSize]
  refine ⟨?_, ha.pointerSize, fun q hq => ?_⟩
  · show Queued _ f (a.fixups.add r.symbol (r.fixup a.file))
    rw [hfixup]
    exact ha.queued.add r
  rcases mem_append.mp hq with hq | hq
  · exact (a.file.grows_write ..).fits (ha.fits q hq)
  · rw [mem_singleton.mp hq, ← hfixup]
    exact fits_withReference a r

theorem refers_foldl (ha : Refers rs f a) (qs : List Reference) :
    Refers (rs ++ qs) f (qs.foldl withReference a) := by
  induction qs generalizing rs a with
  | nil => simpa using ha
  | cons q qs ih =>
    have hrest := ih (ha.add q)
    rwa [append_assoc] at hrest

/-! ## Resolving a symbol -/

/-- The file with all fields of a symbol filled in. -/
def filledFile (t : FixupTable) (id : ObjectSymbolId) (s : ObjectSymbol) (f : ObjectFile) :
    ObjectFile :=
  (t.waiting id).reverse.foldl (put s) f

def filled (a : Assembly) (id : ObjectSymbolId) (s : ObjectSymbol) : Assembly :=
  { a with
    fixups := a.fixups.erase id
    file := filledFile a.fixups id s a.file }

theorem fill_cases (t : FixupTable) (id : ObjectSymbolId) (s : ObjectSymbol) (f : ObjectFile) :
    t.fill id s f = .ok (filledFile t id s f) ∧ (∀ x ∈ t.waiting id, ∀ e, ¬ x.Misses s e) ∨
      ∃ e, t.fill id s f = .error e ∧ ∃ x ∈ t.waiting id, x.Misses s e := by
  unfold fill filledFile
  have hmem (x : Fixup) : x ∈ t.waiting id ↔ x ∈ (t.waiting id).reverse := mem_reverse.symm
  simp only [hmem]
  generalize (t.waiting id).reverse = xs
  induction xs generalizing f with
  | nil => exact .inl ⟨rfl, nofun⟩
  | cons x xs ih =>
    rw [foldlM_cons]
    rcases x.apply_cases s f with ⟨hx, hreach⟩ | ⟨e, hx, hmiss⟩
    · rw [hx]
      exact (ih (x.put s f)).imp (And.imp_right fun h => forall_mem_cons.mpr ⟨hreach, h⟩)
        fun ⟨e, he, y, hy, hmiss⟩ => ⟨e, he, y, mem_cons_of_mem _ hy, hmiss⟩
    · rw [hx]
      exact .inr ⟨e, rfl, x, mem_cons_self, hmiss⟩

theorem resolve_idle (hempty : a.fixups.waiting id = []) : (resolve id).run a = (.ok ⟨⟩, a) := by
  rw [resolve, run_bind (run_get a), if_pos (by simpa using hempty)]
  rfl

theorem resolve_cases (hs : a.symbols.get? id = some s) :
    (resolve id).run a = (.ok ⟨⟩, if a.fixups.waiting id = [] then a else filled a id s) ∧
        (∀ x ∈ a.fixups.waiting id, ∀ e, ¬ x.Misses s e) ∨
      ∃ e, (resolve id).run a = (.error e, a) ∧ ∃ x ∈ a.fixups.waiting id, x.Misses s e := by
  by_cases hempty : a.fixups.waiting id = []
  · exact .inl ⟨by rw [if_pos hempty, resolve_idle hempty], by simp [hempty]⟩
  rw [resolve, run_bind (run_get a), if_neg (by simpa using hempty), if_neg hempty,
    run_bind (symbol_run hs), run_bind (run_get a), run_bind_eq, run_liftExcept]
  refine (fill_cases a.fixups id s a.file).imp (And.imp_left fun h => ?_)
    fun ⟨e, he, hmiss⟩ => ⟨e, ?_, hmiss⟩
  · rw [h]
    rfl
  · rw [he]

theorem resolve_run (hs : a.symbols.get? id = some s)
    (hreach : ∀ x ∈ a.fixups.waiting id, ∀ e, ¬ x.Misses s e) :
    (resolve id).run a =
      (.ok ⟨⟩, if a.fixups.waiting id = [] then a else filled a id s) := by
  rcases resolve_cases hs with ⟨hrun, -⟩ | ⟨e, -, x, hx, hmiss⟩
  · exact hrun
  · exact absurd hmiss (hreach x hx e)

theorem filled_fills (hfits : ∀ x ∈ a.fixups.waiting id, x.Fits a.file)
    (hapart : (a.fixups.waiting id).Pairwise Apart) (s : ObjectSymbol) :
    Fills s (a.fixups.waiting id).reverse a.file (filled a id s).file := by
  refine fills_foldl (fun x hx => hfits x (mem_reverse.mp hx)) ?_ s
  exact pairwise_reverse.mpr (hapart.imp Apart.symm)

/-- What resolving a symbol does: its fields hold their numbers, with a relocation each if they are
not distances, and nothing else changes. -/
structure Resolved (id : ObjectSymbolId) (s : ObjectSymbol) (a b : Assembly) : Prop where
  pending : b.fixups.waiting id = []
  others : ∀ i, i ≠ id → b.fixups.waiting i = a.fixups.waiting i
  order : b.fixups.order = a.fixups.order.filter (· ≠ id)
  numbers : ∀ x ∈ a.fixups.waiting id, (x.bytes b.file).length = x.width ∧
    (ofLittleEndian (x.bytes b.file) : Int) = x.value s % 2 ^ (8 * x.width)
  relocationsAt : ∀ x ∈ a.fixups.waiting id, b.file.relocationsAt x.segment x.offset =
    a.file.relocationsAt x.segment x.offset ++ x.relocations s
  fills : Fills s (a.fixups.waiting id).reverse a.file b.file
  rest : b = { a with fixups := b.fixups, file := b.file }

theorem resolve_resolves (ha : a.fixups.WF)
    (hsize : a.file.pointerSize = 4 ∨ a.file.pointerSize = 8)
    (hfits : ∀ x ∈ a.fixups.waiting id, x.Fits a.file)
    (hapart : (a.fixups.waiting id).Pairwise Apart)
    (hrun : (resolve id).run a =
      (.ok ⟨⟩, if a.fixups.waiting id = [] then a else filled a id s)) :
    ∃ b, (resolve id).run a = (.ok ⟨⟩, b) ∧ Resolved id s a b := by
  by_cases hempty : a.fixups.waiting id = []
  · rw [if_pos hempty] at hrun
    refine ⟨a, hrun, hempty, fun _ _ => rfl, (ha.filter_order hempty).symm, by simp [hempty],
      by simp [hempty], ?_, rfl⟩
    rw [hempty]
    exact ⟨touches_nil s a.file, nofun⟩
  · rw [if_neg hempty] at hrun
    have hfills := filled_fills hfits hapart s
    have hwidth : ∀ x ∈ a.fixups.waiting id, 0 < x.width := fun x hx => by
      have := (hfits x hx).width_mem hsize
      omega
    refine ⟨_, hrun, (waiting_erase ..).trans (if_pos rfl), fun i hi =>
      (waiting_erase ..).trans (if_neg hi), ha.order_erase id, fun x hx => ?_, fun x hx => ?_,
      hfills, rfl⟩
    · exact hfills.number hsize (mem_reverse.mpr hx) (hfits x hx)
    · exact hfills.relocationsAt (pairwise_reverse.mpr (hapart.imp Apart.symm))
        (fun y hy => hwidth y (mem_reverse.mp hy)) (mem_reverse.mpr hx)

/-- After any references whose fields do not overlap, resolving a symbol fills in exactly its
fields. The symbols may have changed in between. It ends with a fault exactly if there is one in
the computation of a distance. -/
theorem resolve_fills_references (a : Assembly) (hfixups : a.fixups = .empty)
    (hsize : a.file.pointerSize = 4 ∨ a.file.pointerSize = 8) (rs : List Reference)
    (hapart : rs.Pairwise fun r q => (r.fixup a.file).Apart (q.fixup a.file))
    (t : ObjectSymbolTable) (hs : t.get? id = some s) :
    ∃ b, (referAll rs).run a = (.ok ⟨⟩, b) ∧ Queued rs a.file b.fixups ∧
      ((∃ c, (resolve id).run { b with symbols := t } = (.ok ⟨⟩, c) ∧
          (∀ x ∈ b.fixups.waiting id, ∀ e, ¬ x.Misses s e) ∧
          Resolved id s { b with symbols := t } c) ∨
        ∃ e, ((resolve id).run { b with symbols := t }).1 = .error e ∧
          ∃ x ∈ b.fixups.waiting id, x.Misses s e) := by
  have hstart : Refers [] a.file a := ⟨hfixups ▸ queued_nil a.file, rfl, nofun⟩
  have hrefers := refers_foldl hstart rs
  have hwaiting := hrefers.queued.waiting id
  generalize hb : rs.foldl withReference a = b at hrefers hwaiting
  have hfits : ∀ x ∈ b.fixups.waiting id, x.Fits b.file := fun x hx => by
    rw [hwaiting] at hx
    obtain ⟨r, hr, rfl⟩ := mem_map.mp hx
    exact hrefers.fits r (mem_filter.mp hr).1
  have hpairs : (b.fixups.waiting id).Pairwise Apart := by
    rw [hwaiting]
    exact pairwise_map.mpr (hapart.sublist filter_sublist)
  refine ⟨b, hb ▸ referAll_run rs a, hrefers.queued, ?_⟩
  rcases resolve_cases (a := { b with symbols := t }) hs with ⟨hrun, hreach⟩ | ⟨e, hrun, hmiss⟩
  · obtain ⟨c, hrun, hc⟩ := resolve_resolves (a := { b with symbols := t }) hrefers.queued.wf
      (hrefers.pointerSize ▸ hsize) hfits hpairs hrun
    exact .inl ⟨c, hrun, hreach, hc⟩
  · exact .inr ⟨e, congrArg Prod.fst hrun, hmiss⟩

/-- A call of a function, a call of another one, and the address of the first one with an addend. -/
def threeReferences : List Reference :=
  [⟨⟨0⟩, .code, 1, 0, .selfRelative⟩, ⟨⟨1⟩, .code, 6, 0, .selfRelative⟩,
    ⟨⟨0⟩, .data, 0, 3, .wideOffset⟩]

/-- The first function, placed at offset 64 of the code. -/
def placedAt64 : ObjectSymbol :=
  { name := "f", cls := .global, segment := some .code, offset := 64, size := 0,
    operandClass := .func }

theorem resolve_fills_threeReferences :
    ∃ b c, (referAll threeReferences).run (.empty 8) = (.ok ⟨⟩, b) ∧
      (resolve ⟨0⟩).run { b with symbols := ⟨#[placedAt64]⟩ } = (.ok ⟨⟩, c) ∧
      b.fixups.order = [⟨0⟩, ⟨1⟩] ∧ c.fixups.order = [⟨1⟩] ∧
      (ofLittleEndian (Fixup.bytes ⟨.code, .selfRelative, 1, 0, 4⟩ c.file) : Int) = 59 ∧
      (ofLittleEndian (Fixup.bytes ⟨.data, .wideOffset, 0, 3, 8⟩ c.file) : Int) = 3 := by
  obtain ⟨b, hb, hqueued, hcases⟩ := resolve_fills_references (.empty 8) rfl (.inr rfl)
    threeReferences (by decide) ⟨#[placedAt64]⟩
    (rfl : ObjectSymbolTable.get? ⟨#[placedAt64]⟩ ⟨0⟩ = some placedAt64)
  have horder : b.fixups.order = [⟨0⟩, ⟨1⟩] := hqueued.order.trans (by decide)
  have hwaiting : b.fixups.waiting ⟨0⟩ =
      [⟨.code, .selfRelative, 1, 0, 4⟩, ⟨.data, .wideOffset, 0, 3, 8⟩] :=
    (hqueued.waiting ⟨0⟩).trans (by decide)
  rw [hwaiting] at hcases
  obtain ⟨c, hc, -, hresolved⟩ | ⟨e, -, x, hx, hlocal, hdistance⟩ := hcases
  · have hnumber := fun x hx => (hresolved.numbers x hx).2
    simp only [hwaiting] at hnumber
    refine ⟨b, c, hb, hc, horder, ?_, ?_, ?_⟩
    · rw [hresolved.order]
      simp only [horder]
      decide
    · exact (hnumber _ mem_cons_self).trans (by decide)
    · exact (hnumber _ (mem_cons_of_mem _ mem_cons_self)).trans (by decide)
  · rcases mem_pair.mp hx with rfl | rfl
    · exact nomatch hdistance
    · exact absurd hlocal (by decide)

/-- The distance from offset 4 to offset 64, plus an addend, is not a signed word. -/
theorem resolve_overflows : ((do
    let _ ← addFixup ⟨0⟩ .code 0 0x7fffffffffffffff .selfRelative
    resolve ⟨0⟩).run { Assembly.empty 8 with symbols := ⟨#[placedAt64]⟩ }).1 =
      .error .sumOverflow := by
  decide

end Assemble

end DCompiler
