import DCompiler.Program
import DCompiler.Proofs.Pool.Chain
import DCompiler.Proofs.Types.Table
import Mathlib.Algebra.GroupWithZero.Nat

/-!
# Sizes of types are exact

Sizes are computed in words of 64 bits. The mathematical size of a type (`Measures`) is a natural
number; a type that contains itself has none. There is a computed size exactly if this number and
those of all that the type contains are below 2⁶⁴, and then both are the same (`byteSize_eq_ok`).
-/

namespace DCompiler

open List

/-- A size and an alignment without a bound. -/
structure Extent where
  size : Nat
  align : Nat
  deriving DecidableEq

def Layout.extent (l : Layout) : Extent := ⟨l.size.toNat, l.align.toNat⟩

namespace Extent

/-- The least multiple of an alignment from an offset on. -/
def alignUp (offset align : Nat) : Nat := (offset + (align - 1)) / align * align

/-- Fields with one more behind them, at a multiple of its alignment. -/
def addField (fields field : Extent) : Extent :=
  ⟨alignUp fields.size field.align + field.size, max fields.align field.align⟩

def ofFields (fields : List Extent) : Nat :=
  let all := fields.foldl addField ⟨0, 1⟩
  max (alignUp all.size all.align) 1

end Extent

namespace TypeTable

section

variable (t : TypeTable) (symbols : SymbolTable) (pointerSize : Nat)

/-- The types that a value of a type contains. -/
def contained (id : TypeId) : List TypeId :=
  match t.kind id with
  | .staticArray elem _ => [elem]
  | .enumType _ _ base => [base]
  | .tuple elems => elems
  | .structType symbol _ =>
    match symbols.aggregate? symbol with
    | none => []
    | some a => (a.fields.filterMap symbols.var?).map (·.type)
  | _ => []

/-- The extent of a type, from those of the types that it contains. -/
def extent (x : TypeId → Extent) (id : TypeId) : Extent :=
  match t.kind id with
  | .scalar s => (scalarLayout pointerSize s).extent
  | .error | .named _ | .function _ => ⟨1, 1⟩
  | .pointer _ | .assocArray _ _ | .classType _ _ | .typeInfo | .null => ⟨pointerSize, pointerSize⟩
  | .dynArray _ | .delegate _ => ⟨pointerSize * 2, pointerSize⟩
  | .staticArray elem length => ⟨(x elem).size * length.toNat, (x elem).align⟩
  | .enumType _ _ base => ⟨(x base).size, max 1 (min 8 (x base).size)⟩
  | .tuple elems => ⟨((elems.map x).map (·.size)).sum, pointerSize⟩
  | .structType symbol _ =>
    match symbols.aggregate? symbol with
    | none => ⟨0, pointerSize⟩
    | some a => ⟨Extent.ofFields ((a.fields.filterMap symbols.var?).map (x ·.type)), pointerSize⟩

/-- A type has an extent, and its size and those of all that it contains are below 2⁶⁴. -/
inductive Measures : TypeId → Extent → Prop
  | intro {id : TypeId} (x : TypeId → Extent)
    (hx : ∀ c ∈ t.contained symbols id, Measures c (x c))
    (hsize : (t.extent symbols pointerSize x id).size < 2 ^ 64) :
    Measures id (t.extent symbols pointerSize x id)

end

end TypeTable

/-! ## Words and numbers -/

namespace Extent

theorem le_alignUp (offset : Nat) {align : Nat} (h : 0 < align) :
    offset ≤ alignUp offset align := by
  have := Nat.lt_div_mul_add (a := offset + (align - 1)) h
  rw [alignUp]
  omega

theorem alignUp_eq (offset : Nat) {align : Nat} (h : 0 < align) : alignUp offset align =
    if offset % align = 0 then offset else offset + (align - offset % align) := by
  have hdiv := Nat.div_add_mod offset align
  have hmod := Nat.mod_lt offset h
  rw [alignUp, Nat.mul_comm]
  split
  · next hzero =>
    rw [Nat.div_eq_of_lt_le (k := offset / align)] <;> grind
  · next hzero =>
    rw [Nat.div_eq_of_lt_le (k := offset / align + 1)] <;> grind

theorem align_addFields_lt {fields : List Extent} {bound : Nat}
    (hfields : ∀ f ∈ fields, f.align < bound) {e : Extent} (he : e.align < bound) :
    (fields.foldl addField e).align < bound := by
  induction fields generalizing e with
  | nil => exact he
  | cons f fields ih =>
    obtain ⟨hf, hfields⟩ := forall_mem_cons.mp hfields
    exact ih hfields (Nat.max_lt.mpr ⟨he, hf⟩)

theorem le_addFields {fields : List Extent} (hfields : ∀ f ∈ fields, 0 < f.align) (e : Extent) :
    e.size ≤ (fields.foldl addField e).size ∧ e.align ≤ (fields.foldl addField e).align := by
  induction fields generalizing e with
  | nil => exact ⟨.refl, .refl⟩
  | cons f fields ih =>
    obtain ⟨hf, hfields⟩ := forall_mem_cons.mp hfields
    have hup := le_alignUp e.size hf
    have hrest := ih hfields (e.addField f)
    exact ⟨Nat.le_trans (Nat.le_add_right_of_le hup) hrest.1,
      Nat.le_trans (Nat.le_max_left _ _) hrest.2⟩

end Extent

namespace Layout

theorem toNat_max (a b : UInt64) : (max a b).toNat = max a.toNat b.toNat := by
  rw [Nat.max_def, ← apply_ite UInt64.toNat]
  rfl

theorem toNat_natural (a : UInt64) : (natural a).toNat = max 1 (min 8 a.toNat) := by
  rw [natural, toNat_max, Nat.min_def]
  exact congrArg (max 1) (apply_ite UInt64.toNat (8 ≤ a) 8 a)

theorem extent_inj {l m : Layout} : l.extent = m.extent ↔ l = m := by
  cases l
  cases m
  simp [extent, UInt64.toNat_inj]

/-- An extent of words is that of a layout. -/
theorem exists_extent {e : Extent} (hsize : e.size < 2 ^ 64) (halign : e.align < 2 ^ 64) :
    ∃ l : Layout, l.extent = e :=
  ⟨⟨e.size.toUInt64, e.align.toUInt64⟩, by
    rw [extent]
    simp [Nat.toUInt64, UInt64.toNat_ofNat_of_lt' hsize, UInt64.toNat_ofNat_of_lt' halign]⟩

theorem alignUp_eq_ok {offset align w : UInt64} (halign : 0 < align.toNat) :
    alignUp offset align = .ok w ↔ w.toNat = Extent.alignUp offset.toNat align.toNat := by
  have hmod := Nat.mod_lt offset.toNat halign
  have hle : offset % align ≤ align := by
    rw [UInt64.le_iff_toNat_le, UInt64.toNat_mod]
    omega
  have hzero : offset % align = 0 ↔ offset.toNat % align.toNat = 0 := by
    rw [← UInt64.toNat_inj, UInt64.toNat_mod]
    rfl
  rw [Extent.alignUp_eq _ halign, alignUp]
  simp only [← hzero]
  split
  · rw [Except.ok.injEq, ← UInt64.toNat_inj, eq_comm]
  · rw [Fault.wordOr_eq_ok, UInt64.toNat_sub_of_le _ _ hle, UInt64.toNat_mod]

theorem addField_eq_ok {fields field r : Layout} (halign : 0 < field.align.toNat) :
    fields.addField field = .ok r ↔ r.extent = fields.extent.addField field.extent := by
  unfold addField
  simp only [Fault.bind_eq_ok, alignUp_eq_ok halign, Fault.wordOr_eq_ok]
  constructor
  · rintro ⟨start, hstart, stop, hstop, hr⟩
    obtain rfl := Except.ok.inj hr
    rw [hstart] at hstop
    exact congrArg₂ Extent.mk hstop (toNat_max _ _)
  · intro hr
    obtain ⟨hsize, halign⟩ := Extent.mk.inj hr
    have hfits := hsize ▸ r.size.toNat_lt
    obtain ⟨l, hl⟩ := exists_extent (e := ⟨Extent.alignUp fields.size.toNat field.align.toNat, 0⟩)
      (Nat.lt_of_le_of_lt (Nat.le_add_right _ _) hfits) (Nat.two_pow_pos 64)
    have hstart := congrArg Extent.size hl
    refine ⟨l.size, hstart, r.size, hsize.trans (congrArg (· + _) hstart.symm), ?_⟩
    exact congrArg Except.ok (extent_inj.mp (congrArg (Extent.mk _)
      ((toNat_max _ _).trans halign.symm)))

end Layout

/-! ## Sizes -/

namespace TypeTable

variable {t : TypeTable} {symbols : SymbolTable} {pointerSize : Nat} {id : TypeId} {x : Extent}

theorem index_lt_of_contained {c : TypeId} (hc : c ∈ t.contained symbols id) :
    id.index < t.size := by
  by_contra hid
  have hkind : t.kind id = .error := by
    by_contra hne
    exact hid (Array.getElem?_eq_some_iff.mp (kinds_of_kind rfl hne)).1
  simp [contained, hkind] at hc

theorem Measures.ends (h : t.Measures symbols pointerSize id x) :
    ∃ n, Ends (t.contained symbols) n id := by
  induction h with
  | intro _ _ _ ih => exact exists_ends ih

section

variable {α β : Type} {below : α → Except Fault Layout} {x : α → Extent} {as : List α}

theorem below_of_foldlM {step : β → Layout → Except Fault β} {s r : β}
    (h : as.foldlM (fun s a => do step s (← below a)) s = .ok r) :
    ∀ a ∈ as, ∃ l, below a = .ok l := by
  induction as generalizing s with
  | nil => exact nofun
  | cons a as ih =>
    rw [foldlM_cons] at h
    obtain ⟨_, hstep, hrest⟩ := Fault.bind_eq_ok.mp h
    obtain ⟨l, hl, -⟩ := Fault.bind_eq_ok.mp hstep
    exact forall_mem_cons.mpr ⟨⟨l, hl⟩, ih hrest⟩

variable (has : ∀ a ∈ as, 0 < (x a).align ∧ ∃ l, below a = .ok l ∧ l.extent = x a)
include has

/-- Fields are laid out one behind the other as long as the end of the last is a word. -/
theorem addFields_eq_ok {s r : Layout} :
    as.foldlM (fun fields a => do fields.addField (← below a)) s = .ok r ↔
      r.extent = (as.map x).foldl Extent.addField s.extent := by
  induction as generalizing s with
  | nil => simp [pure, Except.pure, Layout.extent_inj, eq_comm]
  | cons a as ih =>
    obtain ⟨⟨hpos, l, hl, hx⟩, has⟩ := forall_mem_cons.mp has
    rw [← hx] at hpos
    rw [map_cons, foldl_cons, ← hx]
    simp only [foldlM_cons, Fault.bind_eq_ok, hl, Except.ok.injEq, exists_eq_left', ih has,
      Layout.addField_eq_ok hpos]
    constructor
    · rintro ⟨m, hm, hr⟩
      rw [hr, hm]
    · intro hr
      have hle := Extent.le_addFields (forall_mem_map.mpr fun a ha => (has a ha).1)
        (s.extent.addField l.extent)
      rw [← hr] at hle
      obtain ⟨m, hm⟩ := Layout.exists_extent (Nat.lt_of_le_of_lt hle.1 r.size.toNat_lt)
        (Nat.lt_of_le_of_lt hle.2 r.align.toNat_lt)
      exact ⟨m, hm, by rw [hm, hr]⟩

theorem addSizes_eq_ok {s r : UInt64} :
    as.foldlM (fun sum a => do
      Fault.wordOr .sumOverflow (sum.toNat + (← below a).size.toNat)) s = .ok r ↔
        r.toNat = s.toNat + ((as.map x).map (·.size)).sum := by
  induction as generalizing s with
  | nil => simp [pure, Except.pure, UInt64.toNat_inj, eq_comm]
  | cons a as ih =>
    obtain ⟨⟨-, l, hl, hx⟩, has⟩ := forall_mem_cons.mp has
    rw [map_cons, map_cons, sum_cons, ← Nat.add_assoc, ← hx]
    simp only [foldlM_cons, Fault.bind_eq_ok, hl, Except.ok.injEq, exists_eq_left', ih has,
      Fault.wordOr_eq_ok]
    constructor
    · rintro ⟨m, hm, hr⟩
      rw [hr, hm]
      rfl
    · intro hr
      have hlt : s.toNat + l.size.toNat < 2 ^ 64 := by
        have := r.toNat_lt
        have : r.toNat = s.toNat + l.size.toNat + _ := hr
        omega
      have hword : (s.toNat + l.size.toNat).toUInt64.toNat = _ := UInt64.toNat_ofNat_of_lt' hlt
      exact ⟨_, hword, by rw [hword, hr]; rfl⟩

end

/-- A layout has the layouts of all that the type contains. -/
theorem below_of_layoutBy {below : TypeId → Except Fault Layout} {l : Layout}
    (hl : t.layoutBy symbols pointerSize below id = .ok l) :
    ∀ c ∈ t.contained symbols id, ∃ l, below c = .ok l := by
  unfold layoutBy at hl
  unfold contained
  cases hkind : t.kind id with simp only [hkind] at hl ⊢
  | staticArray elem _ | enumType _ _ elem =>
    obtain ⟨l, hl, -⟩ := Fault.bind_eq_ok.mp hl
    exact forall_mem_singleton.mpr ⟨l, hl⟩
  | tuple elems =>
    obtain ⟨_, hsum, -⟩ := Fault.bind_eq_ok.mp hl
    exact below_of_foldlM hsum
  | structType symbol _ =>
    cases ha : symbols.aggregate? symbol with simp only [ha] at hl ⊢
    | none => exact forall_mem_nil _
    | some a =>
      obtain ⟨_, hfields, -⟩ := Fault.bind_eq_ok.mp hl
      exact forall_mem_map.mpr (below_of_foldlM hfields)
  | _ => exact forall_mem_nil _

section

variable {l : Layout}

theorem ok_eq_ok {m : Layout} {e : Extent} (hm : m.extent = e) :
    (Except.ok m : Except Fault Layout) = .ok l ↔ l.extent = e := by
  rw [Except.ok.injEq, ← hm, Layout.extent_inj, eq_comm]

theorem withAlign_eq_ok {r : Except Fault UInt64} {size : Nat}
    (hr : ∀ w, r = .ok w ↔ w.toNat = size) {align : UInt64} {n : Nat} (hn : align.toNat = n) :
    (r >>= fun w => pure ⟨w, align⟩) = .ok l ↔ l.extent = ⟨size, n⟩ := by
  subst hn
  simp only [Fault.bind_eq_ok, hr, pure, Except.pure, Except.ok.injEq]
  constructor
  · rintro ⟨w, rfl, rfl⟩
    rfl
  · intro hl
    obtain ⟨hsize, halign⟩ := Extent.mk.inj hl
    exact ⟨l.size, hsize, Layout.extent_inj.mp (congrArg (Extent.mk _) halign.symm)⟩

end

theorem ofFields_eq_ok {α : Type} {below : α → Except Fault Layout} (x : α → Extent) {as : List α}
    (has : ∀ a ∈ as, 0 < (x a).align ∧ ∃ l, below a = .ok l ∧ l.extent = x a) (w : UInt64) :
    (do
      let fields ← as.foldlM (fun (fields : Layout) a => do fields.addField (← below a)) ⟨0, 1⟩
      return max (← Layout.alignUp fields.size fields.align) 1 : Except Fault UInt64) = .ok w ↔
        w.toNat = Extent.ofFields (as.map x) := by
  have hle := Extent.le_addFields (forall_mem_map.mpr fun a ha => (has a ha).1) ⟨0, 1⟩
  have hwords : ∀ f ∈ as.map x, f.align < 2 ^ 64 := forall_mem_map.mpr fun a ha => by
    obtain ⟨-, l, -, hx⟩ := has a ha
    rw [← hx]
    exact l.align.toNat_lt
  have halign := Extent.align_addFields_lt (e := ⟨0, 1⟩) hwords (by decide)
  unfold Extent.ofFields
  generalize hall : (as.map x).foldl Extent.addField ⟨0, 1⟩ = all at hle halign
  have hup := Extent.le_alignUp all.size hle.2
  constructor
  · intro h
    obtain ⟨fields, hfields, h⟩ := Fault.bind_eq_ok.mp h
    obtain ⟨stop, hstop, h⟩ := Fault.bind_eq_ok.mp h
    have hextent := (addFields_eq_ok has).mp hfields
    rw [show Layout.extent ⟨0, 1⟩ = ⟨0, 1⟩ from rfl, hall] at hextent
    subst hextent
    obtain rfl := Except.ok.inj h
    rw [Layout.toNat_max, (Layout.alignUp_eq_ok hle.2).mp hstop]
    rfl
  · intro h
    have hfits : Extent.alignUp all.size all.align < 2 ^ 64 :=
      Nat.lt_of_le_of_lt (Nat.le_max_left _ 1) (h ▸ w.toNat_lt)
    obtain ⟨fields, rfl⟩ := Layout.exists_extent (Nat.lt_of_le_of_lt hup hfits) halign
    have hword : (Extent.alignUp fields.size.toNat fields.align.toNat).toUInt64.toNat = _ :=
      UInt64.toNat_ofNat_of_lt' hfits
    refine Fault.bind_eq_ok.mpr ⟨fields, (addFields_eq_ok has).mpr hall.symm,
      Fault.bind_eq_ok.mpr ⟨_, (Layout.alignUp_eq_ok hle.2).mpr hword, ?_⟩⟩
    refine congrArg Except.ok (UInt64.toNat_inj.mp ?_)
    rw [Layout.toNat_max, hword, h]
    rfl

/-- The layout of a type is its extent, or there is none because the size is not a word. -/
theorem layoutBy_eq_ok {x : TypeId → Extent} {below : TypeId → Except Fault Layout} {l : Layout}
    (hpointer : pointerSize = 4 ∨ pointerSize = 8)
    (hbelow : ∀ c ∈ t.contained symbols id, 0 < (x c).align ∧
      ∃ l, below c = .ok l ∧ l.extent = x c) :
    (0 < (t.extent symbols pointerSize x id).align ∧
      (t.extent symbols pointerSize x id).align < 2 ^ 64) ∧
      (t.layoutBy symbols pointerSize below id = .ok l ↔
        l.extent = t.extent symbols pointerSize x id) := by
  have hword : pointerSize.toUInt64.toNat = pointerSize := by rcases hpointer with rfl | rfl <;> rfl
  have hpos : 0 < pointerSize ∧ pointerSize < 2 ^ 64 := by omega
  unfold contained at hbelow
  unfold layoutBy extent
  cases hkind : t.kind id with simp only [hkind] at hbelow ⊢
  | scalar s =>
    refine ⟨?_, ok_eq_ok rfl⟩
    rcases hpointer with rfl | rfl <;> cases s <;> decide
  | error | named _ | function _ => exact ⟨by decide, ok_eq_ok rfl⟩
  | pointer _ | assocArray _ _ | classType _ _ | typeInfo | null | dynArray _ | delegate _ =>
    rcases hpointer with rfl | rfl <;> exact ⟨by decide, ok_eq_ok rfl⟩
  | staticArray elem length =>
    obtain ⟨hpos, m, hm, hx⟩ := hbelow elem (by simp)
    rw [hm, ← hx]
    exact ⟨⟨hx ▸ hpos, m.align.toNat_lt⟩, withAlign_eq_ok (fun _ => Fault.wordOr_eq_ok) rfl⟩
  | enumType _ _ base =>
    obtain ⟨-, m, hm, hx⟩ := hbelow base (by simp)
    rw [hm, ← hx]
    exact ⟨by omega, ok_eq_ok (congrArg (Extent.mk _) (Layout.toNat_natural _))⟩
  | tuple elems =>
    refine ⟨hpos, withAlign_eq_ok (fun w => ?_) hword⟩
    rw [addSizes_eq_ok hbelow]
    exact Nat.zero_add _ ▸ Iff.rfl
  | structType symbol _ =>
    cases ha : symbols.aggregate? symbol with simp only [ha] at hbelow ⊢
    | none => exact ⟨hpos, ok_eq_ok (congrArg (Extent.mk 0) hword)⟩
    | some a =>
      have hfields := ofFields_eq_ok (fun v : Variable => x v.type) (forall_mem_map.mp hbelow)
      exact ⟨hpos, by simpa only [bind_assoc, pure_bind] using withAlign_eq_ok hfields hword⟩

theorem layoutWithin_eq_ok (hpointer : pointerSize = 4 ∨ pointerSize = 8) {d : Nat} {l : Layout}
    (hl : t.layoutWithin symbols pointerSize d id = .ok l) :
    0 < l.extent.align ∧ t.Measures symbols pointerSize id l.extent := by
  induction d generalizing id l with
  | zero => cases hl
  | succ d ih =>
    let x (c : TypeId) : Extent :=
      ((t.layoutWithin symbols pointerSize d c).toOption.getD default).extent
    have hbelow : ∀ c ∈ t.contained symbols id,
        ∃ m, t.layoutWithin symbols pointerSize d c = .ok m ∧ m.extent = x c := fun c hc => by
      obtain ⟨m, hm⟩ := below_of_layoutBy hl c hc
      exact ⟨m, hm, by simp only [x, hm]; rfl⟩
    have hstep := layoutBy_eq_ok hpointer (l := l) (x := x) fun c hc => by
      obtain ⟨m, hm, hx⟩ := hbelow c hc
      exact ⟨hx ▸ (ih hm).1, m, hm, hx⟩
    have hextent := hstep.2.mp hl
    rw [hextent]
    refine ⟨hstep.1.1, .intro x (fun c hc => ?_) (hextent ▸ l.size.toNat_lt)⟩
    obtain ⟨m, hm, hx⟩ := hbelow c hc
    exact hx ▸ (ih hm).2

theorem Measures.layoutWithin (hpointer : pointerSize = 4 ∨ pointerSize = 8)
    (h : t.Measures symbols pointerSize id x) {d : Nat} (hd : Ends (t.contained symbols) d id) :
    0 < x.align ∧ ∃ l, t.layoutWithin symbols pointerSize d id = .ok l ∧ l.extent = x := by
  induction h generalizing d with
  | intro x hx hsize ih =>
    cases d with
    | zero => exact hd.elim
    | succ d =>
      have hstep (l : Layout) := layoutBy_eq_ok (l := l) hpointer fun c hc => ih c hc (hd c hc)
      obtain ⟨l, hl⟩ := Layout.exists_extent hsize (hstep default).1.2
      exact ⟨(hstep l).1.1, l, (hstep l).2.mpr hl, hl⟩

/-- **The size of a type is its mathematical size, on both targets.** There is no size if the type
contains itself, or if its size or that of a type in it is not below 2⁶⁴. -/
theorem byteSize_eq_ok (target : Target) (htarget : target = .x86 ∨ target = .x86With64Bits)
    {size : UInt64} : t.byteSize symbols target.pointerSize id = .ok size ↔
      ∃ x, t.Measures symbols target.pointerSize id x ∧ x.size = size.toNat := by
  have hpointer : target.pointerSize = 4 ∨ target.pointerSize = 8 := by
    rcases htarget with rfl | rfl
    · exact .inl rfl
    · exact .inr rfl
  have hsize {l : Layout} (hl : t.layoutWithin symbols target.pointerSize (t.size + 1) id = .ok l) :
      t.byteSize symbols target.pointerSize id = .ok l.size := by
    rw [byteSize, hl]
    rfl
  constructor
  · intro h
    cases hl : t.layoutWithin symbols target.pointerSize (t.size + 1) id with
    | error e => simp [byteSize, hl, Functor.map, Except.map] at h
    | ok l =>
      obtain rfl := Except.ok.inj ((hsize hl).symm.trans h)
      exact ⟨_, (layoutWithin_eq_ok hpointer hl).2, rfl⟩
  · rintro ⟨x, hx, hxsize⟩
    obtain ⟨n, hn⟩ := hx.ends
    obtain ⟨-, l, hl, rfl⟩ := hx.layoutWithin hpointer
      (ends_size (fun _ _ => congrArg TypeId.mk) index_lt_of_contained hn)
    rw [hsize hl, UInt64.toNat_inj.mp hxsize]

/-- The types `ubyte`, `ubyte[0x8000000000000000]` and `ubyte[0x8000000000000000][2]`. -/
def wideArrays : TypeTable :=
  ⟨#[.scalar .ubyte, .staticArray ⟨0⟩ 0x8000000000000000, .staticArray ⟨1⟩ 2]⟩

theorem byteSize_half :
    wideArrays.byteSize .empty Target.x86.pointerSize ⟨1⟩ = .ok 0x8000000000000000 := by
  have hbyte : wideArrays.Measures .empty 4 ⟨0⟩ ⟨1, 1⟩ :=
    .intro (fun _ => ⟨1, 1⟩) nofun (by decide)
  have hhalf : wideArrays.Measures .empty 4 ⟨1⟩ ⟨2 ^ 63, 1⟩ :=
    .intro (fun _ => ⟨1, 1⟩) (fun c hc => mem_singleton.mp hc ▸ hbyte) (by decide)
  exact (byteSize_eq_ok .x86 (.inl rfl)).mpr ⟨_, hhalf, rfl⟩

/-- Two halves of 2⁶⁴ bytes are too many. -/
theorem byteSize_overflows :
    (wideArrays.extent .empty 4 (fun _ => ⟨2 ^ 63, 1⟩) ⟨2⟩).size = 2 ^ 64 ∧
      wideArrays.byteSize .empty 4 ⟨2⟩ = .error .productOverflow := by
  decide

end TypeTable

end DCompiler
