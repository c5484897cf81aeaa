import Mathlib.Data.List.Nodup
import Mathlib.Data.List.Perm.Subperm
import DCompiler.Pool

/-!
# Pools as maps from handles to records

A pool is used through its lookup alone: `get?_add`, `get?_set` and `get?_remove` say how the
lookup changes, each for a pool that is *well formed* (`WF`). In such a pool the list of free slots
leads through every slot without a record once (`Threads`), and the count of records is that of the
handles that name one. So a list of distinct handles that all name records is no longer than the
count, which bounds every walk along a chain.
-/

namespace DCompiler.Pool

open List Option

variable {α : Type} {p q : Pool α} {h k : Handle} {r s : α} {head : Option Nat} {l : List Nat}
  {i : Nat}

/-! ## The list of free slots -/

def isLive (p : Pool α) (i : Nat) : Bool := (p.slots[i]?).any (·.record.isSome)

/-- From a slot on, the free slots lead through these ones and end there. -/
def Threads (p : Pool α) : Option Nat → List Nat → Prop
  | head, [] => head = none
  | head, i :: l => head = some i ∧
    ∃ g next, p.slots[i]? = some ⟨g, none, next⟩ ∧ p.Threads next l

theorem Threads.congr (hl : p.Threads head l) (hsame : ∀ i ∈ l, q.slots[i]? = p.slots[i]?) :
    q.Threads head l := by
  induction l generalizing head with
  | nil => exact hl
  | cons i l ih =>
    obtain ⟨rfl, g, next, hslot, hrest⟩ := hl
    refine ⟨rfl, g, next, ?_, ih hrest fun j hj => hsame j (mem_cons_of_mem _ hj)⟩
    rw [hsame i mem_cons_self, hslot]

theorem Threads.free (hl : p.Threads head l) (hi : i ∈ l) :
    ∃ g next, p.slots[i]? = some ⟨g, none, next⟩ := by
  induction l generalizing head with
  | nil => cases hi
  | cons j l ih =>
    obtain ⟨-, g, next, hslot, hrest⟩ := hl
    rcases mem_cons.mp hi with rfl | hi
    · exact ⟨g, next, hslot⟩
    · exact ih hrest hi

/-- The free slots are threaded, and all records are counted. -/
structure WF (p : Pool α) : Prop where
  chunk : 0 < p.chunkLength
  free : ∃ l, p.Threads p.freeHead l ∧ l.Nodup ∧ ∀ i, i ∈ l ↔ i < p.capacity ∧ p.isLive i = false
  counted : ∃ hs : List Handle, hs.Nodup ∧ (∀ h, h ∈ hs ↔ p.contains h) ∧ hs.length = p.live
  whole : p.capacity = p.chunks * p.chunkLength

/-! ## Lookup -/

theorem get?_eq_some :
    p.get? h = some r ↔ ∃ next, p.slots[h.slot]? = some ⟨h.generation, some r, next⟩ := by
  unfold get?
  cases hslot : p.slots[h.slot]? with
  | none => simp
  | some slot =>
    obtain ⟨g, record, next⟩ := slot
    by_cases hg : g = h.generation <;> simp [hg]

theorem contains_iff : p.contains h ↔ ∃ r, p.get? h = some r := by
  simp [contains, isSome_iff_exists]

theorem contains_of_get? (hr : p.get? h = some r) : p.contains h := contains_iff.mpr ⟨r, hr⟩

/-- A slot holds one record, so two handles of records differ in their slots. -/
theorem eq_of_slot (hh : p.get? h = some r) (hk : p.get? k = some s) (hslot : h.slot = k.slot) :
    h = k := by
  rw [get?_eq_some] at hh hk
  obtain ⟨_, hk⟩ := hk
  obtain ⟨i, g⟩ := h
  obtain ⟨j, g'⟩ := k
  simp_all

theorem get?_empty (bytes : Nat) (h : Handle) : (empty bytes : Pool α).get? h = none := by
  simp [get?, empty]

theorem wf_empty (bytes : Nat) : (empty bytes : Pool α).WF where
  chunk := by simp only [empty]; omega
  free := ⟨[], rfl, nodup_nil, by simp [empty, capacity]⟩
  counted := ⟨[], nodup_nil, by simp [contains, get?_empty], rfl⟩
  whole := by simp [empty, capacity]

theorem WF.length_le (hp : p.WF) {hs : List Handle} (hnodup : hs.Nodup)
    (hlive : ∀ h ∈ hs, p.contains h) : hs.length ≤ p.live := by
  obtain ⟨all, -, hall, hlength⟩ := hp.counted
  rw [← hlength]
  exact (hnodup.subperm fun h hh => (hall h).mpr (hlive h hh)).length_le

theorem isLive_iff : p.isLive i ↔ ∃ h, h.slot = i ∧ p.contains h := by
  unfold isLive
  constructor
  · intro hlive
    obtain ⟨⟨g, record, next⟩, hslot, hrecord⟩ := (any_eq_true _ _).mp hlive
    obtain ⟨r, rfl⟩ := isSome_iff_exists.mp hrecord
    exact ⟨⟨i, g⟩, rfl, contains_of_get? (get?_eq_some.mpr ⟨next, hslot⟩)⟩
  · rintro ⟨h, rfl, hh⟩
    obtain ⟨r, hr⟩ := contains_iff.mp hh
    obtain ⟨next, hslot⟩ := get?_eq_some.mp hr
    simp [hslot]

def liveSlots (p : Pool α) : List Nat := (List.range p.capacity).filter p.isLive

theorem isLive_of_capacity_le (hi : p.capacity ≤ i) : p.isLive i = false := by
  have hnone : p.slots[i]? = none := Array.getElem?_eq_none hi
  simp [isLive, hnone]

theorem mem_liveSlots : i ∈ p.liveSlots ↔ p.isLive i := by
  rw [liveSlots, mem_filter, mem_range, and_iff_right_iff_imp]
  intro hlive
  refine Nat.lt_of_not_le fun hle => ?_
  simp [isLive_of_capacity_le hle] at hlive

theorem WF.length_liveSlots (hp : p.WF) : p.liveSlots.length = p.live := by
  obtain ⟨hs, hnodup, hmem, hlength⟩ := hp.counted
  have hslots : (hs.map (·.slot)).Nodup := by
    refine hnodup.map_on fun h hh k hk hslot => ?_
    obtain ⟨r, hr⟩ := contains_iff.mp ((hmem h).mp hh)
    obtain ⟨s, hs⟩ := contains_iff.mp ((hmem k).mp hk)
    exact eq_of_slot hr hs hslot
  have hperm : p.liveSlots.Perm (hs.map (·.slot)) := by
    have hlive : p.liveSlots.Nodup := nodup_range.filter _
    refine (perm_ext_iff_of_nodup hlive hslots).mpr fun i => ?_
    rw [mem_liveSlots, isLive_iff, List.mem_map]
    exact ⟨fun ⟨h, hi, hh⟩ => ⟨h, (hmem h).mpr hh, hi⟩, fun ⟨h, hh, hi⟩ => ⟨h, hi, (hmem h).mp hh⟩⟩
  rw [hperm.length_eq, length_map, hlength]

theorem WF.live_le (hp : p.WF) : p.live ≤ p.capacity := by
  rw [← hp.length_liveSlots, liveSlots]
  simpa using length_filter_le p.isLive (List.range p.capacity)

/-! ## Replacing a record -/

theorem get?_set (hh : p.contains h) (k : Handle) :
    (p.set h r).get? k = if k = h then some r else p.get? k := by
  obtain ⟨old, hold⟩ := contains_iff.mp hh
  obtain ⟨next, hslot⟩ := get?_eq_some.mp hold
  obtain ⟨j, g⟩ := k
  obtain ⟨i, g'⟩ := h
  simp only [get?, set, if_pos hh, Array.getElem?_modify, Handle.mk.injEq]
  grind

@[simp] theorem live_set (p : Pool α) (h : Handle) (r : α) : (p.set h r).live = p.live := by
  unfold set
  split <;> rfl

theorem contains_set (hh : p.contains h) (k : Handle) : (p.set h r).contains k = p.contains k := by
  unfold contains
  rw [get?_set hh]
  by_cases hk : k = h
  · subst hk
    simpa [contains] using hh.symm
  · rw [if_neg hk]

theorem set_self (hr : p.get? h = some r) : p.set h r = p := by
  obtain ⟨next, hslot⟩ := get?_eq_some.mp hr
  have hslots : (p.slots.modify h.slot fun slot => { slot with record := some r }) = p.slots := by
    refine Array.ext_getElem? fun i => ?_
    rw [Array.getElem?_modify]
    split
    · next hi => rw [← hi, hslot]; rfl
    · rfl
  rw [set, if_pos (contains_of_get? hr), hslots]

theorem isLive_congr (hpq : ∀ k, q.contains k = p.contains k) (i : Nat) :
    q.isLive i = p.isLive i := by
  rw [Bool.eq_iff_iff, isLive_iff, isLive_iff]
  simp only [hpq]

theorem WF.set (hp : p.WF) (hh : p.contains h) : (p.set h r).WF := by
  obtain ⟨old, hold⟩ := contains_iff.mp hh
  obtain ⟨next, hslot⟩ := get?_eq_some.mp hold
  have hcontains := contains_set (r := r) hh
  have hlive := isLive_congr hcontains
  obtain ⟨l, hl, hnodup, hmem⟩ := hp.free
  obtain ⟨hs, hsnodup, hsmem, hlength⟩ := hp.counted
  rw [Pool.set, if_pos hh] at hcontains hlive ⊢
  refine ⟨hp.chunk, ⟨l, hl.congr fun i hi => ?_, hnodup, fun i => ?_⟩,
    ⟨hs, hsnodup, fun k => by rw [hcontains, hsmem], hlength⟩, ?_⟩
  · obtain ⟨g, next', hfree⟩ := hl.free hi
    have hne : h.slot ≠ i := fun hi => by simp [← hi, hslot] at hfree
    rw [Array.getElem?_modify, if_neg hne]
  · rw [hmem, hlive, capacity, capacity, Array.size_modify]
  · rw [capacity, Array.size_modify]
    exact hp.whole

/-! ## Adding a record -/

/-- The slot that is next in the list of free slots, from a slot of a new chunk on. -/
def chunkHead (p : Pool α) (i : Nat) : Option Nat :=
  if i < p.chunkLength then some (p.slots.size + i) else p.freeHead

theorem slots_grow (p : Pool α) (i : Nat) :
    p.grow.slots[i]? =
      if i < p.slots.size then p.slots[i]?
      else if i < p.slots.size + p.chunkLength then
        some ⟨0, none, p.chunkHead (i - p.slots.size + 1)⟩
      else none := by
  simp only [grow, Array.getElem?_append, getElem?_toArray, getElem?_map]
  grind [chunkHead]

theorem get?_grow (p : Pool α) (h : Handle) : p.grow.get? h = p.get? h := by
  refine ext fun s => ?_
  rw [get?_eq_some, get?_eq_some, slots_grow]
  split
  · rfl
  rename_i hslot
  rw [Array.getElem?_eq_none (Nat.le_of_not_lt hslot)]
  split <;> simp

theorem capacity_grow (p : Pool α) : p.grow.capacity = p.capacity + p.chunkLength := by
  simp [grow, capacity]

/-- A new chunk is threaded from any of its slots on, and leads into the slots that were free. -/
theorem threads_chunk (hl : p.Threads p.freeHead l) (n : Nat) (hn : i + n = p.chunkLength) :
    p.grow.Threads (p.chunkHead i) (range' (p.slots.size + i) n ++ l) := by
  induction n generalizing i with
  | zero =>
    rw [chunkHead, if_neg (by omega)]
    refine hl.congr fun j hj => ?_
    obtain ⟨g, next, hslot⟩ := hl.free hj
    rw [slots_grow, if_pos (Array.getElem?_eq_some_iff.mp hslot).1]
  | succ n ih =>
    rw [chunkHead, if_pos (by omega), range'_succ, cons_append]
    refine ⟨rfl, 0, p.chunkHead (i + 1), ?_, ih (by omega)⟩
    rw [slots_grow, if_neg (by omega), if_pos (by omega)]
    congr 3
    omega

theorem WF.grow (hp : p.WF) : p.grow.WF := by
  obtain ⟨l, hl, hnodup, hmem⟩ := hp.free
  obtain ⟨hs, hsnodup, hsmem, hlength⟩ := hp.counted
  have hcontains : ∀ k, p.grow.contains k = p.contains k := fun k => by
    rw [contains, contains, get?_grow]
  have hhead : p.grow.freeHead = p.chunkHead 0 := by
    rw [chunkHead, if_pos hp.chunk]
    rfl
  refine ⟨hp.chunk, ⟨range' p.slots.size p.chunkLength ++ l, ?_, ?_, fun i => ?_⟩,
    ⟨hs, hsnodup, fun k => by rw [hcontains, hsmem], hlength⟩, ?_⟩
  · rw [hhead]
    exact threads_chunk hl p.chunkLength (Nat.zero_add _)
  · refine nodup_append.mpr ⟨nodup_range', hnodup, fun i hi j hj hij => ?_⟩
    obtain ⟨n, -, rfl⟩ := mem_range'.mp hi
    have := ((hmem j).mp hj).1
    unfold capacity at this
    omega
  · rw [mem_append, mem_range'_1, hmem, capacity_grow, isLive_congr hcontains]
    have hdead := isLive_of_capacity_le (p := p) (i := i)
    unfold capacity at *
    grind
  · rw [capacity_grow, hp.whole]
    exact (Nat.succ_mul _ _).symm

theorem get?_withFree (p : Pool α) (h : Handle) : p.withFree.get? h = p.get? h := by
  unfold withFree
  split
  · exact get?_grow p h
  · rfl

theorem WF.withFree (hp : p.WF) : p.withFree.WF := by
  unfold Pool.withFree
  split
  · exact hp.grow
  · exact hp

theorem freeHead_withFree (p : Pool α) : ∃ i, p.withFree.freeHead = some i := by
  unfold Pool.withFree
  cases hhead : p.freeHead with
  | none => exact ⟨p.slots.size, rfl⟩
  | some i => exact ⟨i, hhead⟩

/-- The pool after a record was put into the first free slot. -/
def filled (p : Pool α) (i : Nat) (next : Option Nat) (r : α) : Pool α :=
  { p with
    slots := p.slots.modify i fun s => ⟨s.generation, some r, none⟩
    freeHead := next
    live := p.live + 1 }

section

variable {i : Nat} {g : UInt32} {next : Option Nat} (hslot : p.slots[i]? = some ⟨g, none, next⟩)
include hslot

theorem get?_filled (k : Handle) :
    (p.filled i next r).get? k = if k = ⟨i, g⟩ then some r else p.get? k := by
  obtain ⟨j, g'⟩ := k
  simp only [get?, filled, Array.getElem?_modify, Handle.mk.injEq]
  grind

theorem isLive_filled (j : Nat) :
    (p.filled i next r).isLive j = (decide (j = i) || p.isLive j) := by
  simp only [isLive, filled, Array.getElem?_modify]
  grind

theorem WF.filled (hp : p.WF) {l : List Nat} (hl : p.Threads p.freeHead (i :: l))
    (hnodup : (i :: l).Nodup) (hmem : ∀ j, j ∈ i :: l ↔ j < p.capacity ∧ p.isLive j = false) :
    (p.filled i next r).WF := by
  obtain ⟨hnew, hnodup⟩ := nodup_cons.mp hnodup
  obtain ⟨hs, hsnodup, hsmem, hlength⟩ := hp.counted
  obtain ⟨-, _, _, hslot', hrest⟩ := hl
  rw [hslot] at hslot'
  cases hslot'
  have hcapacity : (p.filled i next r).capacity = p.capacity := by simp [Pool.filled, capacity]
  refine ⟨hp.chunk, ⟨l, hrest.congr fun j hj => ?_, hnodup, fun j => ?_⟩,
    ⟨⟨i, g⟩ :: hs, ?_, fun k => ?_, ?_⟩, ?_⟩
  · have hne : i ≠ j := fun hij => hnew (hij ▸ hj)
    rw [Pool.filled, Array.getElem?_modify, if_neg hne]
  · rw [hcapacity, isLive_filled hslot]
    grind
  · refine nodup_cons.mpr ⟨fun hin => ?_, hsnodup⟩
    simpa [contains, get?, hslot] using (hsmem _).mp hin
  · rw [mem_cons, hsmem, contains, contains, get?_filled hslot]
    by_cases hk : k = ⟨i, g⟩ <;> simp [hk]
  · simp [Pool.filled, hlength]
  · rw [hcapacity]
    exact hp.whole

end

theorem WF.add_eq (hp : p.WF) (r : α) : ∃ i g next, p.withFree.slots[i]? = some ⟨g, none, next⟩ ∧
    p.add r = (⟨i, g⟩, p.withFree.filled i next r) ∧ (p.add r).2.WF := by
  obtain ⟨i, hhead⟩ := freeHead_withFree p
  obtain ⟨l, hl, hnodup, hmem⟩ := hp.withFree.free
  cases l with
  | nil => cases hhead.symm.trans hl
  | cons j l =>
    obtain ⟨hj, g, next, hslot, hrest⟩ := hl
    cases hhead.symm.trans hj
    have hadd : p.add r = (⟨i, g⟩, p.withFree.filled i next r) := by
      simp [Pool.add, Pool.filled, hhead, hslot]
    refine ⟨i, g, next, hslot, hadd, ?_⟩
    rw [hadd]
    exact WF.filled hslot hp.withFree ⟨hhead, g, next, hslot, hrest⟩ hnodup hmem

@[simp] theorem live_add (p : Pool α) (r : α) : (p.add r).2.live = p.live + 1 := by
  unfold add withFree
  split <;> rfl

theorem WF.add (hp : p.WF) (r : α) :
    (p.add r).2.WF ∧ p.get? (p.add r).1 = none ∧
      ∀ k, (p.add r).2.get? k = if k = (p.add r).1 then some r else p.get? k := by
  obtain ⟨i, g, next, hslot, hadd, hwf⟩ := hp.add_eq r
  refine ⟨hwf, ?_, fun k => ?_⟩
  · rw [hadd, ← get?_withFree]
    simp [get?, hslot]
  · rw [hadd, get?_filled hslot, get?_withFree]

/-! ## Removing a record -/

/-- The pool after a record was taken out of its slot. -/
def freed (p : Pool α) (i : Nat) : Pool α :=
  { p with
    slots := p.slots.modify i fun s => ⟨s.generation + 1, none, p.freeHead⟩
    freeHead := some i
    live := p.live - 1 }

section

variable {next : Option Nat} (hslot : p.slots[h.slot]? = some ⟨h.generation, some r, next⟩)
include hslot

theorem get?_freed (k : Handle) : (p.freed h.slot).get? k = if k = h then none else p.get? k := by
  obtain ⟨j, g⟩ := k
  obtain ⟨i, g'⟩ := h
  have hnext : g' + 1 ≠ g' := by simp
  simp only [get?, freed, Array.getElem?_modify, Handle.mk.injEq]
  grind

theorem isLive_freed (j : Nat) :
    (p.freed h.slot).isLive j = (decide (j ≠ h.slot) && p.isLive j) := by
  simp only [isLive, freed, Array.getElem?_modify]
  grind

theorem WF.freed (hp : p.WF) : (p.freed h.slot).WF := by
  obtain ⟨l, hl, hnodup, hmem⟩ := hp.free
  obtain ⟨hs, hsnodup, hsmem, hlength⟩ := hp.counted
  have hin : h ∈ hs := (hsmem h).mpr (contains_of_get? (get?_eq_some.mpr ⟨next, hslot⟩))
  have hnew : h.slot ∉ l := fun hfree => by
    obtain ⟨_, _, hfree⟩ := hl.free hfree
    simp [hslot] at hfree
  have hcapacity : (p.freed h.slot).capacity = p.capacity := by simp [Pool.freed, capacity]
  have hbound : h.slot < p.capacity := (Array.getElem?_eq_some_iff.mp hslot).1
  refine ⟨hp.chunk, ⟨h.slot :: l, ⟨rfl, h.generation + 1, p.freeHead, ?_, hl.congr fun j hj => ?_⟩,
    nodup_cons.mpr ⟨hnew, hnodup⟩, fun j => ?_⟩, ⟨hs.erase h, hsnodup.erase h, fun k => ?_, ?_⟩,
    ?_⟩
  · rw [Pool.freed, Array.getElem?_modify, if_pos rfl, hslot]
    rfl
  · have hne : h.slot ≠ j := fun hij => hnew (hij ▸ hj)
    rw [Pool.freed, Array.getElem?_modify, if_neg hne]
  · rw [mem_cons, hmem, hcapacity, isLive_freed hslot]
    grind
  · rw [hsnodup.mem_erase_iff, hsmem, contains, contains, get?_freed hslot]
    by_cases hk : k = h <;> simp [hk]
  · simp [Pool.freed, length_erase_of_mem hin, hlength]
  · rw [hcapacity]
    exact hp.whole

end

theorem remove?_eq_some : p.remove? h = some (r, q) ↔ p.get? h = some r ∧ q = p.freed h.slot := by
  unfold remove?
  cases hget : p.get? h with
  | none => simp
  | some s =>
    simp only [bind_eq_bind, bind_some, Option.pure_def, Option.some.injEq, Prod.mk.injEq]
    exact and_congr_right fun _ => eq_comm

theorem remove?_eq_none : p.remove? h = none ↔ p.get? h = none := by
  unfold remove?
  cases hget : p.get? h <;> simp

theorem WF.remove (hp : p.WF) (hr : p.get? h = some r) :
    ∃ q, p.remove? h = some (r, q) ∧ q.WF ∧
      ∀ k, q.get? k = if k = h then none else p.get? k := by
  obtain ⟨next, hslot⟩ := get?_eq_some.mp hr
  exact ⟨p.freed h.slot, remove?_eq_some.mpr ⟨hr, rfl⟩, hp.freed hslot, get?_freed hslot⟩

end DCompiler.Pool
