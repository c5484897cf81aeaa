import DCompiler.Proofs.Pool.Basic

/-!
# Histories of pools

What holds after any sequence of operations on an empty pool. An operation through a handle that
names no record is refused and changes nothing. Every operation leaves an event, and a history lists
the events, the last one first.

Both follow from what one operation does (`Performs`), by induction over the history.
-/

namespace DCompiler.Pool

open List

variable {α : Type}

inductive Operation (α : Type) where
  | allocate
  | read (h : Handle)
  | write (h : Handle) (r : α)
  | free (h : Handle)

inductive Event (α : Type) where
  | allocated (h : Handle)
  | read (h : Handle) (r : α)
  | wrote (h : Handle) (r : α)
  | freed (h : Handle) (r : α)
  | refused (h : Handle)
  deriving DecidableEq

section

variable [Inhabited α]

def perform (p : Pool α) : Operation α → Event α × Pool α
  | .allocate => (.allocated p.allocate.1, p.allocate.2)
  | .read h =>
    match p.get? h with
    | some r => (.read h r, p)
    | none => (.refused h, p)
  | .write h r => if p.contains h then (.wrote h r, p.set h r) else (.refused h, p)
  | .free h =>
    match p.remove? h with
    | some (r, q) => (.freed h r, q)
    | none => (.refused h, p)

/-- The events of operations on an empty pool, the last one first, and the pool they lead to. -/
inductive History (bytes : Nat) : List (Event α) → Pool α → Prop
  | start : History bytes [] (empty bytes)
  | step {es : List (Event α)} {p : Pool α} (hp : History bytes es p) (x : Operation α) :
      History bytes ((p.perform x).1 :: es) (p.perform x).2

/-! ## One operation -/

/-- What an operation can do to a pool. -/
inductive Performs (p : Pool α) : Event α → Pool α → Prop
  | allocated : Performs p (.allocated p.allocate.1) p.allocate.2
  | read {h : Handle} {r : α} : Performs p (.read h r) p
  | wrote {h : Handle} {r : α} (hh : p.contains h) : Performs p (.wrote h r) (p.set h r)
  | freed {h : Handle} {r : α} (hr : p.get? h = some r) : Performs p (.freed h r) (p.freed h.slot)
  | refused {h : Handle} : Performs p (.refused h) p

theorem performs (p : Pool α) (x : Operation α) : p.Performs (p.perform x).1 (p.perform x).2 := by
  unfold perform
  cases x with
  | allocate => exact .allocated
  | read h =>
    dsimp only
    split
    · exact .read
    · exact .refused
  | write h r =>
    dsimp only
    split
    · exact .wrote ‹_›
    · exact .refused
  | free h =>
    dsimp only
    split
    · next hr =>
      obtain ⟨hget, rfl⟩ := remove?_eq_some.mp hr
      exact .freed hget
    · exact .refused

variable {p q : Pool α} {e : Event α} {h k : Handle} {es : List (Event α)} {bytes : Nat}

theorem WF.performs (hp : p.WF) (hq : p.Performs e q) : q.WF := by
  cases hq with
  | allocated => exact (hp.add default).1
  | read | refused => exact hp
  | wrote hh => exact hp.set hh
  | freed hr =>
    obtain ⟨next, hslot⟩ := get?_eq_some.mp hr
    exact hp.freed hslot

theorem Performs.chunkLength (hq : p.Performs e q) : q.chunkLength = p.chunkLength := by
  cases hq with
  | allocated =>
    show p.withFree.chunkLength = p.chunkLength
    unfold withFree
    split <;> rfl
  | read | refused | freed => rfl
  | wrote hh => rw [Pool.set, if_pos hh]

theorem History.wf (hp : History bytes es p) : p.WF := by
  induction hp with
  | start => exact wf_empty bytes
  | step _ x ih => exact ih.performs (performs _ x)

theorem History.chunkLength (hp : History bytes es p) :
    p.chunkLength = (empty bytes : Pool α).chunkLength := by
  induction hp with
  | start => rfl
  | step _ x ih => rw [(performs _ x).chunkLength, ih]

theorem WF.allocate_slot (hp : p.WF) (hk : p.contains k) : k.slot ≠ p.allocate.1.slot := by
  obtain ⟨i, g, next, hslot, hadd, -⟩ := hp.add_eq (default : α)
  obtain ⟨r, hr⟩ := contains_iff.mp hk
  rw [← get?_withFree] at hr
  obtain ⟨next', hlive⟩ := get?_eq_some.mp hr
  rw [allocate, hadd]
  rintro rfl
  rw [hslot] at hlive
  cases hlive

/-! ## Contents -/

/-- What was written through a handle last; none if it was freed since, or never given out. -/
def lastWritten (h : Handle) : List (Event α) → Option α
  | [] => none
  | .allocated k :: es => if h = k then some default else lastWritten h es
  | .wrote k r :: es => if h = k then some r else lastWritten h es
  | .freed k _ :: es => if h = k then none else lastWritten h es
  | .read _ _ :: es | .refused _ :: es => lastWritten h es

theorem WF.get?_performs (hp : p.WF) (hq : p.Performs e q)
    (hcontents : ∀ h, p.get? h = lastWritten h es) (h : Handle) :
    q.get? h = lastWritten h (e :: es) := by
  cases hq with
  | allocated => exact ((hp.add default).2.2 h).trans (by rw [hcontents]; rfl)
  | read | refused => exact hcontents h
  | wrote hh =>
    rw [get?_set hh, hcontents]
    rfl
  | freed hr =>
    obtain ⟨next, hslot⟩ := get?_eq_some.mp hr
    rw [get?_freed hslot, hcontents]
    rfl

theorem History.get?_eq (hp : History bytes es p) (h : Handle) : p.get? h = lastWritten h es := by
  induction hp generalizing h with
  | start => exact get?_empty bytes h
  | step hp x ih => exact hp.wf.get?_performs (performs _ x) ih h

/-- **Representation of a pool.** After any operations, the free slots from the first one on lead
through every slot without a record once and through no other, the counts are right, and a handle
leads to what was written through it last. A new record stands in a slot of its own and is the
default; a freed one is given back as it was written last; and both leave all other records
alone. -/
theorem history_represents (hp : History bytes es p) :
    (∃ l, p.Threads p.freeHead l ∧ l.Nodup ∧
      ∀ i, i ∈ l ↔ i < p.capacity ∧ p.isLive i = false) ∧
    p.live = p.liveSlots.length ∧
    p.capacity = p.chunks * (empty bytes : Pool α).chunkLength ∧
    (∀ h, p.get? h = lastWritten h es) ∧
    p.allocate.2.get? p.allocate.1 = some default ∧
    (∀ k, p.contains k → k.slot ≠ p.allocate.1.slot ∧ p.allocate.2.get? k = p.get? k) ∧
    ∀ h, p.contains h → ∃ r q, p.remove? h = some (r, q) ∧ lastWritten h es = some r ∧
      ∀ k, k ≠ h → q.get? k = p.get? k := by
  have hwf := hp.wf
  obtain ⟨-, hnew, hget⟩ := hwf.add (default : α)
  refine ⟨hwf.free, hwf.length_liveSlots.symm, ?_, hp.get?_eq, ?_, fun k hk => ⟨?_, ?_⟩,
    fun h hh => ?_⟩
  · rw [hwf.whole, hp.chunkLength]
  · rw [allocate, hget, if_pos rfl]
  · exact hwf.allocate_slot hk
  · have hne : k ≠ (p.add default).1 := fun hk' => hwf.allocate_slot hk (congrArg (·.slot) hk')
    rw [allocate, hget, if_neg hne]
  · obtain ⟨r, hr⟩ := contains_iff.mp hh
    obtain ⟨q, hq, -, hother⟩ := hwf.remove hr
    exact ⟨r, q, hq, (hp.get?_eq h).symm.trans hr, fun k hk => by rw [hother, if_neg hk]⟩

end

/-- A pool of one slot whose first record was written to and freed. -/
def reusedPool : Pool Nat := ⟨1, #[⟨1, some 0, none⟩], none, 1, 1⟩

def reusedEvents : List (Event Nat) :=
  [.allocated ⟨0, 1⟩, .freed ⟨0, 0⟩ 5, .wrote ⟨0, 0⟩ 5, .allocated ⟨0, 0⟩]

theorem reused_history : History 4096 reusedEvents reusedPool :=
  .step (.step (.step (.step .start .allocate) (.write ⟨0, 0⟩ 5)) (.free ⟨0, 0⟩)) .allocate

theorem history_represents_reused :
    reusedPool.get? ⟨0, 0⟩ = lastWritten ⟨0, 0⟩ reusedEvents ∧
    reusedPool.allocate.2.get? reusedPool.allocate.1 = some 0 ∧
    ∃ r q, reusedPool.remove? ⟨0, 1⟩ = some (r, q) ∧ lastWritten ⟨0, 1⟩ reusedEvents = some r := by
  obtain ⟨-, -, -, hget, hnew, -, hfree⟩ := history_represents reused_history
  obtain ⟨r, q, hq, hr, -⟩ := hfree ⟨0, 1⟩ (by decide)
  exact ⟨hget _, hnew, r, q, hq, hr⟩

/-! ## Generations -/

/-- How often a slot was freed, as the slot counts it. -/
def age (p : Pool α) (i : Nat) : Nat := ((p.slots[i]?).map (·.generation.toNat)).getD 0

section

variable {p q : Pool α} {h : Handle} {r : α}

theorem age_of_contains (hh : p.contains h) : p.age h.slot = h.generation.toNat := by
  obtain ⟨r, hr⟩ := contains_iff.mp hh
  obtain ⟨next, hslot⟩ := get?_eq_some.mp hr
  simp [age, hslot]

theorem age_of_modify {f : Slot α → Slot α} {i : Nat} (hq : q.slots = p.slots.modify i f)
    (hf : ∀ s, (f s).generation = s.generation) (j : Nat) : q.age j = p.age j := by
  unfold age
  rw [hq, Array.getElem?_modify]
  split
  · cases p.slots[j]? <;> simp [hf]
  · rfl

theorem age_set (i : Nat) : (p.set h r).age i = p.age i := by
  unfold Pool.set
  split
  · exact age_of_modify (i := h.slot) (f := fun s => { s with record := some r }) rfl
      (fun _ => rfl) i
  · rfl

theorem age_withFree (p : Pool α) (i : Nat) : p.withFree.age i = p.age i := by
  unfold withFree
  split
  · rw [age, age, slots_grow]
    grind
  · rfl

theorem age_add (r : α) (i : Nat) : (p.add r).2.age i = p.age i := by
  rw [← age_withFree p i]
  exact age_of_modify (i := p.withFree.freeHead.getD 0) (f := fun s => ⟨s.generation, some r, none⟩)
    rfl (fun _ => rfl) i

theorem WF.age_new (hp : p.WF) (r : α) : p.age (p.add r).1.slot = (p.add r).1.generation.toNat := by
  obtain ⟨i, g, next, hslot, hadd, -⟩ := hp.add_eq r
  rw [hadd, ← age_withFree]
  simp [age, hslot]

theorem age_freed (hh : p.contains h) (hlt : p.age h.slot + 1 < 2 ^ 32) (i : Nat) :
    (p.freed h.slot).age i = p.age i + if i = h.slot then 1 else 0 := by
  obtain ⟨r, hr⟩ := contains_iff.mp hh
  obtain ⟨next, hslot⟩ := get?_eq_some.mp hr
  unfold age Pool.freed
  rw [Array.getElem?_modify]
  by_cases hi : h.slot = i
  · subst hi
    rw [age_of_contains hh] at hlt
    simp only [hslot, if_true, Option.map_some, Option.getD_some, UInt32.toNat_add]
    exact Nat.mod_eq_of_lt hlt
  · simp [hi, Ne.symm hi]

end

/-! ## Stale handles -/

def allocations (es : List (Event α)) : List Handle :=
  es.filterMap fun
    | .allocated h => some h
    | _ => none

def frees (i : Nat) (es : List (Event α)) : Nat :=
  es.countP fun
    | .freed h _ => h.slot == i
    | _ => false

/-- What a history says about handles: slots count how often they were freed, and a handle that was
given out names a record, or it was freed and the count of its slot has gone on. -/
structure Tracked (es : List (Event α)) (p : Pool α) : Prop where
  age : ∀ i, p.age i = frees i es
  nodup : (allocations es).Nodup
  live : ∀ {h}, p.contains h → h ∈ allocations es ∧ ∀ r, .freed h r ∉ es
  past : ∀ {h}, h ∈ allocations es →
    p.contains h ∨ h.generation.toNat < frees h.slot es ∧ ∃ r, .freed h r ∈ es
  freed : ∀ {h r}, .freed h r ∈ es → h ∈ allocations es

section

variable {p q : Pool α} {e : Event α} {h : Handle} {r : α} {es : List (Event α)} {bytes : Nat}

theorem tracked_start : Tracked [] (empty bytes : Pool α) where
  age i := by simp [Pool.age, empty, frees]
  nodup := nodup_nil
  live hh := by simp [contains, get?_empty] at hh
  past hh := nomatch hh
  freed hr := nomatch hr

theorem Tracked.other (hp : Tracked es p) (he : allocations (e :: es) = allocations es)
    (hfrees : ∀ i, frees i (e :: es) = frees i es) (hfreed : ∀ h r, e ≠ .freed h r)
    (hage : ∀ i, q.age i = p.age i) (hcontains : ∀ h, q.contains h = p.contains h) :
    Tracked (e :: es) q where
  age i := by rw [hage, hfrees, hp.age]
  nodup := he ▸ hp.nodup
  live hh := by
    obtain ⟨hin, hnot⟩ := hp.live (hcontains _ ▸ hh)
    refine ⟨he ▸ hin, fun r hr => ?_⟩
    rcases mem_cons.mp hr with hr | hr
    · exact hfreed _ r hr.symm
    · exact hnot r hr
  past hh := by
    rw [hcontains, hfrees]
    exact (hp.past (he ▸ hh)).imp_right fun ⟨hlt, r, hr⟩ => ⟨hlt, r, mem_cons_of_mem _ hr⟩
  freed hr := by
    rcases mem_cons.mp hr with hr | hr
    · exact absurd hr.symm (hfreed _ _)
    · exact he ▸ hp.freed hr

/-- A handle that is given out was never given out before: its slot has no record, so all earlier
handles of the slot are older than the slot. -/
theorem Tracked.allocated [Inhabited α] (hp : Tracked es p) (hwf : p.WF) :
    Tracked (.allocated p.allocate.1 :: es) p.allocate.2 := by
  obtain ⟨-, -, hget⟩ := hwf.add (default : α)
  have hcontains : ∀ k, p.allocate.2.contains k ↔ k = p.allocate.1 ∨ p.contains k := fun k => by
    rw [contains, allocate, hget]
    by_cases hk : k = (p.add default).1 <;> simp [hk, contains]
  have hnew : p.allocate.1 ∉ allocations es := fun hin => by
    rcases hp.past hin with hlive | ⟨hlt, -⟩
    · exact hwf.allocate_slot hlive rfl
    have hage := hwf.age_new (default : α)
    rw [hp.age] at hage
    exact Nat.ne_of_lt hlt hage.symm
  have hfreed {k : Handle} {r : α} :
      .freed k r ∈ (.allocated p.allocate.1 :: es : List (Event α)) ↔ .freed k r ∈ es := by
    simp
  refine ⟨fun i => ?_, ?_, fun {h} hh => ?_, fun {h} hh => ?_, fun {h r} hr => ?_⟩
  · exact (age_add default i).trans (hp.age i)
  · exact nodup_cons.mpr ⟨hnew, hp.nodup⟩
  · rcases (hcontains h).mp hh with rfl | hh
    · exact ⟨mem_cons_self, fun r hr => hnew (hp.freed (hfreed.mp hr))⟩
    · obtain ⟨hin, hnot⟩ := hp.live hh
      exact ⟨mem_cons_of_mem _ hin, fun r hr => hnot r (hfreed.mp hr)⟩
  · rcases mem_cons.mp hh with rfl | hh
    · exact .inl ((hcontains _).mpr (.inl rfl))
    refine (hp.past hh).imp (fun hlive => (hcontains h).mpr (.inr hlive)) ?_
    rintro ⟨hlt, r, hr⟩
    exact ⟨hlt, r, hfreed.mpr hr⟩
  · exact mem_cons_of_mem _ (hp.freed (hfreed.mp hr))

theorem frees_freed (h : Handle) (r : α) (i : Nat) :
    frees i (.freed h r :: es) = frees i es + if i = h.slot then 1 else 0 := by
  simp only [frees, countP_cons, beq_iff_eq, eq_comm (a := i)]

/-- A handle that is freed becomes older than its slot, as all earlier handles of the slot are. -/
theorem Tracked.freed_step (hp : Tracked es p) (hr : p.get? h = some r)
    (hlt : frees h.slot es + 1 < 2 ^ 32) : Tracked (.freed h r :: es) (p.freed h.slot) := by
  obtain ⟨next, hslot⟩ := get?_eq_some.mp hr
  have hh := contains_of_get? hr
  have hcontains : ∀ k, (p.freed h.slot).contains k ↔ k ≠ h ∧ p.contains k := fun k => by
    rw [contains, get?_freed hslot]
    by_cases hk : k = h <;> simp [hk, contains]
  refine ⟨fun i => ?_, hp.nodup, fun {k} hk => ?_, fun {k} hk => ?_, fun {k s} hk => ?_⟩
  · rw [age_freed hh (by rwa [hp.age]), frees_freed, hp.age]
  · obtain ⟨hne, hk⟩ := (hcontains k).mp hk
    obtain ⟨hin, hnot⟩ := hp.live hk
    refine ⟨hin, fun s hs => ?_⟩
    rcases mem_cons.mp hs with hs | hs
    · cases hs
      exact hne rfl
    · exact hnot s hs
  · rw [frees_freed, hcontains]
    rcases hp.past hk with hlive | ⟨hold, s, hs⟩
    · by_cases hne : k = h
      · subst hne
        have hage := age_of_contains hlive
        rw [hp.age] at hage
        refine .inr ⟨?_, r, mem_cons_self⟩
        rw [if_pos rfl]
        omega
      · exact .inl ⟨hne, hlive⟩
    · exact .inr ⟨Nat.lt_add_right _ hold, s, mem_cons_of_mem _ hs⟩
  · rcases mem_cons.mp hk with hk | hk
    · cases hk
      exact (hp.live hh).1
    · exact hp.freed hk

theorem Tracked.performs [Inhabited α] (hp : Tracked es p) (hwf : p.WF) (hq : p.Performs e q)
    (hlt : ∀ i, frees i (e :: es) < 2 ^ 32) : Tracked (e :: es) q := by
  cases hq with
  | allocated => exact hp.allocated hwf
  | read | refused => exact hp.other rfl (fun _ => rfl) nofun (fun _ => rfl) fun _ => rfl
  | wrote hh => exact hp.other rfl (fun _ => rfl) nofun age_set fun k => contains_set hh k
  | @freed h r hr =>
    have hlt := hlt h.slot
    rw [frees_freed, if_pos rfl] at hlt
    exact hp.freed_step hr hlt

theorem frees_le_cons (e : Event α) (es : List (Event α)) (i : Nat) :
    frees i es ≤ frees i (e :: es) := by
  unfold frees
  rw [countP_cons]
  exact Nat.le_add_right _ _

variable [Inhabited α]

theorem History.tracked (hp : History bytes es p) (hlt : ∀ i, frees i es < 2 ^ 32) :
    Tracked es p := by
  induction hp with
  | start => exact tracked_start
  | step hp x ih =>
    have hbefore := ih fun i => Nat.lt_of_le_of_lt (frees_le_cons _ _ i) (hlt i)
    exact hbefore.performs hp.wf (Pool.performs _ x) hlt

/-- **Stale handles stay stale.** As long as no slot was freed `2 ^ 32` times, no handle was given
out twice, and a handle names a record if and only if it was given out and not freed. So every
operation through a handle that was freed is refused. -/
theorem stale_handles_refused (hp : History bytes es p) (hlt : ∀ i, frees i es < 2 ^ 32) :
    (allocations es).Nodup ∧
    (∀ h, p.contains h ↔ h ∈ allocations es ∧ ∀ r, .freed h r ∉ es) ∧
    ∀ h r, .freed h r ∈ es → p.get? h = none ∧
      p.perform (.read h) = (.refused h, p) ∧ p.perform (.free h) = (.refused h, p) ∧
      ∀ s, p.perform (.write h s) = (.refused h, p) := by
  have htracked := hp.tracked hlt
  have hcontains : ∀ h, p.contains h ↔ h ∈ allocations es ∧ ∀ r, .freed h r ∉ es := by
    refine fun h => ⟨htracked.live, fun ⟨hin, hnot⟩ => ?_⟩
    exact (htracked.past hin).resolve_right fun ⟨_, r, hr⟩ => hnot r hr
  refine ⟨htracked.nodup, hcontains, fun h r hr => ?_⟩
  have hstale : ¬ p.contains h := fun hh => ((hcontains h).mp hh).2 r hr
  have hnone : p.get? h = none := by simpa [contains] using hstale
  refine ⟨hnone, ?_, ?_, fun s => ?_⟩
  · simp [perform, hnone]
  · simp [perform, remove?_eq_none.mpr hnone]
  · simp [perform, hstale]

end

theorem stale_handles_refused_reused :
    (∀ i, frees i reusedEvents < 2 ^ 32) ∧ reusedPool.get? ⟨0, 0⟩ = none ∧
    reusedPool.perform (.free ⟨0, 0⟩) = (.refused ⟨0, 0⟩, reusedPool) := by
  have hlt (i : Nat) : frees i reusedEvents < 2 ^ 32 :=
    Nat.lt_of_le_of_lt countP_le_length (by decide)
  obtain ⟨-, -, hstale⟩ := stale_handles_refused reused_history hlt
  obtain ⟨hget, -, hfree, -⟩ := hstale ⟨0, 0⟩ 5 (by decide)
  exact ⟨hlt, hget, hfree⟩

end DCompiler.Pool
