import DCompiler.Proofs.Pool.Basic

/-!
# Chains and who owns them

`w.Gives E s Q` says that the work `w`, begun in the state `s`, ends in one of two ways: with a
result and a state that meet `Q`, or with a fault in `E`.

A chain is described by its *cells*, the handles of its records with their items (`Spans`). Work on
chains owns the cells it starts from and the cells it leaves; `Frame p l q m` says that all other
records are as they were, that none of them is among the cells it leaves, and that no record is
lost. Frames compose, so a chain that some work does not own survives it.
-/

namespace DCompiler.Fault

theorem wordOr_cases (e : Fault) (n : Nat) :
    wordOr e n = .ok n.toUInt64 ∧ n < 2 ^ 64 ∨ wordOr e n = .error e ∧ 2 ^ 64 ≤ n := by
  unfold wordOr
  split <;> simp [*]
  omega

theorem wordOr_eq_ok {e : Fault} {n : Nat} {w : UInt64} : wordOr e n = .ok w ↔ w.toNat = n := by
  rcases wordOr_cases e n with ⟨h, hn⟩ | ⟨h, hn⟩ <;> rw [h]
  · have hword : n.toUInt64.toNat = n := UInt64.toNat_ofNat_of_lt' hn
    rw [Except.ok.injEq, ← UInt64.toNat_inj, hword, eq_comm]
  · have hlt := w.toNat_lt
    exact ⟨nofun, fun h => by omega⟩

theorem bind_eq_ok {α β : Type} {r : Except Fault α} {f : α → Except Fault β} {b : β} :
    (r >>= f) = .ok b ↔ ∃ a, r = .ok a ∧ f a = .ok b := by
  cases r <;> simp [bind, Except.bind]

theorem signedWordOr_cases (e : Fault) (n : Int) :
    signedWordOr e n = .ok (.ofInt n) ∧ -2 ^ 63 ≤ n ∧ n < 2 ^ 63 ∨
      signedWordOr e n = .error e ∧ ¬ (-2 ^ 63 ≤ n ∧ n < 2 ^ 63) := by
  unfold signedWordOr
  split <;> simp_all

end DCompiler.Fault

namespace DCompiler.Work

variable {σ τ α β : Type} {E : Fault → Prop} {s t : σ} {a : α} {Q : α → σ → Prop}
variable {w : Work σ α} {f : α → Work σ β} {R : β → σ → Prop}

/-! ## Runs -/

theorem run_pure (a : α) (s : σ) : (pure a : Work σ α).run s = (.ok a, s) := rfl

theorem run_get (s : σ) : (get : Work σ σ).run s = (.ok s, s) := rfl

theorem run_modify (f : σ → σ) (s : σ) : (modify f : Work σ PUnit).run s = (.ok ⟨⟩, f s) := rfl

theorem run_modifyGet (f : σ → α × σ) (s : σ) :
    (modifyGet f : Work σ α).run s = (.ok (f s).1, (f s).2) := rfl

theorem run_set (s t : σ) : (set t : Work σ PUnit).run s = (.ok ⟨⟩, t) := rfl

theorem run_liftExcept (r : Except Fault α) (s : σ) :
    (liftExcept r : Work σ α).run s = (r, s) := by
  cases r <;> rfl

theorem run_bind_eq (w : Work σ α) (f : α → Work σ β) (s : σ) :
    (w >>= f).run s =
      match w.run s with
      | (.ok a, t) => (f a).run t
      | (.error e, t) => (.error e, t) := by
  have hbind (x : StateM σ (Except Fault α)) (k : Except Fault α → StateM σ (Except Fault β)) :
      (x >>= k) s = k (x s).1 (x s).2 := rfl
  rw [ExceptT.run_bind, hbind]
  rcases w.run s with ⟨_ | _, _⟩ <;> rfl

theorem run_bind (hw : w.run s = (.ok a, t)) (f : α → Work σ β) :
    (w >>= f).run s = (f a).run t := by
  rw [run_bind_eq, hw]

/-! ## Results and faults -/

/-- The work ends with a result and a state as described, or with one of the faults. -/
def Gives (E : Fault → Prop) (w : Work σ α) (s : σ) (Q : α → σ → Prop) : Prop :=
  match w.run s with
  | (.ok a, t) => Q a t
  | (.error e, _) => E e

theorem Gives.of_run (hw : w.run s = (.ok a, t)) (hQ : Q a t) : w.Gives E s Q := by
  unfold Gives
  rw [hw]
  exact hQ

theorem Gives.fault {e : Fault} (hw : w.run s = (.error e, t)) (he : E e) : w.Gives E s Q := by
  unfold Gives
  rw [hw]
  exact he

theorem Gives.pure (hQ : Q a s) : (Pure.pure a : Work σ α).Gives E s Q := .of_run (run_pure a s) hQ

theorem Gives.lift {r : Except Fault α} (hE : ∀ e, r = .error e → E e)
    (hQ : ∀ a, r = .ok a → Q a s) : (liftExcept r : Work σ α).Gives E s Q := by
  cases r with
  | error e => exact .fault (run_liftExcept _ s) (hE e rfl)
  | ok a => exact .of_run (run_liftExcept _ s) (hQ a rfl)

theorem Gives.bind (hw : w.Gives E s Q) (hf : ∀ a t, Q a t → (f a).Gives E t R) :
    (w >>= f).Gives E s R := by
  unfold Gives at hw ⊢
  rw [run_bind_eq]
  rcases hrun : w.run s with ⟨e | a, t⟩ <;> simp only [hrun] at hw ⊢
  · exact hw
  · exact hf a t hw

theorem Gives.after (hw : w.run s = (.ok a, t)) (hf : (f a).Gives E t R) :
    (w >>= f).Gives E s R := by
  unfold Gives at hf ⊢
  rw [run_bind hw]
  exact hf

theorem Gives.imp {R : α → σ → Prop} (hw : w.Gives E s Q) (hQ : ∀ a t, Q a t → R a t) :
    w.Gives E s R := by
  unfold Gives at hw ⊢
  split
  · next h => exact hQ _ _ (by rwa [h] at hw)
  · next h => rwa [h] at hw

theorem Gives.cases (hw : w.Gives E s Q) :
    (∃ a t, w.run s = (.ok a, t) ∧ Q a t) ∨ ∃ e t, w.run s = (.error e, t) ∧ E e := by
  unfold Gives at hw
  rcases hrun : w.run s with ⟨e | a, t⟩ <;> rw [hrun] at hw
  · exact .inr ⟨e, t, rfl, hw⟩
  · exact .inl ⟨a, t, rfl, hw⟩

theorem Gives.of_ok (hw : w.Gives E s Q) (hrun : w.run s = (.ok a, t)) : Q a t := by
  unfold Gives at hw
  rwa [hrun] at hw

theorem Gives.run (hw : w.Gives (fun _ => False) s Q) : ∃ a t, w.run s = (.ok a, t) ∧ Q a t := by
  obtain h | ⟨_, _, -, hfalse⟩ := hw.cases
  · exact h
  · exact hfalse.elim

/-! ## Parts of a state -/

variable {read : σ → τ} {write : τ → σ → σ}

theorem run_onPart {w : Work τ α} {part : τ} (hw : w.run (read s) = (.ok a, part)) :
    (onPart read write w).run s = (.ok a, write part s) := by
  show ((w.run (read s)).1, write (w.run (read s)).2 s) = _
  rw [hw]

theorem Gives.onPart {w : Work τ α} {Q : α → τ → Prop} (hw : w.Gives E (read s) Q) :
    (onPart read write w).Gives E s fun a t => ∃ part, Q a part ∧ t = write part s := by
  have hsplit : (Work.onPart read write w).run s =
      ((w.run (read s)).1, write (w.run (read s)).2 s) := rfl
  unfold Gives at hw ⊢
  rw [hsplit]
  rcases hrun : w.run (read s) with ⟨e | a, part⟩ <;> simp only [hrun] at hw ⊢
  · exact hw
  · exact ⟨part, hw, rfl⟩

end DCompiler.Work

namespace DCompiler

open List Pool ChainWork

abbrev Cells (α : Type) := List (Handle × α)

namespace Cells

variable {α : Type}

def handles (l : Cells α) : List Handle := l.map Prod.fst

def items (l : Cells α) : List α := l.map Prod.snd

@[simp] theorem handles_nil : handles ([] : Cells α) = [] := rfl

@[simp] theorem handles_cons (h : Handle) (x : α) (l : Cells α) :
    handles ((h, x) :: l) = h :: handles l := rfl

@[simp] theorem handles_append (l m : Cells α) : handles (l ++ m) = handles l ++ handles m :=
  map_append

@[simp] theorem items_nil : items ([] : Cells α) = [] := rfl

@[simp] theorem items_cons (h : Handle) (x : α) (l : Cells α) :
    items ((h, x) :: l) = x :: items l := rfl

@[simp] theorem items_append (l m : Cells α) : items (l ++ m) = items l ++ items m := map_append

open Work

variable {E : Fault → Prop} {p q u : ChainPool α} {c d e : Chain} {h t : Handle} {x : α}
  {l m n : Cells α}

/-! ## Cells of a chain -/

/-- A chain goes along cells up to the start of another one. -/
inductive Runs (p : ChainPool α) (d : Chain) : Chain → Cells α → Prop
  | nil : Runs p d d []
  | cons {h : Handle} {x : α} {next : Chain} {l : Cells α} :
    p.get? h = some ⟨x, next⟩ → Runs p d next l → Runs p d (some h) ((h, x) :: l)

/-- The cells of a whole chain. -/
abbrev Spans (p : ChainPool α) (c : Chain) (l : Cells α) : Prop := Runs p none c l

theorem Runs.append (hl : Runs p d c l) (hm : Runs p e d m) : Runs p e c (l ++ m) := by
  induction hl with
  | nil => exact hm
  | cons hget _ ih => exact .cons hget ih

theorem Runs.split (hlm : Runs p d c (l ++ m)) : ∃ e, Runs p e c l ∧ Runs p d e m := by
  induction l generalizing c with
  | nil => exact ⟨c, .nil, hlm⟩
  | cons cell l ih =>
    cases hlm with
    | cons hget hrest =>
      obtain ⟨e, hl, hm⟩ := ih hrest
      exact ⟨e, .cons hget hl, hm⟩

theorem Runs.congr (hl : Runs p d c l) (hq : ∀ h ∈ handles l, q.get? h = p.get? h) :
    Runs q d c l := by
  induction hl with
  | nil => exact .nil
  | @cons h x next l hget _ ih =>
    refine .cons ((hq h mem_cons_self).trans hget) (ih fun k hk => ?_)
    exact hq k (mem_cons_of_mem h hk)

theorem Runs.contains (hl : Runs p d c l) : ∀ h ∈ handles l, p.contains h := by
  induction hl with
  | nil => simp
  | @cons h x next l hget _ ih =>
    intro k hk
    rcases mem_cons.mp hk with rfl | hk
    · exact contains_of_get? hget
    · exact ih k hk

theorem Spans.eq (hl : Spans p c l) (hm : Spans p c m) : l = m := by
  induction l generalizing c m with
  | nil =>
    cases hl
    cases hm
    rfl
  | cons cell l ih =>
    cases hl with
    | cons hget hrest =>
      cases hm with
      | cons hget' hrest' =>
        obtain ⟨rfl, rfl⟩ := Linked.mk.inj (Option.some.inj (hget.symm.trans hget'))
        rw [ih hrest hrest']

theorem Runs.rest (hl : Runs p d c l) (hm : Spans p c m) : ∃ n, m = l ++ n ∧ Spans p d n := by
  induction hl generalizing m with
  | nil => exact ⟨m, rfl, hm⟩
  | cons hget _ ih =>
    cases hm with
    | cons hget' hrest =>
      obtain ⟨rfl, rfl⟩ := Linked.mk.inj (Option.some.inj (hget.symm.trans hget'))
      obtain ⟨n, rfl, hn⟩ := ih hrest
      exact ⟨n, rfl, hn⟩

/-- A chain that ends does not come to the same record twice, since the same records would follow
each time. -/
theorem Spans.nodup (hl : Spans p c l) : (handles l).Nodup := by
  induction l generalizing c with
  | nil => exact nodup_nil
  | cons cell l ih =>
    have hwhole := hl
    cases hl with
    | @cons h x next _ hget hrest =>
      refine nodup_cons.mpr ⟨fun hmem => ?_, ih hrest⟩
      obtain ⟨⟨k, y⟩, hcell, hk⟩ := mem_map.mp hmem
      obtain ⟨before, behind, rfl⟩ := append_of_mem hcell
      obtain ⟨e, -, hbehind⟩ := hrest.split
      cases hbehind with
      | cons hget' hrest' =>
        subst hk
        have hlength := congrArg List.length (Spans.eq hwhole (.cons hget' hrest'))
        simp only [length_cons, length_append] at hlength
        omega

theorem Spans.length_le (hp : p.WF) (hl : Spans p c l) : l.length ≤ p.live := by
  simpa [handles] using hp.length_le hl.nodup hl.contains

/-! ## Frames -/

/-- What was neither owned before nor is owned now is as it was, and the live records are those and
the owned ones. -/
structure Frame (p : ChainPool α) (l : Cells α) (q : ChainPool α) (m : Cells α) : Prop where
  keeps : ∀ h r, p.get? h = some r → h ∉ handles l → q.get? h = some r ∧ h ∉ handles m
  live : q.live + l.length = p.live + m.length

theorem Frame.refl (p : ChainPool α) (l : Cells α) : Frame p l p l :=
  ⟨fun _ _ hr hl => ⟨hr, hl⟩, rfl⟩

theorem Frame.trans (hpq : Frame p l q m) (hqu : Frame q m u n) : Frame p l u n where
  keeps h r hr hl := hqu.keeps h r (hpq.keeps h r hr hl).1 (hpq.keeps h r hr hl).2
  live := by have := hpq.live; have := hqu.live; omega

theorem Frame.spans (hf : Frame p l q m) (hn : Spans p c n)
    (hapart : ∀ h ∈ handles n, h ∉ handles l) :
    Spans q c n ∧ ∀ h ∈ handles n, h ∉ handles m := by
  have hkeep : ∀ h ∈ handles n, q.get? h = p.get? h ∧ h ∉ handles m := fun h hh => by
    obtain ⟨r, hr⟩ := contains_iff.mp (hn.contains h hh)
    obtain ⟨hq, hm⟩ := hf.keeps h r hr (hapart h hh)
    exact ⟨hq.trans hr.symm, hm⟩
  exact ⟨hn.congr fun h hh => (hkeep h hh).1, fun h hh => (hkeep h hh).2⟩

/-- What else is owned is kept by work on a part of it. -/
theorem Frame.keep_left (hf : Frame p m q n) (l : Cells α) : Frame p (l ++ m) q (l ++ n) where
  keeps h r hr hlm := by
    simp only [handles_append, mem_append, not_or] at hlm ⊢
    exact ⟨(hf.keeps h r hr hlm.2).1, hlm.1, (hf.keeps h r hr hlm.2).2⟩
  live := by have := hf.live; simp only [length_append]; omega

theorem Frame.keep_right (hf : Frame p l q n) (m : Cells α) : Frame p (l ++ m) q (n ++ m) where
  keeps h r hr hlm := by
    simp only [handles_append, mem_append, not_or] at hlm ⊢
    exact ⟨(hf.keeps h r hr hlm.1).1, (hf.keeps h r hr hlm.1).2, hlm.2⟩
  live := by have := hf.live; simp only [length_append]; omega

/-- Work that begins with nothing of its own can be done beside any chain. -/
theorem Frame.beside (hf : Frame p [] q m) (l : Cells α) : Frame p l q (l ++ m) := by
  simpa using hf.keep_left l

/-! ## Walking along a chain -/

section Walking

variable {r : Linked α} {next : Chain}

theorem record_run (hr : p.get? h = some r) : (record h).run p = (.ok r, p) := by
  rw [record, run_bind (run_get p)]
  simp only [hr]
  rfl

theorem record_run_stale (hr : p.get? h = none) :
    (record h).run p = (.error (.staleHandle h), p) := by
  rw [record, run_bind (run_get p)]
  simp only [hr]
  rfl

theorem modifyRecord_run (hr : p.get? h = some r) (f : Linked α → Linked α) :
    (modifyRecord h f).run p = (.ok ⟨⟩, p.set h (f r)) := by
  rw [modifyRecord, run_bind (record_run hr), run_modify]

theorem handlesWithin_run {steps : Nat} (hl : Spans p c l) (hsteps : l.length ≤ steps) :
    (handlesWithin steps c).run p = (.ok (handles l), p) := by
  induction l generalizing c steps with
  | nil =>
    cases hl
    cases steps <;> rfl
  | cons cell l ih =>
    cases hl with
    | cons hget hrest =>
      obtain ⟨steps, rfl⟩ : ∃ n, steps = n + 1 := ⟨steps - 1, by simp at hsteps; omega⟩
      rw [handlesWithin, run_bind (record_run hget),
        run_bind (ih hrest (Nat.le_of_succ_le_succ hsteps)), run_pure]
      rfl

theorem handles_run (hp : p.WF) (hl : Spans p c l) :
    (ChainWork.handles c).run p = (.ok (handles l), p) := by
  exact handlesWithin_run hl (Nat.le_succ_of_le (Nat.le_trans (hl.length_le hp) hp.live_le))

theorem mapM_items_run (hl : Runs p d c l) :
    ((handles l).mapM fun h => return (← record h).item).run p = (.ok (items l), p) := by
  induction hl with
  | nil => rfl
  | cons hget _ ih =>
    rw [handles_cons, mapM_cons, run_bind, run_bind ih, run_pure]
    · rfl
    · rw [run_bind (record_run hget), run_pure]

theorem items_run (hp : p.WF) (hl : Spans p c l) :
    (ChainWork.items c).run p = (.ok (items l), p) := by
  rw [ChainWork.items, run_bind (handles_run hp hl)]
  exact mapM_items_run hl

theorem last_run (hp : p.WF) (hl : Spans p c l) :
    (ChainWork.last c).run p = (.ok (handles l).getLast?, p) := by
  rw [ChainWork.last, run_bind (handles_run hp hl), run_pure]

theorem remove_run (hr : p.get? h = some r) :
    (remove h).run p = (.ok r, p.freed h.slot) := by
  rw [remove, run_bind (run_get p)]
  simp only [remove?_eq_some.mpr ⟨hr, rfl⟩]
  rw [run_bind (run_set p _), run_pure]

theorem live_freed (hp : p.WF) (hr : p.get? h = some r) : (p.freed h.slot).live + 1 = p.live := by
  refine Nat.sub_add_cancel (hp.length_le (nodup_singleton h) fun k hk => ?_)
  rw [mem_singleton.mp hk]
  exact contains_of_get? hr

theorem remove_gives (hp : p.WF) (hr : p.get? h = some r) :
    (remove h).Gives E p fun _ q =>
      q.WF ∧ q.live + 1 = p.live ∧ ∀ k, q.get? k = if k = h then none else p.get? k := by
  obtain ⟨next, hslot⟩ := get?_eq_some.mp hr
  exact .of_run (remove_run hr) ⟨hp.freed hslot, live_freed hp hr, get?_freed hslot⟩

structure Released (p : ChainPool α) (l : Cells α) (q : ChainPool α) : Prop where
  wf : q.WF
  live : q.live + l.length = p.live
  lookup : ∀ k, q.get? k = if k ∈ handles l then none else p.get? k

theorem Released.frame (hq : Released p l q) : Frame p l q [] :=
  ⟨fun k r hr hk => ⟨by rw [hq.lookup, if_neg hk, hr], not_mem_nil⟩, hq.live⟩

theorem Released.cons (hp : p.WF) (hget : p.get? h = some ⟨x, c⟩)
    (hq : Released (p.freed h.slot) l q) : Released p ((h, x) :: l) q := by
  obtain ⟨next, hslot⟩ := get?_eq_some.mp hget
  refine ⟨hq.wf, ?_, fun k => ?_⟩
  · have hlive := hq.live
    have hone := live_freed hp hget
    rw [length_cons]
    omega
  · rw [hq.lookup, get?_freed hslot, handles_cons]
    by_cases hk : k = h <;> simp [hk]

/-- A walk along a chain comes to rest at its end, or at a handle that is stale or was met
before. -/
structure Halts (p : ChainPool α) (c : Chain) (l : Cells α) (d : Chain) : Prop where
  runs : Runs p d c l
  nodup : (handles l).Nodup
  halt : ∀ h ∈ d, h ∈ handles l ∨ p.get? h = none

theorem Halts.cons (hget : p.get? h = some ⟨x, c⟩) (hl : Halts (p.freed h.slot) c l d) :
    Halts p (some h) ((h, x) :: l) d := by
  obtain ⟨_, hslot⟩ := get?_eq_some.mp hget
  have hlookup := get?_freed hslot
  have hne : ∀ k ∈ handles l, k ≠ h := by
    rintro _ hk rfl
    simpa [Pool.contains, hlookup] using hl.runs.contains _ hk
  refine ⟨.cons hget (hl.runs.congr fun k hk => ?_), nodup_cons.mpr ⟨fun hh => ?_, hl.nodup⟩,
    fun k hk => ?_⟩
  · rw [hlookup, if_neg (hne k hk)]
  · exact hne h hh rfl
  · rcases hl.halt k hk with hin | hstale
    · exact .inl (mem_cons_of_mem _ hin)
    · by_cases hkh : k = h
      · exact .inl (hkh ▸ mem_cons_self)
      · exact .inr (by rwa [hlookup, if_neg hkh] at hstale)

theorem Halts.unique (hl : Halts p c l d) (hm : Spans p c m) : l = m ∧ d = none := by
  obtain ⟨n, rfl, hn⟩ := hl.runs.rest hm
  cases hn with
  | nil => exact ⟨(append_nil l).symm, rfl⟩
  | @cons h x _ n hget _ =>
    have hnodup := hm.nodup
    rw [handles_append, nodup_append] at hnodup
    rcases hl.halt h rfl with hin | hstale
    · exact absurd rfl (hnodup.2.2 h hin h mem_cons_self)
    · cases hget.symm.trans hstale

/-- Each step frees a record, so the walk is over before the steps are. -/
theorem releaseWithin_run {steps : Nat} (hp : p.WF) (hsteps : p.live < steps) (c : Chain) :
    ∃ l d q, Halts p c l d ∧ Released p l q ∧ (releaseWithin steps c).run p =
      (d.elim (.ok ⟨⟩) fun h => .error (.staleHandle h), q) := by
  induction steps generalizing p c with
  | zero => exact absurd hsteps (Nat.not_lt_zero _)
  | succ steps ih =>
    have hnone : Released p [] p := ⟨hp, rfl, fun k => by simp⟩
    cases c with
    | none => exact ⟨[], none, p, ⟨.nil, nodup_nil, nofun⟩, hnone, rfl⟩
    | some h =>
      cases hget : p.get? h with
      | none =>
        refine ⟨[], some h, p, ⟨.nil, nodup_nil, fun k hk => ?_⟩, hnone, ?_⟩
        · cases hk
          exact .inr hget
        · rw [releaseWithin, run_bind_eq, record_run_stale hget]
          rfl
      | some r =>
        obtain ⟨_, hslot⟩ := get?_eq_some.mp hget
        have hlive := live_freed hp hget
        obtain ⟨l, d, q, hl, hq, hrun⟩ := ih (hp.freed hslot) (by omega) r.next
        refine ⟨(h, r.item) :: l, d, q, .cons hget hl, .cons hp hget hq, ?_⟩
        rw [releaseWithin, run_bind (record_run hget), run_bind (remove_run hget), hrun]

theorem release_halts (hp : p.WF) (c : Chain) :
    ∃ l d q, Halts p c l d ∧ Released p l q ∧ (release c).run p =
      (d.elim (.ok ⟨⟩) fun h => .error (.staleHandle h), q) :=
  releaseWithin_run hp (Nat.lt_succ_self _) c

theorem release_run (hp : p.WF) (hl : Spans p c l) :
    ∃ q, (release c).run p = (.ok ⟨⟩, q) ∧ Released p l q := by
  obtain ⟨_, _, q, hhalts, hq, hrun⟩ := release_halts hp c
  obtain ⟨rfl, rfl⟩ := hhalts.unique hl
  exact ⟨q, hrun, hq⟩

theorem release_gives (hp : p.WF) (hl : Spans p c l) :
    (release c).Gives E p fun _ q => q.WF ∧ Frame p l q [] := by
  obtain ⟨q, hrun, hq⟩ := release_run hp hl
  exact .of_run hrun ⟨hq.wf, hq.frame⟩

/-- **Releasing ends, whatever the links are.** The records of a chain are freed, and nothing else.
If the links come to a handle that is stale or was met before, the records up to there are freed,
and the work faults at that handle. -/
theorem release_frees_what_it_meets (hp : p.WF) (c : Chain) :
    (∀ l, Spans p c l → ∃ q, (release c).run p = (.ok ⟨⟩, q) ∧ Released p l q) ∧
      ((¬ ∃ l, Spans p c l) → ∃ l h q, Runs p (some h) c l ∧ (handles l).Nodup ∧
        (h ∈ handles l ∨ p.get? h = none) ∧
        (release c).run p = (.error (.staleHandle h), q) ∧ Released p l q) := by
  refine ⟨fun l hl => release_run hp hl, fun hnone => ?_⟩
  obtain ⟨l, d, q, hl, hq, hrun⟩ := release_halts hp c
  cases d with
  | none => exact absurd ⟨l, hl.runs⟩ hnone
  | some h => exact ⟨l, h, q, hl.runs, hl.nodup, hl.halt h rfl, hrun, hq⟩

/-- Two records that lead to each other. -/
def looped : ChainPool Nat :=
  (((empty 64).add ⟨1, some ⟨1, 0⟩⟩).2.add ⟨2, some ⟨0, 0⟩⟩).2

theorem release_frees_loop : looped.WF ∧ ∃ l h q, Runs looped (some h) (some ⟨0, 0⟩) l ∧
    (handles l).Nodup ∧ (h ∈ handles l ∨ looped.get? h = none) ∧
    (release (some ⟨0, 0⟩)).run looped = (.error (.staleHandle h), q) ∧
    Released looped l q := by
  have hp : looped.WF := (((wf_empty 64).add _).1.add _).1
  refine ⟨hp, (release_frees_what_it_meets hp _).2 ?_⟩
  rintro ⟨l, hl⟩
  have hwhole := hl
  -- after two records the chain is at its start again
  cases hl with
  | cons hget hrest =>
    cases hget
    cases hrest with
    | cons hget hrest =>
      cases hget
      have hlength := congrArg List.length (hwhole.eq hrest)
      simp only [length_cons] at hlength
      omega

end Walking

/-! ## Builders -/

/-- A builder has built a chain of cells. -/
structure Builds (p : ChainPool α) (b : ChainBuilder) (l : Cells α) : Prop where
  spans : Spans p b.first l
  last : b.last = (handles l).getLast?

/-- What is left by work on a builder that owned the cells `l`. -/
structure Built (p : ChainPool α) (l : Cells α) (q : ChainPool α) (b : ChainBuilder)
    (m : Cells α) : Prop extends Builds q b m where
  wf : q.WF
  frame : Frame p l q m

variable {b other : ChainBuilder}

theorem builds_empty (p : ChainPool α) : Builds p .empty [] := ⟨.nil, rfl⟩

theorem Builds.built (hb : Builds p b l) (hp : p.WF) : Built p l p b l := ⟨hb, hp, .refl p l⟩

theorem Built.after {u : ChainPool α} {n : Cells α} (hm : Built q m u b n) (hl : Frame p l q m) :
    Built p l u b n := { hm with frame := hl.trans hm.frame }

theorem Frame.builds (hf : Frame p l q m) (hn : Builds p b n)
    (hapart : ∀ h ∈ handles n, h ∉ handles l) :
    Builds q b n ∧ ∀ h ∈ handles n, h ∉ handles m :=
  ⟨⟨(hf.spans hn.spans hapart).1, hn.last⟩, (hf.spans hn.spans hapart).2⟩

theorem Builds.last_cell (hb : Builds p b l) (ht : b.last = some t) :
    ∃ before x, l = before ++ [(t, x)] := by
  have hlast := hb.last.symm.trans ht
  rw [handles, getLast?_map] at hlast
  obtain ⟨⟨k, x⟩, hcell, rfl⟩ := Option.map_eq_some_iff.mp hlast
  obtain ⟨before, rfl⟩ := getLast?_eq_some_iff.mp hcell
  exact ⟨before, x, rfl⟩

theorem Builds.no_cell (hb : Builds p b l) (hlast : b.last = none) : l = [] := by
  simpa [handles] using hb.last.symm.trans hlast

theorem Spans.redirect (hl : Spans p c (l ++ [(t, x)])) (next : Chain) :
    Runs (p.set t ⟨x, next⟩) next c (l ++ [(t, x)]) := by
  have hnodup := hl.nodup
  obtain ⟨e, hbefore, hlast⟩ := hl.split
  cases hlast with
  | cons hget _ =>
    have hlive := contains_of_get? hget
    refine Runs.append (hbefore.congr fun k hk => ?_) (.cons ?_ .nil)
    · rw [handles_append, nodup_append] at hnodup
      have hne : k ≠ t := hnodup.2.2 k hk t mem_cons_self
      rw [get?_set hlive, if_neg hne]
    · rw [get?_set hlive, if_pos rfl]

/-- What a builder does with a chain whose ends are known: it appends its cells. -/
theorem link_gives (hp : p.WF) (hb : Builds p b l) (hm : Spans p (some h) m)
    (ht : (handles m).getLast? = some t) (hapart : ∀ k ∈ handles m, k ∉ handles l) :
    (b.link h t).Gives E p fun b q => Built p (l ++ m) q b (l ++ m) := by
  rw [ChainBuilder.link]
  have hlast' : (handles (l ++ m)).getLast? = some t := by
    rw [handles_append, getLast?_append, ht]
    rfl
  cases hlast : b.last with
  | none =>
    obtain rfl := hb.no_cell hlast
    exact .pure ⟨⟨hm, hlast'.symm⟩, hp, .refl p _⟩
  | some tail =>
    obtain ⟨before, x, rfl⟩ := hb.last_cell hlast
    obtain ⟨e, -, hcell⟩ := hb.spans.split
    cases hcell with
    | cons hget _ =>
      have hlive := contains_of_get? hget
      have hm' : Spans (p.set tail ⟨x, some h⟩) (some h) m := hm.congr fun k hk => by
        have hne : k ≠ tail := fun hk' => hapart k hk (by simp [hk'])
        rw [get?_set hlive, if_neg hne]
      refine .after (modifyRecord_run hget _) (.pure ⟨⟨?_, hlast'.symm⟩, hp.set hlive, ?_⟩)
      · exact (hb.spans.redirect (some h)).append hm'
      refine ⟨fun k r hr hk => ?_, by simp⟩
      have hne : k ≠ tail := fun hk' => hk (by simp [hk'])
      exact ⟨by rw [get?_set hlive, if_neg hne, hr], hk⟩

theorem make_run (hp : p.WF) (x : α) :
    ∃ h q, (make x).run p = (.ok h, q) ∧ q.WF ∧ Frame p [] q [(h, x)] ∧
      Spans q (some h) [(h, x)] := by
  obtain ⟨hq, hnew, hlookup⟩ := hp.add ⟨x, none⟩
  refine ⟨_, _, run_modifyGet _ p, hq, ⟨fun k r hr _ => ?_, by simp⟩,
    .cons (by rw [hlookup, if_pos rfl]) .nil⟩
  have hne : k ≠ (p.add ⟨x, none⟩).1 := fun hk => by simp [hk, hnew] at hr
  exact ⟨by rw [hlookup, if_neg hne, hr], by simp [hne]⟩

theorem push_gives (hp : p.WF) (hb : Builds p b l) (x : α) :
    (b.push x).Gives E p fun result q =>
      Built p l q result.2 (l ++ [(result.1, x)]) := by
  obtain ⟨h, q, hmake, hq, hframe, hcell⟩ := make_run hp x
  obtain ⟨hb', hapart⟩ := hframe.builds hb fun _ _ => not_mem_nil
  refine .after hmake (.bind (link_gives hq hb' hcell rfl fun k hk hl => hapart k hl hk)
    fun b u hu => .pure (hu.after (hframe.beside l)))

theorem append_gives (hp : p.WF) (hb : Builds p b l) (hother : Builds p other m)
    (hapart : ∀ k ∈ handles m, k ∉ handles l) :
    (b.append other).Gives E p fun b q => Built p (l ++ m) q b (l ++ m) := by
  have hlast := hother.last
  have hspans := hother.spans
  rw [ChainBuilder.append]
  cases hfirst : other.first with
  | none =>
    rw [hfirst] at hspans
    cases hspans
    rw [append_nil]
    exact .pure (hb.built hp)
  | some first =>
    rw [hfirst] at hspans
    cases hend : other.last with
    | none =>
      obtain rfl := hother.no_cell hend
      cases hspans
    | some last => exact link_gives hp hb hspans (hlast.symm.trans hend) hapart

theorem appendChain_gives (hp : p.WF) (hb : Builds p b l) (hm : Spans p c m)
    (hapart : ∀ k ∈ handles m, k ∉ handles l) :
    (b.appendChain c).Gives E p fun b q => Built p (l ++ m) q b (l ++ m) := by
  refine .after (last_run hp hm) ?_
  cases hm with
  | nil =>
    rw [append_nil]
    exact .pure (hb.built hp)
  | @cons h x next m hget hrest =>
    obtain ⟨t, ht⟩ : ∃ t, (handles ((h, x) :: m)).getLast? = some t := by
      simp [handles, getLast?_cons]
    rw [ht]
    exact link_gives hp hb (.cons hget hrest) ht hapart

theorem modifyItem_gives {r : α} {f : α → α} (hp : p.WF) (hb : Builds p b (l ++ (t, r) :: m)) :
    (modifyItem t f).Gives E p fun _ q =>
      Built p (l ++ (t, r) :: m) q b (l ++ (t, f r) :: m) := by
  have hnodup := hb.spans.nodup
  rw [handles_append, handles_cons, nodup_append, nodup_cons] at hnodup
  obtain ⟨-, ⟨htm, -⟩, hlt⟩ := hnodup
  obtain ⟨e, hl, hcell⟩ := hb.spans.split
  cases hcell with
  | @cons _ _ next _ hget hm =>
    have hlive := contains_of_get? hget
    have hother : ∀ k, k ≠ t → (p.set t ⟨f r, next⟩).get? k = p.get? k := fun k hk => by
      rw [get?_set hlive, if_neg hk]
    refine .of_run (modifyRecord_run hget _)
      ⟨⟨?_, ?_⟩, hp.set hlive, fun k s hs hk => ⟨?_, ?_⟩, by simp⟩
    · refine Runs.append (hl.congr fun k hk => hother k (hlt k hk t mem_cons_self)) ?_
      refine .cons (by rw [get?_set hlive, if_pos rfl]) (hm.congr fun k hk => hother k ?_)
      exact fun hkt => htm (hkt ▸ hk)
    · simpa using hb.last
    · exact (hother k fun hkt => hk (by simp [hkt])).trans hs
    · simpa using hk

end Cells

end DCompiler

namespace DCompiler.Cells

end DCompiler.Cells
