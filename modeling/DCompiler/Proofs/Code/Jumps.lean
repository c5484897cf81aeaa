import DCompiler.Code.Builder
import DCompiler.Proofs.Pool.Chain
import Mathlib.Data.List.ModifyLast

/-!
# Builders, walks and jumps

A builder appends behind the record that it knows as the last. The functions of `Code` walk along
the chain to find that record each time. Begun with the same pool, both write the same records in
the same order, so they end with the same pool, or with the same fault (`Agrees`).

A jump goes to the end of its builder, and it marks the record that it goes to, which may stand in
any chain (`Runs.modifyAt`, `Marks`). One that is taken only without parity is several records: the
record to land on is made first and appended last, so two builders are at work side by side
(`BuiltBeside`). Where the records of a jump lead is read off the links and targets in the pool
(`Leaves`).
-/

namespace DCompiler

open List Cells Work Opcode CodeBuilder

namespace Work

variable {σ α β γ δ : Type} {E : Fault → Prop} {s t : σ}

/-! ## Work that does the same -/

/-- Two works that begin in one state end in one state: with results as described, or with one
fault. -/
def Agrees (E : Fault → Prop) (w : Work σ α) (v : Work σ β) (s : σ) (Q : α → β → σ → Prop) : Prop :=
  (∃ a b t, w.run s = (.ok a, t) ∧ v.run s = (.ok b, t) ∧ Q a b t) ∨
    ∃ e t, w.run s = (.error e, t) ∧ v.run s = (.error e, t) ∧ E e

namespace Agrees

variable {w : Work σ α} {v : Work σ β} {Q : α → β → σ → Prop} {a : α} {b : β} {P : α → σ → Prop}

theorem of_run (hw : w.run s = (.ok a, t)) (hv : v.run s = (.ok b, t)) (hQ : Q a b t) :
    Agrees E w v s Q :=
  .inl ⟨a, b, t, hw, hv, hQ⟩

theorem pure (hQ : Q a b s) : Agrees E (Pure.pure a) (Pure.pure b) s Q :=
  of_run (run_pure a s) (run_pure b s) hQ

theorem of_map {f : α → β} (hw : w.Gives E s P) (hv : v.run s = ((w.run s).1.map f, (w.run s).2)) :
    Agrees E w v s fun a b t => b = f a ∧ P a t := by
  unfold Gives at hw
  rcases hrun : w.run s with ⟨e | a, t⟩ <;> rw [hrun] at hw hv
  · exact .inr ⟨e, t, hrun, hv, hw⟩
  · exact .inl ⟨a, f a, t, hrun, hv, rfl, hw⟩

theorem same (hw : w.Gives E s P) : Agrees E w w s fun a b t => b = a ∧ P a t :=
  of_map (f := id) hw (by rcases w.run s with ⟨_ | _, _⟩ <;> rfl)

section

variable (hwv : Agrees E w v s Q)
include hwv

theorem bind {f : α → Work σ γ} {g : β → Work σ δ} {R : γ → δ → σ → Prop}
    (hfg : ∀ a b t, Q a b t → Agrees E (f a) (g b) t R) : Agrees E (w >>= f) (v >>= g) s R := by
  rcases hwv with ⟨a, b, t, hw, hv, hQ⟩ | ⟨e, t, hw, hv, he⟩
  · unfold Agrees
    rw [run_bind hw, run_bind hv]
    exact hfg a b t hQ
  refine .inr ⟨e, t, ?_, ?_, he⟩
  · rw [run_bind_eq, hw]
  · rw [run_bind_eq, hv]

theorem imp {F : Fault → Prop} {R : α → β → σ → Prop}
    (hE : ∀ e, E e → F e) (hQ : ∀ a b t, Q a b t → R a b t) : Agrees F w v s R := by
  rcases hwv with ⟨a, b, t, hw, hv, h⟩ | ⟨e, t, hw, hv, he⟩
  · exact .inl ⟨a, b, t, hw, hv, hQ a b t h⟩
  · exact .inr ⟨e, t, hw, hv, hE e he⟩

theorem map_left {f : α → γ} {R : γ → β → σ → Prop}
    (hQ : ∀ a b t, Q a b t → R (f a) b t) : Agrees E (do return f (← w)) v s R := by
  have h := hwv.bind (g := Pure.pure) fun a b t hab => pure (E := E) (hQ a b t hab)
  rwa [bind_pure] at h

theorem map_right {g : β → δ} {R : α → δ → σ → Prop}
    (hQ : ∀ a b t, Q a b t → R a (g b) t) : Agrees E w (do return g (← v)) s R := by
  have h := hwv.bind (f := Pure.pure) fun a b t hab => pure (E := E) (hQ a b t hab)
  rwa [bind_pure] at h

end

end Agrees

end Work

namespace Cells

open Work

variable {α : Type} {E : Fault → Prop} {p q : ChainPool α} {b other : ChainBuilder} {c d : Chain}
  {h t : Handle} {x : α} {r : Linked α} {f : α → α} {l m : Cells α}

/-! ## Changes of one record -/

/-- The cells with another item behind one handle. -/
def modifyAt (h : Handle) (f : α → α) (l : Cells α) : Cells α :=
  l.map fun cell => if cell.1 = h then (cell.1, f cell.2) else cell

@[simp] theorem handles_modifyAt (h : Handle) (f : α → α) (l : Cells α) :
    handles (modifyAt h f l) = handles l := by
  unfold handles modifyAt
  rw [map_map]
  refine map_congr_left fun cell _ => ?_
  simp only [Function.comp_apply]
  split <;> rfl

theorem handles_modifyLast (f : α → α) (l : Cells α) :
    handles (l.modifyLast fun cell => (cell.1, f cell.2)) = handles l := by
  rcases eq_nil_or_concat l with rfl | ⟨before, cell, rfl⟩
  · rfl
  · rw [concat_eq_append, modifyLast_concat, handles_append, handles_append]
    rfl

/-- Every chain goes along the same handles after an item is changed. -/
theorem Runs.modifyAt (hr : p.get? h = some r) (hl : Runs p d c l) :
    Runs (p.set h { r with item := f r.item }) d c (Cells.modifyAt h f l) := by
  have hlive := Pool.contains_of_get? hr
  induction hl with
  | nil => exact .nil
  | @cons k x next l hget _ ih =>
    by_cases hk : k = h
    · subst hk
      obtain rfl := Option.some.inj (hr.symm.trans hget)
      have hcell : Cells.modifyAt k f ((k, x) :: l) = (k, f x) :: Cells.modifyAt k f l := by
        simp [Cells.modifyAt]
      rw [hcell]
      exact .cons (by rw [Pool.get?_set hlive, if_pos rfl]) ih
    · have hcell : Cells.modifyAt h f ((k, x) :: l) = (k, x) :: Cells.modifyAt h f l := by
        simp [Cells.modifyAt, hk]
      rw [hcell]
      exact .cons (by rw [Pool.get?_set hlive, if_neg hk, hget]) ih

/-! ## The last record -/

section

variable (hp : p.WF) (hb : Builds p b l)
include hp hb

theorem Builds.last_run : (ChainWork.last b.first).run p = (.ok b.last, p) := by
  rw [Cells.last_run hp hb.spans, hb.last]

/-- Behind the last record there is nothing, so writing this changes nothing. -/
theorem walk_append_none : (ChainWork.append b.first none).run p = (.ok b.first, p) := by
  rw [ChainWork.append, run_bind (hb.last_run hp)]
  cases hlast : b.last with
  | none =>
    obtain rfl := hb.no_cell hlast
    have hspans := hb.spans
    generalize b.first = first at hspans
    cases hspans
    rfl
  | some tail =>
    obtain ⟨before, x, rfl⟩ := hb.last_cell hlast
    obtain ⟨e, -, hcell⟩ := hb.spans.split
    cases hcell with
    | cons hget hrest =>
      cases hrest
      have hset : p.set tail ⟨x, none⟩ = p := Pool.set_self hget
      refine (run_bind (modifyRecord_run hget _) _).trans ?_
      rw [hset]
      rfl

theorem walk_append_some (h t : Handle) :
    (ChainWork.append b.first (some h)).run p =
      (((b.link h t).run p).1.map (·.first), ((b.link h t).run p).2) := by
  rw [ChainWork.append, run_bind (hb.last_run hp), ChainBuilder.link]
  cases b.last with
  | none => rfl
  | some tail =>
    rw [run_bind_eq, run_bind_eq]
    rcases (ChainWork.setNext tail (some h)).run p with ⟨_ | _, _⟩ <;> rfl

theorem append_agrees (hother : Builds p other m)
    (hapart : ∀ k ∈ handles m, k ∉ handles l) :
    Agrees E (b.append other) (ChainWork.append b.first other.first) p fun b' c q =>
      c = b'.first ∧ Built p (l ++ m) q b' (l ++ m) := by
  refine .of_map (append_gives hp hb hother hapart) ?_
  have hspans := hother.spans
  rw [ChainBuilder.append]
  cases hfirst : other.first with
  | none => exact walk_append_none hp hb
  | some first =>
    rw [hfirst] at hspans
    cases hend : other.last with
    | none =>
      obtain rfl := hother.no_cell hend
      cases hspans
    | some last => exact walk_append_some hp hb first last

theorem appendChain_agrees (hm : Spans p c m)
    (hapart : ∀ k ∈ handles m, k ∉ handles l) :
    Agrees E (b.appendChain c) (ChainWork.append b.first c) p fun b' c q =>
      c = b'.first ∧ Built p (l ++ m) q b' (l ++ m) := by
  refine .of_map (appendChain_gives hp hb hm hapart) ?_
  rw [ChainBuilder.appendChain, run_bind (last_run hp hm)]
  cases hm with
  | nil => exact walk_append_none hp hb
  | @cons h x next m hget hrest =>
    obtain ⟨t, ht⟩ : ∃ t, (handles ((h, x) :: m)).getLast? = some t := by
      simp [handles, getLast?_cons]
    rw [ht]
    exact walk_append_some hp hb h t

theorem modifyLast_agrees (f : α → α) :
    Agrees E
      (match b.last with
        | none => return
        | some h => ChainWork.modifyItem h f : ChainWork α Unit)
      (do
        match ← ChainWork.last b.first with
        | none => return
        | some h => ChainWork.modifyItem h f)
      p fun _ _ q => Built p l q b (l.modifyLast fun cell => (cell.1, f cell.2)) := by
  unfold Agrees
  rw [run_bind (hb.last_run hp)]
  refine Agrees.imp (.same (P := fun _ q => Built p l q b _) ?_) (fun _ => id) fun _ _ _ =>
    And.right
  cases hlast : b.last with
  | none =>
    obtain rfl := hb.no_cell hlast
    exact .pure (hb.built hp)
  | some tail =>
    obtain ⟨before, x, rfl⟩ := hb.last_cell hlast
    rw [modifyLast_concat]
    exact modifyItem_gives hp hb

end

end Cells

/-! ## Jumps -/

variable {E : Fault → Prop} {p q u : CodePool} {b : CodeBuilder} {h : Handle}
  {l m : Cells Instruction} {x : Instruction} {own : Cells Instruction} {other : CodeBuilder}

/-! ## Marked targets -/

/-- The cells with the targets of jumps marked. -/
def marked (targets : List Handle) (l : Cells Instruction) : Cells Instruction :=
  targets.foldl (fun l h => modifyAt h (Instruction.orFlags .target) l) l

@[simp] theorem handles_marked (targets : List Handle) (l : Cells Instruction) :
    handles (marked targets l) = handles l := by
  induction targets generalizing l with
  | nil => rfl
  | cons h targets ih => exact (ih _).trans (handles_modifyAt ..)

def targetOf : OperandClass → Operand → List Handle
  | .code, .code h => [h]
  | _, _ => []

/-- Nothing has changed but the marks of targets. -/
structure Marks (p : CodePool) (targets : List Handle) (q : CodePool) : Prop where
  wf : q.WF
  runs : ∀ {d c : Chain} {l : Cells Instruction}, Runs p d c l → Runs q d c (marked targets l)
  contains : ∀ h, q.contains h = p.contains h

theorem Marks.builds {targets : List Handle} (hq : Marks p targets q) (hb : Builds p b l) :
    Builds q b (marked targets l) :=
  ⟨hq.runs hb.spans, by rw [handles_marked, hb.last]⟩

def StaleTarget (p : CodePool) (targets : List Handle) (e : Fault) : Prop :=
  ∃ h ∈ targets, p.contains h = false ∧ e = .staleHandle h

theorem markTarget_gives (hp : p.WF) (cls : OperandClass) (target : Operand) :
    (markTarget cls target).Gives (StaleTarget p (targetOf cls target)) p
      fun _ q => Marks p (targetOf cls target) q := by
  fun_cases markTarget cls target with
  | case1 h =>
    cases hr : p.get? h with
    | none =>
      have hrun : (ChainWork.modifyItem h (Instruction.orFlags .target)).run p =
          (.error (.staleHandle h), p) := by
        rw [ChainWork.modifyItem, ChainWork.modifyRecord, run_bind_eq, record_run_stale hr]
      exact .fault hrun ⟨h, mem_singleton_self h, by simp [Pool.contains, hr], rfl⟩
    | some r =>
      have hlive := Pool.contains_of_get? hr
      refine .of_run (modifyRecord_run hr _) ⟨hp.set hlive, fun hl => hl.modifyAt hr, fun k => ?_⟩
      exact Pool.contains_set hlive k
  | case2 =>
    rename_i hother
    rw [targetOf.eq_2 _ _ hother]
    exact .pure ⟨hp, fun hl => hl, fun _ => rfl⟩

/-! ## Walking counterparts -/

namespace Code

def plainJump (c : Chain) (op : UInt32) (cls : OperandClass) (target : Operand) :
    CodeWork Chain := do
  markTarget cls target
  append c (.jump op cls target)

/-- Append a jump. One that is taken only without parity is stepped over by a parity jump to an
empty instruction behind it. -/
def jump (c : Chain) (opcode : UInt32) (cls : OperandClass) (target : Operand) :
    CodeWork Chain := do
  markTarget cls target
  let parity := (opcode >>> 8) &&& 0xff
  let i := Instruction.jump opcode cls target
  if parity = 0 then append c i
  else if parity = jumpParity then
    append (← append c i) { i with op := jumpParity }
  else if parity = jumpNoParity then
    match ← append none Instruction.nop with
    | none => return c
    | some landing =>
      let c ← plainJump c jumpParity .code (.code landing)
      let c ← append c i
      ChainWork.append c (some landing)
  else throw (.parityOfJump parity opcode)

end Code

theorem push_agrees (hp : p.WF) (hb : Builds p b l) (x : Instruction) :
    Agrees E (b.push x) (Code.append b.first x) p fun result c q =>
      c = result.2.first ∧ Built p l q result.2 (l ++ [(result.1, x)]) := by
  refine .of_map (push_gives hp hb x) ?_
  obtain ⟨h, q, hmake, hq, hframe, -⟩ := make_run hp x
  obtain ⟨hb', -⟩ := hframe.builds hb fun _ _ => not_mem_nil
  rw [Code.append, ChainBuilder.push, run_bind hmake, run_bind hmake, walk_append_some hq hb' h h,
    run_bind_eq]
  rcases (b.link h h).run q with ⟨_ | _, _⟩ <;> rfl

def JumpCells (opcode : UInt32) (cls : OperandClass) (target : Operand)
    (made : Cells Instruction) : Prop :=
  let parity := (opcode >>> 8) &&& 0xff
  let i := Instruction.jump opcode cls target
  parity = 0 ∧ items made = [i] ∨
    parity = jumpParity ∧ items made = [i, { i with op := jumpParity }] ∨
      parity = jumpNoParity ∧ ∃ around jump landing,
        made = [(around, .jump jumpParity .code (.code landing)), (jump, i),
          (landing, Instruction.nop.orFlags .target)]

def JumpFaults (p : CodePool) (opcode : UInt32) (cls : OperandClass) (target : Operand)
    (e : Fault) : Prop :=
  let parity := (opcode >>> 8) &&& 0xff
  StaleTarget p (targetOf cls target) e ∨
    parity ∉ [0, jumpParity, jumpNoParity] ∧ e = .parityOfJump parity opcode

theorem Builds.first_eq (hb : Builds p b [(h, x)]) : b.first = some h := by
  have hspans := hb.spans
  generalize b.first = first at hspans ⊢
  cases hspans
  rfl

/-- Two builders with cells of their own. -/
structure BuiltBeside (p : CodePool) (own : Cells Instruction) (q : CodePool) (b : CodeBuilder)
    (l : Cells Instruction) (other : CodeBuilder) (m : Cells Instruction) : Prop where
  wf : q.WF
  builds : Builds q b l
  other : Builds q other m
  apart : ∀ h ∈ handles m, h ∉ handles l
  frame : Frame p own q (l ++ m)

theorem BuiltBeside.push (hq : BuiltBeside p own q b l other m) {b' : CodeBuilder}
    (hu : Built q l u b' (l ++ [(h, x)])) : BuiltBeside p own u b' (l ++ [(h, x)]) other m := by
  obtain ⟨hother, hapart⟩ := hu.frame.builds hq.other hq.apart
  exact ⟨hu.wf, hu.toBuilds, hother, hapart, hq.frame.trans (hu.frame.keep_right m)⟩

theorem plainJump_agrees (hq : BuiltBeside p own q b l other [(h, x)]) (op : UInt32) :
    Agrees E (plainJump b op .code (.code h)) (Code.plainJump b.first op .code (.code h)) q
      fun b' c u => c = b'.first ∧ ∃ k, BuiltBeside p own u b'
        (l ++ [(k, .jump op .code (.code h))]) other [(h, x.orFlags .target)] := by
  refine .bind (.same (modifyItem_gives (l := []) (m := []) hq.wf hq.other)) ?_
  rintro _ _ u ⟨-, hu⟩
  obtain ⟨hb, hapart⟩ := hu.frame.builds hq.builds fun k hk hkh => hq.apart k hkh hk
  have hboth : BuiltBeside p own u b l other [(h, x.orFlags .target)] :=
    ⟨hu.wf, hb, hu.toBuilds, fun k hk hl => hapart k hl hk, hq.frame.trans (hu.frame.keep_left l)⟩
  refine (push_agrees hu.wf hb _).map_left ?_
  rintro ⟨k, b'⟩ _ v ⟨rfl, hv⟩
  exact ⟨rfl, k, hboth.push hv⟩

/-- A jump that is taken only without parity: the record to land on is made first and appended
last. -/
theorem jumpNoParity_agrees (hp : p.WF) (hb : Builds p b l) (i : Instruction) :
    Agrees E
      (do
        let (landing, behind) ← ChainBuilder.push .empty Instruction.nop
        let b ← plainJump b jumpParity .code (.code landing)
        let (_, b) ← ChainBuilder.push b i
        ChainBuilder.append b behind)
      (do
        match ← Code.append none Instruction.nop with
        | none => return b.first
        | some landing =>
          let c ← Code.plainJump b.first jumpParity .code (.code landing)
          let c ← Code.append c i
          ChainWork.append c (some landing))
      p fun b' c q => c = b'.first ∧ ∃ around jump landing, Built p l q b'
        (l ++ [(around, .jump jumpParity .code (.code landing)), (jump, i),
          (landing, Instruction.nop.orFlags .target)]) := by
  refine .bind (push_agrees hp (builds_empty p) Instruction.nop) ?_
  rintro ⟨landing, behind⟩ _ q1 ⟨rfl, h1⟩
  obtain ⟨hb1, hapart⟩ := h1.frame.builds hb fun _ _ => not_mem_nil
  have hboth : BuiltBeside p l q1 b l behind [(landing, Instruction.nop)] :=
    ⟨h1.wf, hb1, h1.toBuilds, fun k hk hl => hapart k hl hk, h1.frame.beside l⟩
  rw [Builds.first_eq h1.toBuilds]
  refine .bind (plainJump_agrees hboth _) ?_
  rintro b2 _ q2 ⟨rfl, around, h2⟩
  refine .bind (push_agrees h2.wf h2.builds i) ?_
  rintro ⟨jump, b3⟩ _ q3 ⟨rfl, hq3⟩
  have h3 := h2.push hq3
  rw [← Builds.first_eq h3.other]
  refine (append_agrees h3.wf h3.builds h3.other h3.apart).imp (fun _ => id) ?_
  rintro b4 _ q4 ⟨rfl, h4⟩
  refine ⟨rfl, around, jump, landing, ?_⟩
  have hcells := { h4 with frame := h3.frame.trans h4.frame }
  rw [append_assoc, append_assoc] at hcells
  exact hcells

theorem jump_agrees (hp : p.WF) (hb : Builds p b l) (opcode : UInt32) (cls : OperandClass)
    (target : Operand) :
    Agrees (JumpFaults p opcode cls target) (jump b opcode cls target)
      (Code.jump b.first opcode cls target) p fun b' c q =>
        c = b'.first ∧ ∃ u made, Marks p (targetOf cls target) u ∧
          JumpCells opcode cls target made ∧ Built u (marked (targetOf cls target) l) q b'
            (marked (targetOf cls target) l ++ made) := by
  refine .bind ((Agrees.same (markTarget_gives hp cls target)).imp (fun _ => .inl)
    fun _ _ _ => And.right) fun _ _ u hu => ?_
  have hb' := hu.builds hb
  dsimp only
  split
  · next hparity =>
    refine (push_agrees hu.wf hb' _).map_left ?_
    rintro ⟨h, b'⟩ _ q ⟨rfl, hq⟩
    exact ⟨rfl, u, _, hu, .inl ⟨hparity, rfl⟩, hq⟩
  · split
    · next hparity =>
      refine .bind (push_agrees hu.wf hb' _) ?_
      rintro ⟨h, b'⟩ _ q ⟨rfl, hq⟩
      refine (push_agrees hq.wf hq.toBuilds _).map_left ?_
      rintro ⟨h', b''⟩ _ q' ⟨rfl, hq'⟩
      rw [append_assoc] at hq'
      exact ⟨rfl, u, _, hu, .inr (.inl ⟨hparity, rfl⟩),
        { hq' with frame := hq.frame.trans hq'.frame }⟩
    · split
      · next hparity =>
        refine (jumpNoParity_agrees hu.wf hb' _).imp (fun _ => id) ?_
        rintro b' _ q ⟨rfl, around, jump, landing, hq⟩
        exact ⟨rfl, u, _, hu, .inr (.inr ⟨hparity, around, jump, landing, rfl⟩), hq⟩
      · refine .inr ⟨_, u, rfl, rfl, .inr ⟨?_, rfl⟩⟩
        simp [*]

/-! ## Where jumps lead -/

/-- Where code goes on: at a record, at a block, or behind the last record. -/
inductive CodePoint where
  | record (h : Handle)
  | block (number : UInt32)
  | behind
  deriving DecidableEq

def CodePoint.ofChain : Chain → CodePoint
  | some h => record h
  | none => behind

def CodePoint.ofOperand? : OperandClass → Operand → Option CodePoint
  | .code, .code h => some (record h)
  | .block, .block number => some (block number)
  | _, _ => none

/-- Where code goes on behind a record, by the opcodes whose jumps are taken. -/
def Linked.leadsTo (taken : UInt32 → Bool) (r : Linked Instruction) : CodePoint :=
  match CodePoint.ofOperand? r.item.class2 r.item.operand2 with
  | some goal => if taken r.item.op then goal else .ofChain r.next
  | none => .ofChain r.next

/-- Code that begins at a point leaves its own records to another one. -/
inductive Leaves (p : CodePool) (taken : UInt32 → Bool) (own : List Handle) :
    CodePoint → CodePoint → Prop
  | done {x : CodePoint} (hx : ∀ h ∈ own, x ≠ .record h) : Leaves p taken own x x
  | step {h : Handle} {r : Linked Instruction} {x : CodePoint} (hh : h ∈ own)
    (hr : p.get? h = some r) (hx : Leaves p taken own (r.leadsTo taken) x) :
    Leaves p taken own (.record h) x

def Opcode.parity (opcode : UInt32) : UInt32 := (opcode >>> 8) &&& 0xff

/-- Whether a jump is taken that asks for parity as well. -/
def takenWith (taken : UInt32 → Bool) (opcode : UInt32) : Bool :=
  if parity opcode = jumpParity then taken (opcode &&& 0xff) || taken jumpParity
  else if parity opcode = jumpNoParity then taken (opcode &&& 0xff) && !taken jumpParity
  else taken (opcode &&& 0xff)

section

variable {taken : UInt32 → Bool} {own : List Handle} {start x y goal : CodePoint} {opcode : UInt32}
  {cls : OperandClass} {target : Operand} {made : Cells Instruction} {b' : CodeBuilder}
  {first : Handle} {r : Linked Instruction}

theorem Leaves.unique (hx : Leaves p taken own start x) (hy : Leaves p taken own start y) :
    x = y := by
  induction hx with
  | done hx =>
    cases hy with
    | done => rfl
    | step hh => exact absurd rfl (hx _ hh)
  | step hh hr _ ih =>
    cases hy with
    | done hy => exact absurd rfl (hy _ hh)
    | step _ hr' hy =>
      obtain rfl := Option.some.inj (hr.symm.trans hr')
      exact ih hy

theorem Leaves.iff (hx : Leaves p taken own start x) : Leaves p taken own start y ↔ y = x :=
  ⟨fun hy => hy.unique hx, fun hy => hy ▸ hx⟩

/-- A jump goes to its goal, or on with the records behind it. -/
theorem Leaves.jump {i : Instruction} {next : Chain} (hh : h ∈ own)
    (hr : p.get? h = some ⟨i, next⟩) (hi : CodePoint.ofOperand? i.class2 i.operand2 = some goal)
    (htaken : taken i.op = true → Leaves p taken own goal x)
    (hnot : taken i.op = false → Leaves p taken own (.ofChain next) x) :
    Leaves p taken own (.record h) x := by
  refine .step hh hr ?_
  rw [Linked.leadsTo, hi]
  cases hop : taken i.op with
  | true => exact htaken hop
  | false => exact hnot hop

theorem JumpCells.leaves (hmade : JumpCells opcode cls target made)
    (hspans : Spans q (some first) made) (hgoal : CodePoint.ofOperand? cls target = some goal)
    (hout : ∀ h ∈ handles made, goal ≠ .record h) :
    Leaves q taken (handles made) (.record first)
      (if takenWith taken opcode then goal else .behind) := by
  have hgoal' : takenWith taken opcode = true → Leaves q taken (handles made) goal
      (if takenWith taken opcode then goal else .behind) := fun h => by
    rw [if_pos h]
    exact .done hout
  have hbehind : takenWith taken opcode = false → Leaves q taken (handles made) .behind
      (if takenWith taken opcode then goal else .behind) := fun h => by
    rw [h]
    exact .done fun _ _ => nofun
  generalize (if takenWith taken opcode then goal else .behind) = x at hgoal' hbehind ⊢
  rcases hmade with ⟨hparity, hitems⟩ | ⟨hparity, hitems⟩ | ⟨hparity, around, jump, landing, rfl⟩
  · have htaken : takenWith taken opcode = taken (Instruction.jump opcode cls target).op := by
      simp [takenWith, parity, hparity, jumpParity, jumpNoParity, Instruction.jump]
    rw [htaken] at hgoal' hbehind
    cases hspans with
    | cons hget hrest =>
    obtain ⟨rfl, hnil⟩ := cons.inj hitems
    obtain rfl := map_eq_nil_iff.mp hnil
    cases hrest
    exact .jump mem_cons_self hget hgoal hgoal' hbehind
  · have htaken : takenWith taken opcode =
        (taken (Instruction.jump opcode cls target).op || taken jumpParity) := by
      simp [takenWith, parity, hparity, Instruction.jump]
    rw [htaken] at hgoal' hbehind
    cases hspans with
    | cons hget hrest =>
    obtain ⟨rfl, hrest'⟩ := cons.inj hitems
    cases hrest with
    | nil => cases hrest'
    | cons hget' hrest =>
    obtain ⟨rfl, hnil⟩ := cons.inj hrest'
    obtain rfl := map_eq_nil_iff.mp hnil
    cases hrest
    refine .jump mem_cons_self hget hgoal (fun hop => hgoal' (by simp [hop])) fun hop => ?_
    rw [hop, Bool.false_or] at hgoal' hbehind
    exact .jump (mem_cons_of_mem _ mem_cons_self) hget' hgoal hgoal' hbehind
  · have htaken : takenWith taken opcode =
        (taken (Instruction.jump opcode cls target).op && !taken jumpParity) := by
      simp [takenWith, parity, hparity, jumpParity, jumpNoParity, Instruction.jump]
    rw [htaken] at hgoal' hbehind
    cases hspans with
    | cons hget hrest =>
    cases hrest with
    | cons hget' hrest =>
    cases hrest with
    | cons hget'' hrest =>
    cases hrest
    have hlanding (h : takenWith taken opcode = false) :
        Leaves q taken [first, jump, landing] (.record landing) x :=
      .step (by simp) hget'' (hbehind (htaken.symm.trans h))
    have hop : (Instruction.jump jumpParity .code (.code landing)).op = jumpParity := rfl
    refine .jump mem_cons_self hget rfl (fun h => hlanding ?_) fun h => ?_
    · rw [htaken, ← hop, h, Bool.not_true, Bool.and_false]
    · refine .jump (by simp) hget' hgoal (fun h' => hgoal' ?_) fun h' => hlanding ?_
      · rw [h', ← hop, h]
        rfl
      · rw [htaken, h', Bool.false_and]

/-! ### Records that were there before -/

theorem Runs.get?_of_mem {x : Instruction} {d c : Chain} (hl : Runs p d c (l ++ (h, x) :: m)) :
    p.get? h = some ⟨x, (handles m).head?.or d⟩ := by
  obtain ⟨_, -, hcell⟩ := hl.split
  cases hcell with
  | cons hget hrest =>
    cases hrest <;> exact hget

/-- Behind a builder that has appended cells, only the link of its last record has changed. -/
theorem Built.get?_old (hb : Builds p b l) (hq : Built p l q b' (l ++ made))
    (hmade : Spans q (some first) made) (hr : p.get? h = some r) :
    h ∉ handles made ∧
      q.get? h = some { r with next := if b.last = some h then some first else r.next } := by
  have hnodup := hq.spans.nodup
  rw [handles_append, nodup_append] at hnodup
  by_cases hmem : h ∈ handles l
  · refine ⟨fun hh => hnodup.2.2 h hmem h hh rfl, ?_⟩
    obtain ⟨⟨h, y⟩, hcell, rfl⟩ := mem_map.mp hmem
    obtain ⟨before, behind, rfl⟩ := append_of_mem hcell
    obtain rfl := Option.some.inj (hr.symm.trans (Runs.get?_of_mem hb.spans))
    have hnew := hq.spans
    rw [append_assoc, cons_append] at hnew
    rw [Runs.get?_of_mem hnew, hb.last]
    cases behind with
    | nil =>
      cases hmade
      simp [handles]
    | cons cell behind =>
      have hne : (handles (before ++ (h, y) :: cell :: behind)).getLast? ≠ some h := fun hlast => by
        have hbehind : h ∈ handles (cell :: behind) := by
          refine mem_of_getLast? (Eq.trans ?_ hlast)
          simp [handles, getLast?_cons]
        have := hnodup.1
        rw [handles_append, handles_cons, nodup_append, nodup_cons] at this
        exact this.2.1.1 hbehind
      rw [if_neg hne]
      rfl
  · obtain ⟨hget, hout⟩ := hq.frame.keeps h r hr hmem
    have hlast : b.last ≠ some h := fun hlast => hmem (mem_of_getLast? (hb.last.symm.trans hlast))
    refine ⟨fun hh => hout ?_, ?_⟩
    · rw [handles_append]
      exact mem_append_right _ hh
    · rw [if_neg hlast, hget]

theorem Marks.get? (hq : Marks p (targetOf cls target) q) (hr : p.get? h = some r) :
    q.get? h = some { r with
      item := if h ∈ targetOf cls target then r.item.orFlags .target else r.item } := by
  have hcell : marked (targetOf cls target) [(h, r.item)] =
      [(h, if h ∈ targetOf cls target then r.item.orFlags .target else r.item)] := by
    fun_cases targetOf cls target with
    | case1 k => by_cases hk : h = k <;> simp [marked, modifyAt, hk]
    | case2 => rfl
  have hruns := hq.runs (.cons hr .nil)
  rw [hcell] at hruns
  exact Runs.get?_of_mem (l := []) hruns

theorem JumpCells.parity (hmade : JumpCells opcode cls target made) :
    Opcode.parity opcode ∈ [0, jumpParity, jumpNoParity] := by
  rcases hmade with ⟨hparity, -⟩ | ⟨hparity, -⟩ | ⟨hparity, -⟩ <;> simp [Opcode.parity, hparity]

theorem JumpCells.spans (hmade : JumpCells opcode cls target made)
    (hq : Built p l q b' (l ++ made)) : ∃ first, Spans q (some first) made := by
  obtain ⟨_, -, hspans⟩ := hq.spans.split
  cases hspans with
  | nil => simp [JumpCells] at hmade
  | cons hget hrest => exact ⟨_, .cons hget hrest⟩

theorem JumpCells.wide (hmade : JumpCells opcode cls target made)
    (hplain : Opcode.parity opcode ≠ 0 → opcode &&& 0xff ≠ Opcode.jump) :
    ∀ i ∈ items made, (CodePoint.ofOperand? i.class2 i.operand2).isSome → i.op ≠ Opcode.jump →
      i.flags.contains .wideJump := by
  have hflags {op : UInt32} {cls : OperandClass} {target : Operand}
      (hop : op &&& 0xff ≠ Opcode.jump) : (Instruction.jump op cls target).flags = .wideJump :=
    if_neg hop
  intro i hi hgoal hop
  rcases hmade with ⟨hparity, hitems⟩ | ⟨hparity, hitems⟩ | ⟨hparity, _, _, _, rfl⟩
  · rw [hitems, mem_singleton] at hi
    subst hi
    rw [hflags hop]
    rfl
  · have hjump := hplain (by rw [Opcode.parity, hparity]; decide)
    rw [hitems, mem_cons, mem_singleton] at hi
    rcases hi with rfl | rfl <;> simp only [hflags hjump] <;> rfl
  · simp only [items_cons, items_nil, mem_cons, not_mem_nil, or_false] at hi
    rcases hi with rfl | rfl | rfl
    · rw [hflags hop]
      rfl
    · rw [hflags hop]
      rfl
    · cases hgoal

/-- **Jumps lead where they say.** By whatever opcodes are taken, the records of a jump lead to its
target or fall through, as its opcode and the parity it asks for say; they jump wide, and of the
records that were there before only the last link of the builder and the mark of the target change.
There is no other parity to ask for. -/
theorem jump_leads (hp : p.WF) (hb : Builds p b l)
    (hgoal : CodePoint.ofOperand? cls target = some goal)
    (hlive : ∀ h ∈ targetOf cls target, p.contains h)
    (hplain : parity opcode ≠ 0 → opcode &&& 0xff ≠ Opcode.jump) :
    (parity opcode ∈ [0, jumpParity, jumpNoParity] → ∃ b' q first made,
      (jump b opcode cls target).run p = (.ok b', q) ∧
        Builds q b' (marked (targetOf cls target) l ++ made) ∧ Spans q (some first) made ∧
        (∀ h ∈ handles made, p.get? h = none) ∧
        (∀ taken x, Leaves q taken (handles made) (.record first) x ↔
          x = if takenWith taken opcode then goal else .behind) ∧
        (∀ i ∈ items made, (CodePoint.ofOperand? i.class2 i.operand2).isSome → i.op ≠ Opcode.jump →
          i.flags.contains .wideJump) ∧
        ∀ h r, p.get? h = some r → q.get? h = some
          ⟨if h ∈ targetOf cls target then r.item.orFlags .target else r.item,
            if b.last = some h then some first else r.next⟩) ∧
    (parity opcode ∉ [0, jumpParity, jumpNoParity] → ∃ q,
      (jump b opcode cls target).run p = (.error (.parityOfJump (parity opcode) opcode), q)) := by
  rcases jump_agrees hp hb opcode cls target with
    ⟨b', _, q, hrun, -, -, u, made, hu, hmade, hq⟩ | ⟨e, q, hrun, -, hstale | ⟨hparity, rfl⟩⟩
  · refine ⟨fun _ => ?_, fun hparity => absurd hmade.parity hparity⟩
    obtain ⟨first, hspans⟩ := hmade.spans hq
    have hold {h : Handle} {r : Linked Instruction} (hr : p.get? h = some r) :=
      Built.get?_old (hu.builds hb) hq hspans (hu.get? hr)
    have hfresh : ∀ h ∈ handles made, p.get? h = none := fun h hh => by
      by_contra hne
      obtain ⟨r, hr⟩ := Option.ne_none_iff_exists'.mp hne
      exact (hold hr).1 hh
    refine ⟨b', q, first, made, hrun, hq.toBuilds, hspans, hfresh, fun taken x => ?_,
      hmade.wide hplain, fun h r hr => (hold hr).2⟩
    refine (hmade.leaves hspans hgoal ?_).iff
    rintro h hh rfl
    have htarget : h ∈ targetOf cls target := by
      unfold CodePoint.ofOperand? at hgoal
      split at hgoal <;> cases hgoal
      exact mem_singleton_self h
    simpa [Pool.contains, hfresh h hh] using hlive h htarget
  · obtain ⟨h, hh, hdead, -⟩ := hstale
    exact absurd (hlive h hh) (by simp [hdead])
  · exact ⟨fun h => absurd h hparity, fun _ => ⟨q, hrun⟩⟩

/-- A pool with one record, which leads nowhere. -/
def oneRecord : CodePool := (CodePool.empty.add ⟨.nop, none⟩).2

theorem jump_leads_back : ∃ b' q first made,
    (jump ⟨some ⟨0, 0⟩, some ⟨0, 0⟩⟩ 0x7b75 .code (.code ⟨0, 0⟩)).run oneRecord = (.ok b', q) ∧
      Spans q (some first) made ∧ ∀ taken x, Leaves q taken (handles made) (.record first) x ↔
        x = if taken 0x75 && !taken jumpParity then .record ⟨0, 0⟩ else .behind := by
  have hp : oneRecord.WF := ((Pool.wf_empty 120).add _).1
  have hb : Builds oneRecord ⟨some ⟨0, 0⟩, some ⟨0, 0⟩⟩ [(⟨0, 0⟩, .nop)] := ⟨.cons rfl .nil, rfl⟩
  have hlive : ∀ h ∈ targetOf .code (.code ⟨0, 0⟩), oneRecord.contains h := by
    rintro h hh
    rw [mem_singleton.mp hh]
    rfl
  obtain ⟨b', q, first, made, hrun, -, hspans, -, hleaves, -⟩ :=
    (jump_leads hp hb rfl hlive fun (_ : parity 0x7b75 ≠ 0) => by decide).1 (by decide)
  exact ⟨b', q, first, made, hrun, hspans, hleaves⟩

end

end DCompiler
