import DCompiler.Proofs.Code.Jumps
import DCompiler.Proofs.Pool.Bench

/-!
# Building code is walking along chains

Code is built on a bench of builders and finished chains. Every operation of the builders has a
counterpart that knows chains by their first records only and walks along them
(`CodeOperation.walk`). Both do the same to the pool, fault for fault, and leave the same first
records.

What they leave is said on cells (`CodeOperation.apply`): new records stand behind the old ones, a
flag or an extending bit goes to the last record of one builder, and a jump marks the record it goes
to, wherever that stands. All else keeps its records and their order.
-/

namespace DCompiler

open Cells Work List

variable {E : Fault → Prop} {p q u : CodePool} {b : CodeBuilder} {l m : Cells Instruction}

/-! ## Operations on a bench -/

abbrev CodeBench := Bench CodeBuilder

/-- The first records of what stands on the bench. -/
def CodeBench.heads (a : CodeBench) : Place → Chain
  | .builder i => (a.builders i).first
  | .chain i => a.chains i

inductive CodeOperation where
  /-- Let a builder continue a chain. -/
  | ofChain (i j : Nat)
  | push (i : Nat) (x : Instruction)
  /-- Append an instruction that may be missing. -/
  | push? (i : Nat) (x : Option Instruction)
  | jump (i : Nat) (opcode : UInt32) (cls : OperandClass) (target : Operand)
  /-- Let a builder take over what another one has built. -/
  | append (i j : Nat)
  /-- Let a builder take over a chain. -/
  | appendChain (i j : Nat)
  | orFlags (i : Nat) (flags : CodeFlags)
  | orRex (i : Nat) (bits : UInt8)
  /-- Hand what a builder has built over to a chain. -/
  | finish (i j : Nat)
  deriving Repr, DecidableEq

namespace CodeOperation

/-- The chain that the same operation gives by walks along chains. -/
def walked (w : Place → Chain) : CodeOperation → CodeWork Chain
  | ofChain _ j => return w (.chain j)
  | push i x | push? i (some x) => Code.append (w (.builder i)) x
  | push? i none => return w (.builder i)
  | jump i opcode cls target => Code.jump (w (.builder i)) opcode cls target
  | append i j => ChainWork.append (w (.builder i)) (w (.builder j))
  | appendChain i j => ChainWork.append (w (.builder i)) (w (.chain j))
  | orFlags i flags => do
    Code.orFlags (w (.builder i)) flags
    return w (.builder i)
  | orRex i bits => do
    Code.orRex (w (.builder i)) bits
    return w (.builder i)
  | finish i _ => return w (.builder i)

/-- The places whose chains an operation takes. -/
def taken : CodeOperation → List Place
  | ofChain _ j => [.chain j]
  | append i j => [.builder i, .builder j]
  | appendChain i j => [.builder i, .chain j]
  | push i _ | push? i _ | jump i _ _ _ | orFlags i _ | orRex i _ | finish i _ => [.builder i]

def target : CodeOperation → Place
  | finish _ j => .chain j
  | ofChain i _ | push i _ | push? i _ | jump i _ _ _ | append i _ | appendChain i _ | orFlags i _
  | orRex i _ => .builder i

/-- An operation by builders. -/
def run (a : CodeBench) (op : CodeOperation) : CodeWork CodeBench := do
  let cleared := a.clear (fun _ => .empty) op.taken
  match op with
  | ofChain i j => return cleared.setBuilder i (← ChainBuilder.ofChain (a.chains j))
  | push i x => return cleared.setBuilder i (← (a.builders i).push x).2
  | push? i x => return cleared.setBuilder i (← (a.builders i).push? x).2
  | jump i opcode cls target =>
    return cleared.setBuilder i (← (a.builders i).jump opcode cls target)
  | append i j => return cleared.setBuilder i (← (a.builders i).append (a.builders j))
  | appendChain i j => return cleared.setBuilder i (← (a.builders i).appendChain (a.chains j))
  | orFlags i flags => do
    (a.builders i).orFlags flags
    return cleared.setBuilder i (a.builders i)
  | orRex i bits => do
    (a.builders i).orRex bits
    return cleared.setBuilder i (a.builders i)
  | finish i j => return cleared.setChain j (a.builders i).first

def walk (w : Place → Chain) (op : CodeOperation) : CodeWork (Place → Chain) :=
  return handOver w op.taken none op.target (← op.walked w)

def runAll (a : CodeBench) : List CodeOperation → CodeWork CodeBench
  | [] => return a
  | op :: ops => do runAll (← op.run a) ops

def walkAll (w : Place → Chain) : List CodeOperation → CodeWork (Place → Chain)
  | [] => return w
  | op :: ops => do walkAll (← op.walk w) ops

/-- The records that an operation marks as targets. -/
def targets : CodeOperation → List Handle
  | jump _ _ cls target => targetOf cls target
  | _ => []

def Makes (made : Cells Instruction) : CodeOperation → Prop
  | push _ x => items made = [x]
  | push? _ x => items made = x.toList
  | jump _ opcode cls target => JumpCells opcode cls target made
  | _ => made = []

def result (cells : Place → Cells Instruction) (made : Cells Instruction) :
    CodeOperation → Cells Instruction
  | ofChain _ j => cells (.chain j)
  | append i j => cells (.builder i) ++ cells (.builder j)
  | appendChain i j => cells (.builder i) ++ cells (.chain j)
  | push i _ | push? i _ | jump i _ _ _ => cells (.builder i) ++ made
  | orFlags i flags => (cells (.builder i)).modifyLast fun c => (c.1, c.2.orFlags flags)
  | orRex i bits => (cells (.builder i)).modifyLast fun c => (c.1, c.2.orRex bits)
  | finish i _ => cells (.builder i)

def apply (cells : Place → Cells Instruction) (made : Cells Instruction) (op : CodeOperation) :
    Place → Cells Instruction :=
  let cells := fun s => marked op.targets (cells s)
  handOver cells op.taken [] op.target (op.result cells made)

def IsApart (op : CodeOperation) : Prop := op.taken.Nodup

instance (op : CodeOperation) : Decidable op.IsApart := inferInstanceAs (Decidable (Nodup _))

/-- The faults of an operation; only a jump has any. -/
def Faults (p : CodePool) (e : Fault) : CodeOperation → Prop
  | jump _ opcode cls target => JumpFaults p opcode cls target e
  | _ => False

end CodeOperation

/-- Operations lead from some cells to others, with any new records. -/
inductive Leads : (Place → Cells Instruction) → List CodeOperation →
    (Place → Cells Instruction) → Prop
  | nil {cells : Place → Cells Instruction} : Leads cells [] cells
  | cons {cells cells' : Place → Cells Instruction} {made : Cells Instruction} {op : CodeOperation}
      {ops : List CodeOperation} :
    op.Makes made → Leads (op.apply cells made) ops cells' → Leads cells (op :: ops) cells'

namespace CodeBench

variable {a a' : CodeBench} {s : Place} {cells cells' : Place → Cells Instruction}
  {own : Cells Instruction} {targets : List Handle} {taken : List Place} {target : Place}

abbrev Has (a : CodeBench) (p : CodePool) : Place → Cells Instruction → Prop := Bench.Has id a p

abbrev Holds (p : CodePool) (a : CodeBench) (cells : Place → Cells Instruction) : Prop :=
  Bench.Holds id p a cells

theorem spans_of_has (hl : a.Has p s l) : Spans p (a.heads s) l := by
  cases s with
  | builder i => exact hl.spans
  | chain i => exact hl

theorem Marks.holds (ha : Holds p a cells) (hq : Marks p targets q) :
    Holds q a fun s => marked targets (cells s) where
  wf := hq.wf
  has s := by
    cases s with
    | builder i => exact hq.builds (ha.builds i)
    | chain i => exact hq.runs (ha.spans i)
  apart s t hst h hs ht := by
    rw [handles_marked] at hs ht
    exact ha.apart s t hst h hs ht

/-- Chains on no place of the bench keep their records, up to marks, and are on none afterwards. -/
def Keeps (targets : List Handle) (p : CodePool) (cells : Place → Cells Instruction) (q : CodePool)
    (cells' : Place → Cells Instruction) : Prop :=
  ∀ c l, Spans p c l → (∀ s, ∀ h ∈ handles l, h ∉ handles (cells s)) →
    Spans q c (marked targets l) ∧ ∀ s, ∀ h ∈ handles l, h ∉ handles (cells' s)

/-- What is left by work on a bench that marks targets. -/
structure Left (targets : List Handle) (p : CodePool) (cells : Place → Cells Instruction)
    (cells' : Place → Cells Instruction) (a : CodeBench) (q : CodePool) : Prop where
  holds : Holds q a cells'
  keeps : Keeps targets p cells q cells'
  live : ∀ h, p.contains h → q.contains h

theorem Left.trans {a'' : CodeBench} {others : List Handle} {cells'' : Place → Cells Instruction}
    (hq : Left targets p cells cells' a' q) (hu : Left others q cells' cells'' a'' u) :
    Left (targets ++ others) p cells cells'' a'' u where
  holds := hu.holds
  keeps c l hl hout := by
    obtain ⟨hl', hout'⟩ := hq.keeps c l hl hout
    rw [marked, foldl_append, ← marked, ← marked]
    simpa using hu.keeps c _ hl' (by simpa using hout')
  live h hh := hu.live h (hq.live h hh)

theorem Marks.left (ha : Holds p a cells) (hq : Marks p targets q) :
    Left targets p cells (fun s => marked targets (cells s)) a q where
  holds := Marks.holds ha hq
  keeps c l hl hout := ⟨hq.runs hl, by simpa using hout⟩
  live h hh := by rw [hq.contains, hh]

/-- Work on the cells of some places, which ends with cells in one place. -/
theorem left_of_holds (hown : Owns cells taken own) (hframe : Frame p own q m)
    (hkept : ∀ h ∈ handles own, h ∈ handles m)
    (hq : Holds q a' (handOver cells taken [] target m)) :
    Left [] p cells (handOver cells taken [] target m) a' q where
  holds := hq
  keeps _ _ hl hout := hframe.off_places hown hl hout target
  live h hh := by
    by_cases hmem : h ∈ handles own
    · have htarget := (hq.has target).contains
      rw [handOver_target] at htarget
      exact htarget h (hkept h hmem)
    · obtain ⟨r, hr⟩ := Pool.contains_iff.mp hh
      exact Pool.contains_of_get? (hframe.keeps h r hr hmem).1

/-! ## Operations on the places of a bench -/

variable {i j : Nat}

abbrev cleared (a : CodeBench) (taken : List Place) : CodeBench := a.clear (fun _ => .empty) taken

section

variable (ha : Holds p a cells)
include ha

theorem work (i : Nat) (taken : List Place) (hown : Owns cells taken own)
    (hq : Built p own q b m) (hkept : ∀ h ∈ handles own, h ∈ handles m) :
    Left [] p cells (handOver cells taken [] (.builder i) m)
      ((a.cleared taken).setBuilder i b) q :=
  left_of_holds hown hq.frame hkept (ha.setBuilder (fun _ => rfl) hown hq i)

theorem workOn (i : Nat) (hq : Built p (cells (.builder i)) q b m)
    (hkept : ∀ h ∈ handles (cells (.builder i)), h ∈ handles m) :
    Left [] p cells (handOver cells [.builder i] [] (.builder i) m)
      ((a.cleared [.builder i]).setBuilder i b) q :=
  work ha i [.builder i] (fun h => by simp) hq hkept

/-! ## Runs -/

theorem heads_eq (s : Place) : a.heads s = (handles (cells s)).head? := by
  have hspans := spans_of_has (ha.has s)
  generalize a.heads s = c at hspans ⊢
  generalize cells s = l at hspans ⊢
  cases hspans <;> rfl

theorem disjoint {t : Place} (hst : [s, t].Nodup) :
    ∀ h ∈ handles (cells t), h ∉ handles (cells s) := by
  have hne : t ≠ s := by
    rintro rfl
    simp at hst
  exact ha.apart t s hne

end

theorem heads_setBuilder (a : CodeBench) (i : Nat) (b : CodeBuilder) :
    heads (a.setBuilder i b) (.builder i) = b.first := by
  simp [heads, Bench.setBuilder]

theorem push_agrees (ha : Holds p a cells) (i : Nat) (x : Instruction) :
    Agrees E (do return (a.cleared [.builder i]).setBuilder i (← (a.builders i).push x).2)
      (Code.append (a.builders i).first x) p fun a' c q =>
        c = heads a' (.builder i) ∧ ∃ h, Left [] p cells
          (handOver cells [.builder i] [] (.builder i) (cells (.builder i) ++ [(h, x)])) a' q := by
  refine (DCompiler.push_agrees ha.wf (ha.builds i) x).map_left ?_
  rintro ⟨h, b⟩ _ q ⟨rfl, hq⟩
  exact ⟨(heads_setBuilder _ i b).symm, h, workOn ha i hq fun k hk => by simp [hk]⟩

/-- Work that changes the records of one builder, but not their order. -/
theorem change_agrees {w v : CodeWork Unit} (ha : Holds p a cells)
    (hwv : Agrees E w v p fun _ _ q => Built p (cells (.builder i)) q (a.builders i) m)
    (hm : handles m = handles (cells (.builder i))) :
    Agrees E (do w; return (a.cleared [.builder i]).setBuilder i (a.builders i))
      (do v; return (a.builders i).first) p fun a' c q => c = heads a' (.builder i) ∧
        Left [] p cells (handOver cells [.builder i] [] (.builder i) m) a' q :=
  .bind hwv fun _ _ _ hq =>
    .pure ⟨(heads_setBuilder _ i _).symm, workOn ha i hq fun k hk => by rwa [hm]⟩

theorem walked_agrees (ha : Holds p a cells) (op : CodeOperation) (hop : op.IsApart) :
    Agrees (op.Faults p) (op.run a) (op.walked a.heads) p fun a' c q =>
      c = a'.heads op.target ∧
        ∃ made, op.Makes made ∧ Left op.targets p cells (op.apply cells made) a' q := by
  cases op with
  | ofChain i j =>
    have hlast : (ChainBuilder.ofChain (a.chains j)).run p =
        (.ok ⟨a.chains j, (handles (cells (.chain j))).getLast?⟩, p) :=
      run_bind (last_run ha.wf (ha.spans j)) _
    have hbuilds : Builds p ⟨a.chains j, (handles (cells (.chain j))).getLast?⟩
        (cells (.chain j)) :=
      ⟨ha.spans j, rfl⟩
    have hleft := work ha i [.chain j] (fun h => by simp) (hbuilds.built ha.wf) fun _ hk => hk
    exact .of_run (run_bind hlast _) (run_pure _ p)
      ⟨(heads_setBuilder _ i ⟨a.chains j, _⟩).symm, [], rfl, hleft⟩
  | push i x =>
    refine (push_agrees ha i x).imp (fun _ => id) ?_
    rintro a' c q ⟨hc, h, hq⟩
    exact ⟨hc, [(h, x)], rfl, hq⟩
  | push? i x =>
    cases x with
    | none =>
      have hleft := workOn ha i ((ha.builds i).built ha.wf) fun _ hk => hk
      rw [← append_nil (cells (.builder i))] at hleft
      exact .of_run (run_bind (run_pure _ p) _) (run_pure _ p)
        ⟨(heads_setBuilder _ i _).symm, [], rfl, hleft⟩
    | some x =>
      have hpush : CodeOperation.run a (.push? i (some x)) =
          do return (a.cleared [.builder i]).setBuilder i (← (a.builders i).push x).2 := by
        simp [CodeOperation.run, CodeOperation.taken, CodeBuilder.push?]
      rw [hpush]
      refine (push_agrees ha i x).imp (fun _ => id) ?_
      rintro a' c q ⟨hc, h, hq⟩
      exact ⟨hc, [(h, x)], rfl, hq⟩
  | jump i opcode cls target =>
    refine (jump_agrees ha.wf (ha.builds i) opcode cls target).map_left ?_
    rintro b _ q ⟨rfl, u, made, hu, hmade, hq⟩
    have hwork := workOn (Marks.holds ha hu) i hq fun k hk => by
      rw [handles_append]
      exact mem_append_left _ hk
    have hleft := (Marks.left ha hu).trans hwork
    rw [append_nil] at hleft
    exact ⟨(heads_setBuilder _ i b).symm, made, hmade, hleft⟩
  | append i j =>
    refine (append_agrees ha.wf (ha.builds i) (ha.builds j) (disjoint ha hop)).map_left ?_
    rintro b _ q ⟨rfl, hq⟩
    exact ⟨(heads_setBuilder _ i b).symm, [], rfl,
      work ha i [.builder i, .builder j] (fun h => by simp) hq fun _ hk => hk⟩
  | appendChain i j =>
    refine (appendChain_agrees ha.wf (ha.builds i) (ha.spans j) (disjoint ha hop)).map_left ?_
    rintro b _ q ⟨rfl, hq⟩
    exact ⟨(heads_setBuilder _ i b).symm, [], rfl,
      work ha i [.builder i, .chain j] (fun h => by simp) hq fun _ hk => hk⟩
  | orFlags i flags =>
    refine (change_agrees ha (modifyLast_agrees ha.wf (ha.builds i) (Instruction.orFlags flags))
      (handles_modifyLast ..)).imp (fun _ => False.elim) ?_
    rintro a' c q ⟨hc, hq⟩
    exact ⟨hc, [], rfl, hq⟩
  | orRex i bits =>
    refine (change_agrees ha (modifyLast_agrees ha.wf (ha.builds i) (Instruction.orRex bits))
      (handles_modifyLast ..)).imp (fun _ => False.elim) ?_
    rintro a' c q ⟨hc, hq⟩
    exact ⟨hc, [], rfl, hq⟩
  | finish i j =>
    have hown : Owns cells [.builder i] (cells (.builder i)) := fun h => by simp
    refine .of_run (run_pure _ p) (run_pure _ p) ⟨?_, [], rfl, left_of_holds hown (.refl p _)
      (fun _ hk => hk) (ha.setChain (fun _ => rfl) hown ha.wf (.refl p _) (ha.builds i).spans j)⟩
    simp [heads, Bench.setChain, CodeOperation.target]

theorem Left.heads (hq : Left targets p cells (handOver cells' taken [] target m) a' q)
    (hheads : ∀ s, a.heads s = (handles (cells' s)).head?) :
    handOver a.heads taken none target (a'.heads target) = a'.heads := by
  funext s
  rw [heads_eq hq.holds s]
  unfold handOver
  split
  · next hs =>
    rw [heads_eq hq.holds target, handOver_target]
  split
  · rfl
  · exact hheads s

theorem run_agrees (ha : Holds p a cells) (op : CodeOperation) (hop : op.IsApart) :
    Agrees (op.Faults p) (op.run a) (op.walk a.heads) p fun a' w q =>
      w = a'.heads ∧ ∃ made, op.Makes made ∧
        Left op.targets p cells (op.apply cells made) a' q := by
  refine (walked_agrees ha op hop).map_right ?_
  rintro a' c q ⟨rfl, made, hmade, hq⟩
  refine ⟨hq.heads fun s => ?_, made, hmade, hq⟩
  rw [handles_marked]
  exact heads_eq ha s

theorem faults_of_live {op : CodeOperation} {e : Fault} (hlive : ∀ h, p.contains h → q.contains h)
    (he : op.Faults q e) : op.Faults p e := by
  cases op with
  | jump i opcode cls target =>
    rcases he with ⟨h, hh, hstale, rfl⟩ | hparity
    · refine .inl ⟨h, hh, ?_, rfl⟩
      by_contra hp
      simp [hlive h (by simpa using hp)] at hstale
    · exact .inr hparity
  | _ => exact he

/-- A run by builders and a run by walks agree step for step. -/
theorem runAll_agrees (ha : Holds p a cells) (ops : List CodeOperation)
    (hops : ∀ op ∈ ops, op.IsApart) :
    Agrees (fun e => ∃ op ∈ ops, op.Faults p e) (CodeOperation.runAll a ops)
      (CodeOperation.walkAll a.heads ops) p fun a' w q =>
        w = a'.heads ∧ ∃ cells', Leads cells ops cells' ∧
          Left (ops.flatMap CodeOperation.targets) p cells cells' a' q := by
  induction ops generalizing p a cells with
  | nil =>
    exact .pure ⟨rfl, cells, .nil, ha, fun _ _ hl hout => ⟨hl, hout⟩, fun _ hh => hh⟩
  | cons op ops ih =>
    have hstep := (run_agrees ha op (hops op mem_cons_self)).imp
      (F := fun e => ∃ op' ∈ op :: ops, op'.Faults p e) (fun e he => ⟨op, mem_cons_self, he⟩)
      fun _ _ _ => id
    refine .bind hstep ?_
    rintro a1 _ q1 ⟨rfl, made, hmade, h1⟩
    refine (ih h1.holds fun op' hop' => hops op' (mem_cons_of_mem op hop')).imp ?_ ?_
    · rintro e ⟨op', hop', he⟩
      exact ⟨op', mem_cons_of_mem op hop', faults_of_live h1.live he⟩
    · rintro a' w q ⟨hw, cells', hleads, hq⟩
      exact ⟨hw, cells', .cons hmade hleads, h1.trans hq⟩

/-- Builders do in every pool what walks along their chains do: the pool is the same afterwards,
fault or not, and so are the first records. Only a jump faults, to a record that is not there or
with a parity that there is not. Otherwise each builder still knows its last record, the chains have
the records that the operations describe, and chains that are on no place keep theirs, up to the
marks of targets. -/
theorem builders_agree_with_walks (ha : Holds p a cells) (ops : List CodeOperation)
    (hops : ∀ op ∈ ops, op.IsApart) :
    ∃ result q, (CodeOperation.runAll a ops).run p = (result, q) ∧
      (CodeOperation.walkAll a.heads ops).run p = (result.map heads, q) ∧
      match result with
      | .error e => ∃ op ∈ ops, op.Faults p e
      | .ok a' => ∃ cells', Leads cells ops cells' ∧ Holds q a' cells' ∧
          (∀ i, (ChainWork.last (a'.builders i).first).run q = (.ok (a'.builders i).last, q)) ∧
          (∀ s, (ChainWork.items (a'.heads s)).run q = (.ok (items (cells' s)), q)) ∧
          ∀ c l, Spans p c l → (∀ s, ∀ h ∈ handles l, h ∉ handles (cells s)) →
            Spans q c (marked (ops.flatMap CodeOperation.targets) l) := by
  rcases runAll_agrees ha ops hops with
    ⟨a', _, q, hrun, hwalk, rfl, cells', hleads, hq⟩ | ⟨e, q, hrun, hwalk, he⟩
  · refine ⟨.ok a', q, hrun, hwalk, cells', hleads, hq.holds, fun i => ?_, fun s => ?_,
      fun c l hl hout => (hq.keeps c l hl hout).1⟩
    · exact (hq.holds.builds i).last_run hq.holds.wf
    · exact items_run hq.holds.wf (spans_of_has (hq.holds.has s))
  · exact ⟨.error e, q, hrun, hwalk, he⟩

def bare : CodeBench := Bench.bare .empty

theorem holds_bare : Holds CodePool.empty bare fun _ => [] :=
  Bench.holds_bare (Pool.wf_empty 120) rfl

/-- A jump that is taken only without parity goes to an instruction that is finished apart. What the
jump leaves last gets a flag, the instruction is taken over behind it, and the whole is
continued. -/
def spliced : List CodeOperation :=
  [.push 0 (.plain Opcode.ret), .push 1 .nop, .finish 1 0, .push 2 (.plain Opcode.move),
    .append 0 2, .jump 0 0x7beb .code (.code ⟨1, 0⟩), .orFlags 0 .wideJump, .appendChain 0 0,
    .orRex 0 Rex.w, .finish 0 1, .ofChain 3 1, .push? 3 none, .push? 3 (some (.plain Opcode.ret)),
    .finish 3 2]

def splicedCode : List Instruction :=
  [.plain Opcode.ret, .plain Opcode.move, .jump Opcode.jumpParity .code (.code ⟨3, 0⟩),
    .jump 0x7beb .code (.code ⟨1, 0⟩), (Instruction.nop.orFlags .target).orFlags .wideJump,
    (Instruction.nop.orFlags .target).orRex Rex.w, .plain Opcode.ret]

theorem builders_agree_with_walks_spliced :
    ∃ a q, (CodeOperation.runAll bare spliced).run CodePool.empty = (.ok a, q) ∧
      (CodeOperation.walkAll bare.heads spliced).run CodePool.empty = (.ok a.heads, q) ∧
      (ChainWork.items (a.chains 2)).run q = (.ok splicedCode, q) := by
  obtain ⟨result, q, hrun, hwalk, hresult⟩ :=
    builders_agree_with_walks holds_bare spliced (by decide +kernel)
  have hitems : ((do ChainWork.items ((← CodeOperation.runAll bare spliced).chains 2)).run
      CodePool.empty).1 = .ok splicedCode := by
    decide +kernel
  rw [run_bind_eq, hrun] at hitems
  cases result with
  | error e => cases hitems
  | ok a =>
    obtain ⟨cells, -, -, -, hchains, -⟩ := hresult
    have hchain : (ChainWork.items (a.chains 2)).run q = _ := hchains (.chain 2)
    dsimp only at hitems
    rw [hchain] at hitems
    exact ⟨a, q, hrun, hwalk, hchain.trans (by rw [← hitems])⟩

end CodeBench

end DCompiler
