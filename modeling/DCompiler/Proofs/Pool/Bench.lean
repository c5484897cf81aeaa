import DCompiler.Proofs.Pool.Chain

/-!
# Benches

Chains are built on a *bench*: builders at work and finished chains stand in places, each with its
own cells of one pool (`Bench.Holds`). An operation takes what stands in some places, does its work
on the cells, and leaves cells in one place (`handOver`). What stands in other places, or on no
place of the bench, keeps its cells.
-/

namespace DCompiler

inductive Place where
  | builder (i : Nat)
  | chain (i : Nat)
  deriving Repr, DecidableEq

namespace Cells

variable {α β : Type} {p q : ChainPool α} {cells : Place → Cells α} {own m n : Cells α} {c : Chain}
  {taken : List Place} {s target : Place}

/-- Each place has cells of its own. -/
def Apart (cells : Place → Cells α) : Prop :=
  ∀ s t, s ≠ t → ∀ h ∈ handles (cells s), h ∉ handles (cells t)

/-- The handles of some cells are those of some places. -/
def Owns (cells : Place → Cells α) (taken : List Place) (own : Cells α) : Prop :=
  ∀ h, h ∈ handles own ↔ ∃ s ∈ taken, h ∈ handles (cells s)

theorem Apart.not_owned (hcells : Apart cells) (hown : Owns cells taken own) (hs : s ∉ taken) :
    ∀ h ∈ handles (cells s), h ∉ handles own := by
  intro h hh howned
  obtain ⟨t, ht, hht⟩ := (hown h).mp howned
  have hne : s ≠ t := fun hst => hs (hst ▸ ht)
  exact hcells s t hne h hh hht

/-- Some places are emptied, and then one gets something. -/
def handOver (w : Place → β) (taken : List Place) (empty : β) (target : Place) (x : β) :
    Place → β :=
  fun s => if s = target then x else if s ∈ taken then empty else w s

theorem handOver_target (w : Place → β) (taken : List Place) (empty : β) (target : Place) (x : β) :
    handOver w taken empty target x target = x :=
  if_pos rfl

theorem handOver_cases {P : β → Prop} {w : Place → β} {empty x : β} (s : Place)
    (htarget : s = target → P x) (htaken : s ≠ target → s ∈ taken → P empty)
    (hother : s ≠ target → s ∉ taken → P (w s)) : P (handOver w taken empty target x s) := by
  unfold handOver
  split
  · exact htarget ‹_›
  split
  · exact htaken ‹_› ‹_›
  · exact hother ‹_› ‹_›

theorem mem_handOver {h : Handle} (hh : h ∈ handles (handOver cells taken [] target m s)) :
    s = target ∧ h ∈ handles m ∨ s ≠ target ∧ s ∉ taken ∧ h ∈ handles (cells s) := by
  unfold handOver at hh
  split at hh
  · exact .inl ⟨‹_›, hh⟩
  split at hh
  · exact nomatch hh
  · exact .inr ⟨‹_›, ‹_›, hh⟩

theorem Apart.handOver (hcells : Apart cells) (hown : Owns cells taken own)
    (hlive : ∀ s, ∀ h ∈ handles (cells s), p.contains h) (hframe : Frame p own q m)
    (target : Place) : Apart (handOver cells taken [] target m) := by
  have hout {s : Place} (hs : s ∉ taken) : ∀ h ∈ handles (cells s), h ∉ handles m := fun h hh => by
    obtain ⟨r, hr⟩ := Pool.contains_iff.mp (hlive s h hh)
    exact (hframe.keeps h r hr (hcells.not_owned hown hs h hh)).2
  intro s t hst h hs ht
  rcases mem_handOver hs with ⟨hs', hm⟩ | ⟨-, hsk, hs'⟩ <;>
    rcases mem_handOver ht with ⟨ht', hm'⟩ | ⟨-, htk, ht'⟩
  · exact hst (hs'.trans ht'.symm)
  · exact hout htk h ht' hm
  · exact hout hsk h hs' hm'
  · exact hcells s t hst h hs' ht'

/-- What was in no place keeps its cells, and is in no place afterwards. -/
theorem Frame.off_places (hframe : Frame p own q m) (hown : Owns cells taken own)
    (hn : Spans p c n) (hout : ∀ s, ∀ h ∈ handles n, h ∉ handles (cells s)) (target : Place) :
    Spans q c n ∧ ∀ s, ∀ h ∈ handles n, h ∉ handles (Cells.handOver cells taken [] target m s) := by
  have hapart : ∀ h ∈ handles n, h ∉ handles own := fun h hh howned => by
    obtain ⟨s, -, hs⟩ := (hown h).mp howned
    exact hout s h hh hs
  obtain ⟨hq, hm⟩ := hframe.spans hn hapart
  refine ⟨hq, fun s h hh hs => ?_⟩
  rcases mem_handOver hs with ⟨-, hs⟩ | ⟨-, -, hs⟩
  · exact hm h hh hs
  · exact hout s h hh hs

end Cells

open Cells

/-- Builders, which are chain builders with any data beside them, and chains. -/
structure Bench (β : Type) where
  builders : Nat → β
  chains : Nat → Chain

namespace Bench

variable {α β : Type} {a : Bench β} {p q : ChainPool α} {cells : Place → Cells α} {s : Place}
  {own l m : Cells α} {taken : List Place} {of : β → ChainBuilder} {empty : β → β} {b : β}
  {c : Chain}

def setBuilder (a : Bench β) (i : Nat) (b : β) : Bench β :=
  { a with builders := fun k => if k = i then b else a.builders k }

def setChain (a : Bench β) (i : Nat) (c : Chain) : Bench β :=
  { a with chains := fun k => if k = i then c else a.chains k }

/-- Empty some places. -/
def clear (a : Bench β) (empty : β → β) (taken : List Place) : Bench β where
  builders i := if .builder i ∈ taken then empty (a.builders i) else a.builders i
  chains i := if .chain i ∈ taken then none else a.chains i

def Has (of : β → ChainBuilder) (a : Bench β) (p : ChainPool α) : Place → Cells α → Prop
  | .builder i, l => Builds p (of (a.builders i)) l
  | .chain i, l => Spans p (a.chains i) l

/-- Each place of a bench has cells, which are its own. -/
structure Holds (of : β → ChainBuilder) (p : ChainPool α) (a : Bench β)
    (cells : Place → Cells α) : Prop where
  wf : p.WF
  has : ∀ s, a.Has of p s (cells s)
  apart : Apart cells

theorem Has.contains (hl : a.Has of p s l) : ∀ h ∈ handles l, p.contains h := by
  cases s with
  | builder i => exact hl.spans.contains
  | chain i => exact Runs.contains hl

theorem Has.framed (hl : a.Has of p s l) (hf : Frame p own q m)
    (hapart : ∀ h ∈ handles l, h ∉ handles own) : a.Has of q s l := by
  cases s with
  | builder i => exact (hf.builds hl hapart).1
  | chain i => exact (hf.spans hl hapart).1

theorem has_clear_mem (hempty : ∀ b, of (empty b) = .empty) (hs : s ∈ taken) :
    (a.clear empty taken).Has of p s [] := by
  cases s with
  | builder i =>
    simp only [Has, clear, if_pos hs, hempty]
    exact builds_empty p
  | chain i =>
    simp only [Has, clear, if_pos hs]
    exact .nil

theorem has_clear_not_mem (hs : s ∉ taken) :
    (a.clear empty taken).Has of p s l ↔ a.Has of p s l := by
  cases s <;> simp only [Has, clear, if_neg hs]

theorem has_setBuilder (a : Bench β) (i : Nat) (b : β) (l : Cells α) :
    (a.setBuilder i b).Has of p s l ↔
      if s = .builder i then Builds p (of b) l else a.Has of p s l := by
  cases s with
  | builder k => by_cases hk : k = i <;> simp [Has, setBuilder, hk]
  | chain k => simp [Has, setBuilder]

theorem has_setChain (a : Bench β) (i : Nat) (c : Chain) (l : Cells α) :
    (a.setChain i c).Has of p s l ↔ if s = .chain i then Spans p c l else a.Has of p s l := by
  cases s with
  | builder k => simp [Has, setChain]
  | chain k => by_cases hk : k = i <;> simp [Has, setChain, hk]

section

variable (ha : Holds of p a cells) (hempty : ∀ b, of (empty b) = .empty)
  (hown : Owns cells taken own)
include ha

theorem Holds.builds (i : Nat) : Builds p (of (a.builders i)) (cells (.builder i)) :=
  ha.has (.builder i)

theorem Holds.spans (i : Nat) : Spans p (a.chains i) (cells (.chain i)) := ha.has (.chain i)

include hempty hown

theorem Holds.has_cleared (hframe : Frame p own q m) (s : Place) :
    (a.clear empty taken).Has of q s (if s ∈ taken then [] else cells s) := by
  split
  · next hs => exact has_clear_mem hempty hs
  · next hs =>
    exact (has_clear_not_mem hs).mpr ((ha.has s).framed hframe (ha.apart.not_owned hown hs))

/-- Work on the cells of some places, which ends with cells in a builder. -/
theorem Holds.setBuilder (hq : Built p own q (of b) m) (i : Nat) :
    Holds of q ((a.clear empty taken).setBuilder i b)
      (handOver cells taken [] (.builder i) m) where
  wf := hq.wf
  has s := by
    rw [has_setBuilder, handOver]
    split
    · exact hq.toBuilds
    · exact ha.has_cleared hempty hown hq.frame s
  apart := ha.apart.handOver hown (fun s => (ha.has s).contains) hq.frame _

theorem Holds.setChain (hq : q.WF) (hframe : Frame p own q m) (hm : Spans q c m) (i : Nat) :
    Holds of q ((a.clear empty taken).setChain i c) (handOver cells taken [] (.chain i) m) where
  wf := hq
  has s := by
    rw [has_setChain, handOver]
    split
    · exact hm
    · exact ha.has_cleared hempty hown hframe s
  apart := ha.apart.handOver hown (fun s => (ha.has s).contains) hframe _

end

/-- A bench with nothing on it. -/
def bare (b : β) : Bench β := ⟨fun _ => b, fun _ => none⟩

theorem holds_bare (hp : p.WF) (hb : of b = .empty) : Holds of p (bare b) fun _ => [] where
  wf := hp
  has s := by
    cases s with
    | builder i =>
      simp only [Has, bare, hb]
      exact builds_empty p
    | chain i => exact .nil
  apart _ _ _ _ hh := nomatch hh

end Bench

end DCompiler
