import DCompiler.Proofs.Data.Builder
import DCompiler.Proofs.Pool.Bench

/-!
# Describing data is concatenation

Data is described on a bench. An operation appends to a builder, lets it take over a chain or what
another builder has built, or finishes it. A chain that is taken over leaves its place, so what
stands on the bench never overlaps.

Of a bench, only the contents count (`contentsOf`). On these each operation is a concatenation
(`Operation.apply`), whichever records are made, merged, copied or flattened for it.
-/

namespace DCompiler

open Cells Work Datum Data DataBuilder

abbrev DataBench := Bench DataBuilder

abbrev Contents := Place → List Datum

/-! ## Operations -/

inductive Addition where
  | bytes (bs : List UInt8)
  | constant (offset : UInt64) (bs : List UInt8) (zeros : Nat)
  | word (n : UInt32)
  | length (n : UInt64)
  | zeros (n : UInt64)
  | address (s : ObjectSymbolId) (offset : UInt64)
  | codeAddress (offset : UInt64)
  deriving Repr, DecidableEq

namespace Addition

def run (b : DataBuilder) : Addition → DataWork DataBuilder
  | bytes bs => return (← b.bytes bs).2
  | constant offset bs count => b.constant offset bs count
  | word n => b.word n
  | length n => b.length n
  | zeros n => b.zeros n
  | address s offset => return (← b.address s offset).2
  | codeAddress offset => b.codeAddress offset

def content (pointerSize : Nat) : Addition → List Datum
  | bytes bs => literal bs
  | constant offset bs count =>
    field pointerSize (.constant (bs ++ List.replicate count 0)) offset
  | word n => literal (Text.littleEndian 4 n.toUInt64)
  | length n => literal (Text.littleEndian pointerSize n)
  | zeros n => literal (List.replicate n.toNat 0)
  | address s offset => field pointerSize (.symbol s) offset
  | codeAddress offset => field pointerSize .code offset

end Addition

inductive Operation where
  | add (i : Nat) (x : Addition)
  /-- Let a builder take over a chain. -/
  | appendChain (i j : Nat)
  /-- Let a builder take over what another one has built. -/
  | append (i j : Nat)
  | repeatChain (i j : Nat) (count : UInt64)
  /-- Hand what a builder has built over to a chain. -/
  | finish (i j : Nat)
  deriving Repr, DecidableEq

namespace Operation

/-- The places whose contents an operation takes. -/
def taken : Operation → List Place
  | add i _ | repeatChain i _ _ | finish i _ => [.builder i]
  | appendChain i j => [.builder i, .chain j]
  | append i j => [.builder i, .builder j]

def target : Operation → Place
  | add i _ | appendChain i _ | append i _ | repeatChain i _ _ => .builder i
  | finish _ j => .chain j

def run (a : DataBench) (op : Operation) : DataWork DataBench := do
  let cleared := a.clear (.empty ·.pointerSize) op.taken
  match op with
  | add i x => return cleared.setBuilder i (← x.run (a.builders i))
  | appendChain i j => return cleared.setBuilder i (← (a.builders i).appendChain (a.chains j))
  | append i j => return cleared.setBuilder i (← (a.builders i).append (a.builders j))
  | repeatChain i j count =>
    return cleared.setBuilder i (← (a.builders i).repeatChain (a.chains j) count)
  | finish i j => return cleared.setChain j (← (a.builders i).finish)

def runAll (a : DataBench) : List Operation → DataWork DataBench
  | [] => return a
  | op :: ops => do runAll (← op.run a) ops

/-- What is then in that place, for pointers of the builders' sizes. -/
def result (sizes : Nat → Nat) (w : Contents) : Operation → List Datum
  | add i x => w (.builder i) ++ x.content (sizes i)
  | appendChain i j => w (.builder i) ++ w (.chain j)
  | append i j => w (.builder i) ++ w (.builder j)
  | repeatChain i j count => w (.builder i) ++ copies count.toNat (w (.chain j))
  | finish i _ => w (.builder i)

def apply (sizes : Nat → Nat) (w : Contents) (op : Operation) : Contents :=
  handOver w op.taken [] op.target (op.result sizes w)

def applyAll (sizes : Nat → Nat) : Contents → List Operation → Contents :=
  List.foldl (apply sizes)

/-- A builder does not take over itself, and the content fits into a word. -/
def Allowed (sizes : Nat → Nat) (w : Contents) (op : Operation) : Prop :=
  op.taken.Nodup ∧ total (op.result sizes w) < 2 ^ 64

instance (sizes : Nat → Nat) (w : Contents) (op : Operation) : Decidable (op.Allowed sizes w) :=
  inferInstanceAs (Decidable (_ ∧ _))

def AllAllowed (sizes : Nat → Nat) : Contents → List Operation → Prop
  | _, [] => True
  | w, op :: ops => op.Allowed sizes w ∧ AllAllowed sizes (op.apply sizes w) ops

instance decidableAllAllowed (sizes : Nat → Nat) :
    (w : Contents) → (ops : List Operation) → Decidable (AllAllowed sizes w ops)
  | _, [] => isTrue trivial
  | w, op :: ops =>
    have := decidableAllAllowed sizes (op.apply sizes w) ops
    inferInstanceAs (Decidable (_ ∧ _))

theorem total_applyAll {sizes : Nat → Nat} {w : Contents} {ops : List Operation}
    (hw : ∀ s, total (w s) < 2 ^ 64) (hops : AllAllowed sizes w ops) (s : Place) :
    total (applyAll sizes w ops s) < 2 ^ 64 := by
  induction ops generalizing w with
  | nil => exact hw s
  | cons op ops ih =>
    obtain ⟨⟨-, hfits⟩, hops⟩ := hops
    exact ih (fun t => handOver_cases (P := fun x => total x < 2 ^ 64) t (fun _ => hfits)
      (fun _ _ => Nat.two_pow_pos 64) fun _ _ => hw t) hops

end Operation

namespace DataBench

/-! ## What stands on a bench -/

variable {E : Fault → Prop} {p q u : DataPool} {a a' : DataBench} {sizes : Nat → Nat} {s : Place}
  {cells cells' cells'' : Place → Cells DataRecord} {own m : Cells DataRecord} {i j : Nat}
  {c : Chain} {l : Cells DataRecord} {b b' : DataBuilder} {taken : List Place} {target : Place}

/-- Each place of a bench has cells without shared blocks, which are its own. -/
structure Describes (sizes : Nat → Nat) (p : DataPool) (a : DataBench)
    (cells : Place → Cells DataRecord) : Prop extends Bench.Holds chain p a cells where
  sizes : ∀ i, (a.builders i).pointerSize = sizes i
  plain : ∀ s, ∀ r ∈ items (cells s), r.IsPlain

def contentsOf (cells : Place → Cells DataRecord) : Contents := fun s => contents (items (cells s))

/-- A chain that is on no place of the bench is as it was, and on none of the places afterwards. -/
def Keeps (p : DataPool) (cells : Place → Cells DataRecord) (q : DataPool)
    (cells' : Place → Cells DataRecord) : Prop :=
  ∀ c l, Spans p c l → (∀ s, ∀ h ∈ handles l, h ∉ handles (cells s)) →
    Spans q c l ∧ ∀ s, ∀ h ∈ handles l, h ∉ handles (cells' s)

theorem Keeps.refl (p : DataPool) (cells : Place → Cells DataRecord) : Keeps p cells p cells :=
  fun _ _ hl hs => ⟨hl, hs⟩

theorem Keeps.trans (hpq : Keeps p cells q cells') (hqu : Keeps q cells' u cells'') :
    Keeps p cells u cells'' :=
  fun c l hl hs => hqu c l (hpq c l hl hs).1 (hpq c l hl hs).2

/-- The bench after its places `taken` are emptied. -/
abbrev cleared (a : DataBench) (taken : List Place) : DataBench :=
  a.clear (.empty ·.pointerSize) taken

theorem pointerSize_cleared (a : DataBench) (taken : List Place) (k : Nat) :
    ((a.cleared taken).builders k).pointerSize = (a.builders k).pointerSize := by
  simp only [Bench.clear]
  split <;> rfl

theorem contentsOf_handOver (cells : Place → Cells DataRecord) (taken : List Place) (target : Place)
    (m : Cells DataRecord) :
    contentsOf (handOver cells taken [] target m) =
      handOver (contentsOf cells) taken [] target (contents (items m)) := by
  funext s
  unfold contentsOf handOver
  split
  · rfl
  · split <;> rfl

/-! ## Operations on a bench -/

theorem Addition.adds (hp : p.WF) (hb : Builds p b.chain l) (x : Addition) :
    (x.run b).Gives E p fun b' q => ∃ new m,
      Adds p b l (x.content b.pointerSize) new q b' m ∧ ∀ r ∈ new, r.IsPlain := by
  have hliteral : ∀ {w : DataWork DataBuilder} {x : List Datum},
      (w.Gives E p fun b' q => ∃ m, Adds p b l x [] q b' m) →
      w.Gives E p fun b' q => ∃ new m, Adds p b l x new q b' m ∧ ∀ r ∈ new, r.IsPlain :=
    fun hw => hw.imp fun _ _ ⟨m, hm⟩ => ⟨[], m, hm, nofun⟩
  have hrecord : ∀ {w : DataWork DataBuilder} {x : List Datum} {r : DataRecord}, r.IsPlain →
      (w.Gives E p fun b' q => ∃ m, Adds p b l x [r] q b' m) →
      w.Gives E p fun b' q => ∃ new m, Adds p b l x new q b' m ∧ ∀ r ∈ new, r.IsPlain :=
    fun hr hw => hw.imp fun _ _ ⟨m, hm⟩ => ⟨[_], m, hm, by simpa using hr⟩
  cases x with
  | bytes bs => exact hliteral (.bind (bytes_adds hp hb bs) fun _ _ hq => .pure hq)
  | constant offset bs count =>
    exact hrecord (r := .constant ..) trivial (.bind (push_adds hp hb _) fun _ _ hq => .pure hq)
  | word n => exact hliteral (number_adds hp hb 4 _)
  | length n => exact hliteral (number_adds hp hb _ n)
  | zeros n => exact hliteral (zeros_adds hp hb n)
  | address s offset =>
    exact hrecord (r := .address ..) trivial
      (.bind (address_adds hp hb s offset) fun _ _ hq => .pure hq)
  | codeAddress offset =>
    exact hrecord (r := .codeAddress ..) trivial
      (.bind (push_adds hp hb _) fun _ _ hq => .pure hq)

/-- What is left by an operation: the contents are as it says. -/
def Left (sizes : Nat → Nat) (p : DataPool) (cells : Place → Cells DataRecord) (w : Contents)
    (a : DataBench) (q : DataPool) : Prop :=
  ∃ cells', Describes sizes q a cells' ∧ contentsOf cells' = w ∧ Keeps p cells q cells'

section

variable (ha : Describes sizes p a cells)
include ha

/-- Work on the cells of some places, which ends with content in one place. -/
theorem Describes.left (hown : Owns cells taken own) (hframe : Frame p own q m)
    (hholds : Bench.Holds chain q a' (handOver cells taken [] target m))
    (hsizes : ∀ k, (a'.builders k).pointerSize = (a.builders k).pointerSize)
    (hplain : ∀ r ∈ items m, r.IsPlain) :
    Left sizes p cells (handOver (contentsOf cells) taken [] target (contents (items m))) a' q := by
  refine ⟨_, ⟨hholds, fun k => (hsizes k).trans (ha.sizes k), fun s => ?_⟩,
    contentsOf_handOver .., fun _ _ hl hout => hframe.off_places hown hl hout target⟩
  exact handOver_cases (P := fun l : Cells DataRecord => ∀ r ∈ items l, r.IsPlain) s
    (fun _ => hplain) (fun _ _ => nofun) fun _ _ => ha.plain s

theorem Describes.addTo {x : List Datum} {new : List DataRecord} (hown : Owns cells taken own)
    (hx : Adds p (a.builders i) own x new q b' m) (hplain : ∀ r ∈ items m, r.IsPlain) :
    Left sizes p cells (handOver (contentsOf cells) taken [] (.builder i) (contents (items m)))
      ((a.cleared taken).setBuilder i b') q := by
  refine ha.left hown hx.frame (ha.toHolds.setBuilder (fun _ => rfl) hown hx.toBuilt i)
    (fun k => ?_) hplain
  by_cases hk : k = i
  · subst hk
    simp [Bench.setBuilder, hx.pointerSize_eq]
  · simpa [Bench.setBuilder, hk] using pointerSize_cleared a taken k

theorem Describes.add {x : List Datum} {new : List DataRecord}
    (hx : Adds p (a.builders i) (cells (.builder i)) x new q b' m)
    (hnew : ∀ r ∈ new, r.IsPlain) (hfits : total (contentsOf cells (.builder i) ++ x) < 2 ^ 64) :
    Left sizes p cells (handOver (contentsOf cells) [.builder i] [] (.builder i)
      (contentsOf cells (.builder i) ++ x)) ((a.cleared [.builder i]).setBuilder i b') q := by
  have hcontent : contents (items m) = contentsOf cells (.builder i) ++ x := hx.content hfits
  rw [← hcontent]
  refine ha.addTo (fun h => by simp) hx fun r hr => ?_
  rcases hx.origin r hr with hr | hr | hr
  · exact ha.plain _ r hr
  · exact hnew r hr
  · exact hr.isPlain

theorem Describes.takeOver
    (hx : Adds p (a.builders i) (cells (.builder i) ++ cells s) [] [] q b'
      (cells (.builder i) ++ cells s)) :
    Left sizes p cells (handOver (contentsOf cells) [.builder i, s] [] (.builder i)
      (contentsOf cells (.builder i) ++ contentsOf cells s))
      ((a.cleared [.builder i, s]).setBuilder i b') q := by
  have hcontent : contents (items (cells (.builder i) ++ cells s)) =
      contentsOf cells (.builder i) ++ contentsOf cells s := by
    rw [items_append, contents_append]
    rfl
  rw [← hcontent]
  refine ha.addTo (fun h => by simp) hx fun r hr => ?_
  rw [items_append, List.mem_append] at hr
  exact hr.elim (ha.plain _ r) (ha.plain _ r)

theorem run_left (op : Operation)
    (hop : op.Allowed sizes (contentsOf cells)) :
    (op.run a).Gives E p fun a' q =>
      Left sizes p cells (op.apply sizes (contentsOf cells)) a' q := by
  obtain ⟨hdistinct, hfits⟩ := hop
  cases op with
  | add i x =>
    refine .bind (Addition.adds ha.wf (ha.builds i) x) fun b' q ⟨new, m, hm, hnew⟩ => .pure ?_
    rw [ha.sizes i] at hm
    exact ha.add hm hnew hfits
  | appendChain i j =>
    exact .bind (appendChain_adds ha.wf (ha.builds i) (ha.spans j) (ha.apart _ _ (by simp)))
      fun b' q hq => .pure (ha.takeOver hq)
  | append i j =>
    have hij : Place.builder j ≠ .builder i := fun h => by
      simp [Operation.taken, h] at hdistinct
    exact .bind (append_adds ha.wf (ha.builds i) (ha.builds j) (ha.apart _ _ hij))
      fun b' q hq => .pure (ha.takeOver hq)
  | repeatChain i j count =>
    exact .bind (repeatChain_adds ha.wf (ha.builds i) (ha.spans j) (ha.plain _) count)
      fun b' q ⟨m, hm⟩ => .pure (ha.add hm (ha.plain _) hfits)
  | finish i j =>
    refine .bind (finish_merges ha.wf (ha.builds i)) fun c q ⟨m, hm⟩ => .pure ?_
    have hown : Owns cells [.builder i] (cells (.builder i)) := fun h => by simp
    have hempty (b : DataBuilder) : (empty b.pointerSize).chain = .empty := rfl
    have hholds := ha.toHolds.setChain hempty hown hm.wf hm.frame hm.spans j
    have hleft := ha.left hown hm.frame hholds (pointerSize_cleared a _) fun r hr =>
      (hm.origin r hr).elim (ha.plain _ r) DataRecord.IsLiteral.isPlain
    rwa [hm.content hfits] at hleft

theorem runAll_left (ops : List Operation)
    (hops : Operation.AllAllowed sizes (contentsOf cells) ops) :
    (Operation.runAll a ops).Gives E p fun a' q =>
      Left sizes p cells (Operation.applyAll sizes (contentsOf cells) ops) a' q := by
  induction ops generalizing p a cells with
  | nil => exact .pure ⟨cells, ha, rfl, .refl p cells⟩
  | cons op ops ih =>
    obtain ⟨hop, hops⟩ := hops
    refine .bind (run_left ha op hop) ?_
    rintro a' q ⟨cells', ha', hcontents, hkeeps⟩
    rw [← hcontents] at hops
    refine (ih ha' hops).imp ?_
    rintro a'' u ⟨cells'', ha'', hcontents', hkeeps'⟩
    refine ⟨cells'', ha'', ?_, hkeeps.trans hkeeps'⟩
    rw [hcontents', hcontents]
    rfl

end

/-- After any operations, each place holds what the concatenations say, a builder has the size of
its content, and chains that are not on the bench are as they were. -/
theorem operations_concatenate (ha : Describes sizes p a cells)
    (hfits : ∀ s, total (contentsOf cells s) < 2 ^ 64) (ops : List Operation)
    (hops : Operation.AllAllowed sizes (contentsOf cells) ops) :
    ∃ a' q cells', (Operation.runAll a ops).run p = (.ok a', q) ∧ Describes sizes q a' cells' ∧
      contentsOf cells' = Operation.applyAll sizes (contentsOf cells) ops ∧
      (∀ i, ∃ n, (a'.builders i).size.run q = (.ok n, q) ∧
        n.toNat = total (Operation.applyAll sizes (contentsOf cells) ops (.builder i))) ∧
      ∀ c l, Spans p c l → (∀ s, ∀ h ∈ handles l, h ∉ handles (cells s)) → Spans q c l := by
  obtain ⟨a', q, hrun, cells', ha', hcontents, hkeeps⟩ := (runAll_left ha ops hops).run
  refine ⟨a', q, cells', hrun, ha', hcontents, fun i => ?_, fun c l hl hapart =>
    (hkeeps c l hl hapart).1⟩
  refine ⟨_, size_run ha'.wf (ha'.has (.builder i)), ?_⟩
  rw [← hcontents]
  refine UInt64.toNat_ofNat_of_lt' ?_
  have hall := Operation.total_applyAll hfits hops (.builder i)
  rwa [← hcontents] at hall

def bare (pointerSize : Nat) : DataBench := Bench.bare (.empty pointerSize)

theorem describes_bare (pointerSize : Nat) :
    Describes (fun _ => pointerSize) DataPool.empty (bare pointerSize) fun _ => [] :=
  ⟨Bench.holds_bare (Pool.wf_empty 64) rfl, fun _ => rfl, fun _ _ hr => nomatch hr⟩

/-- Zeros and an address are finished apart, and then repeated behind other zeros. The address is
also taken over. -/
def nested : List Operation :=
  [.add 0 (.zeros 2), .finish 0 0, .add 1 (.bytes [7]), .add 1 (.address ⟨3⟩ 5), .finish 1 1,
    .add 2 (.zeros 1), .repeatChain 2 0 2, .repeatChain 2 1 2, .add 3 (.bytes [9]),
    .append 2 3, .appendChain 2 1, .finish 2 2]

theorem operations_concatenate_nested :
    ∃ a q cells, (Operation.runAll (bare 8) nested).run DataPool.empty = (.ok a, q) ∧
      Describes (fun _ => 8) q a cells ∧
      contents (items (cells (.chain 2))) =
        literal [0, 0, 0, 0, 0] ++ copies 2 [.byte 7, .pointer 8 (.symbol ⟨3⟩) 5] ++
          [.byte 9, .byte 7, .pointer 8 (.symbol ⟨3⟩) 5] ∧
      contents (items (cells (.chain 1))) = [] := by
  obtain ⟨a, q, cells, hrun, ha, hcontents, -, -⟩ :=
    operations_concatenate (describes_bare 8) (by simp [contentsOf]) nested (by decide +kernel)
  refine ⟨a, q, cells, hrun, ha, ?_, ?_⟩
  · exact (congrFun hcontents (.chain 2)).trans (by decide +kernel)
  · exact (congrFun hcontents (.chain 1)).trans (by decide +kernel)

end DataBench

end DCompiler
