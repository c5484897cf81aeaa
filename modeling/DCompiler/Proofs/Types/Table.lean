import DCompiler.Proofs.Tables.Basic
import DCompiler.Types.Layout

/-!
# Entering types

A type table changes in one way only: a kind is entered. `Grows` is any number of such steps. Places
keep their kinds, no kind is entered twice, and a kind that is there is found at its place.

Where types are entered behind their components (`Entered`), what a type is built on has a smaller
place (`Ordered`), and the guards of recursions over types never hold.
-/

namespace DCompiler

def TypeKind.components : TypeKind → List TypeId
  | pointer t | dynArray t | staticArray t _ | delegate t | enumType _ _ t => [t]
  | assocArray key value => [key, value]
  | function sig => sig.result :: sig.params.map (·.type)
  | tuple elems => elems
  | _ => []

namespace TypeTable

/-! ## One step -/

theorem intern_cases (t : TypeTable) (k : TypeKind) :
    ((t.intern k).2 = t ∧ t.kinds[(t.intern k).1.index]? = some k) ∨
      (k ∉ t.kinds ∧ t.intern k = (⟨t.size⟩, ⟨t.kinds.push k⟩)) := by
  unfold intern
  cases h : t.kinds.idxOf? k with
  | none => exact .inr ⟨Array.idxOf?_eq_none_iff.mp h, rfl⟩
  | some i =>
    rw [Array.idxOf?_eq_map_finIdxOf?_val, Option.map_eq_some_iff] at h
    obtain ⟨j, hj, rfl⟩ := h
    exact .inl ⟨rfl, by simpa using (Array.finIdxOf?_eq_some_iff.mp hj).1⟩

theorem kinds_intern (t : TypeTable) (k : TypeKind) :
    (t.intern k).2.kinds[(t.intern k).1.index]? = some k := by
  rcases t.intern_cases k with ⟨hsame, hk⟩ | ⟨-, hnew⟩
  · rw [hsame, hk]
  · simp [hnew, size]

variable {t : TypeTable} {k : TypeKind} {i : Nat}

theorem kinds_of_kind {id : TypeId} (h : t.kind id = k) (hk : k ≠ .error) :
    t.kinds[id.index]? = some k := by
  unfold kind at h
  cases hi : t.kinds[id.index]? with
  | none => exact absurd (by simpa [hi] using h.symm) hk
  | some k' => simpa [hi] using h

theorem kinds_of_intern {k' : TypeKind} (h : t.kinds[i]? = some k') :
    (t.intern k).2.kinds[i]? = some k' := by
  rcases t.intern_cases k with ⟨hsame, -⟩ | ⟨-, hnew⟩
  · rw [hsame, h]
  · have hi := (Array.getElem?_eq_some_iff.mp h).1
    simp [hnew, Array.getElem?_push, Nat.ne_of_lt hi, h]

theorem kinds_intern_inv {k' : TypeKind} (h : (t.intern k).2.kinds[i]? = some k') :
    t.kinds[i]? = some k' ∨ (i = t.size ∧ k' = k ∧ k ∉ t.kinds) := by
  rcases t.intern_cases k with ⟨hsame, -⟩ | ⟨hmem, hnew⟩
  · rw [hsame] at h
    exact .inl h
  rw [hnew, Array.getElem?_push] at h
  grind [size]

/-! ## Kinds are entered once -/

def Unique (t : TypeTable) : Prop :=
  ∀ {i j : Nat} {k : TypeKind}, t.kinds[i]? = some k → t.kinds[j]? = some k → i = j

theorem Unique.intern (h : t.Unique) (k : TypeKind) : (t.intern k).2.Unique := by
  intro i j k' hi hj
  rcases kinds_intern_inv hi with old | ⟨rfl, rfl, hnot⟩ <;>
    rcases kinds_intern_inv hj with old' | ⟨rfl, hk, hnot'⟩
  · exact h old old'
  · exact absurd (Array.mem_of_getElem? (hk ▸ old)) hnot'
  · exact absurd (Array.mem_of_getElem? old') hnot
  · rfl

theorem Unique.intern_eq (h : t.Unique) {id : TypeId} (hk : t.kinds[id.index]? = some k) :
    t.intern k = (id, t) := by
  rcases t.intern_cases k with ⟨hsame, hfound⟩ | ⟨hnot, -⟩
  · have hid : (t.intern k).1 = id := by
      exact congrArg TypeId.mk (h hfound hk)
    exact Prod.ext hid hsame
  · exact absurd (Array.mem_of_getElem? hk) hnot

theorem initial_unique : initial.Unique := by
  have hplaces : ∀ i < initial.size, ∀ j < initial.size,
      initial.kinds[i]? = initial.kinds[j]? → i = j := by decide
  intro i j k hi hj
  exact hplaces i (Array.getElem?_eq_some_iff.mp hi).1 j (Array.getElem?_eq_some_iff.mp hj).1
    (hi.trans hj.symm)

/-! ## Any number of steps -/

inductive Grows (t : TypeTable) : TypeTable → Prop
  | refl : Grows t t
  | intern {u : TypeTable} (h : Grows t u) (k : TypeKind) : Grows t (u.intern k).2

namespace Grows

variable {t u v : TypeTable}

section

variable (h : t.Grows u)
include h

theorem trans (h' : u.Grows v) : t.Grows v := by
  induction h' with
  | refl => exact h
  | intern _ k ih => exact .intern ih k

theorem kinds_eq {i : Nat} {k : TypeKind} (hk : t.kinds[i]? = some k) : u.kinds[i]? = some k := by
  induction h with
  | refl => exact hk
  | intern _ _ ih => exact kinds_of_intern ih

theorem size_le : t.size ≤ u.size := by
  induction h with
  | refl => exact .refl
  | @intern u _ k ih =>
    refine Nat.le_trans ih ?_
    rcases u.intern_cases k with ⟨hsame, -⟩ | ⟨-, hnew⟩
    · exact Nat.le_of_eq (by rw [hsame])
    · simp [hnew, size]

theorem unique (ht : t.Unique) : u.Unique := by
  induction h with
  | refl => exact ht
  | intern _ k ih => exact ih.intern k

theorem kind_of_kind {id : TypeId} {k : TypeKind} (hk : t.kind id = k)
    (hne : k ≠ .error) : u.kind id = k := by
  simp [kind, h.kinds_eq (kinds_of_kind hk hne)]

theorem kind_eq {id : TypeId} (hid : id.index < t.size) : u.kind id = t.kind id := by
  have hk : t.kinds[id.index]? = some t.kinds[id.index] := Array.getElem?_eq_getElem hid
  simp [kind, hk, h.kinds_eq hk]

end

end Grows

/-! ## Recursion over types -/

/-- What a type is built on stands before it. -/
def Ordered (t : TypeTable) : Prop :=
  ∀ {i : Nat} {k : TypeKind}, t.kinds[i]? = some k → ∀ c ∈ k.components, c.index < i

variable {t u : TypeTable} {k : TypeKind} {id : TypeId}

theorem Ordered.lt (ht : t.Ordered) : ∀ c ∈ (t.kind id).components, c.index < id.index := by
  intro c hc
  by_cases hk : t.kind id = .error
  · simp [hk, TypeKind.components] at hc
  · exact ht (kinds_of_kind rfl hk) c hc

theorem base_eq (ht : t.Ordered) {s : SymbolId} {name : String} {next : TypeId}
    (hk : t.kind id = .enumType s name next) : t.base id = t.base next := by
  have hlt : next.index < id.index := ht.lt next (by simp [hk, TypeKind.components])
  rw [base, hk]
  exact if_pos hlt

/-- A table that comes from the initial one by entering types behind their components. -/
inductive Entered : TypeTable → Prop
  | initial : Entered initial
  | intern {t : TypeTable} {k : TypeKind} (ht : Entered t)
      (hk : ∀ c ∈ k.components, c.index < t.size) : Entered (t.intern k).2

theorem Entered.grows (ht : t.Entered) : TypeTable.initial.Grows t := by
  induction ht with
  | initial => exact .refl
  | intern _ _ ih => exact .intern ih _

theorem Entered.ordered (ht : t.Entered) : t.Ordered := by
  induction ht with
  | initial =>
    have hbare : ∀ k ∈ TypeTable.initial.kinds.toList, k.components = [] := by decide
    intro i k hi c hc
    rw [hbare k (Array.mem_def.mp (Array.mem_of_getElem? hi))] at hc
    cases hc
  | intern _ hk ih =>
    intro i k' hi c hc
    rcases kinds_intern_inv hi with old | ⟨rfl, rfl, -⟩
    · exact ih old c hc
    · exact hk c hc

theorem Entered.unique (ht : t.Entered) : t.Unique := ht.grows.unique initial_unique

end TypeTable

end DCompiler
