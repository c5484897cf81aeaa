import DCompiler.Object.File

/-!
# Symbol tables of object files

A table is used through its lookup. Declaring a name changes nothing but that the name has a symbol
afterwards (`Declares`), so a table in which names are unique stays one.
-/

namespace DCompiler.ObjectSymbolTable

open Option

variable {t u : ObjectSymbolTable} {i id : ObjectSymbolId} {s : ObjectSymbol} {name : String}
  {cls : SymbolClass}
variable {f : ObjectSymbol → ObjectSymbol} {r : ObjectSymbol}

/-! ## Lookup -/

theorem get?_modify (t : ObjectSymbolTable) (id : ObjectSymbolId) (f : ObjectSymbol → ObjectSymbol)
    (i : ObjectSymbolId) :
    (t.modify id f).get? i = if i = id then (t.get? id).map f else t.get? i := by
  obtain ⟨k⟩ := id
  obtain ⟨j⟩ := i
  simp only [modify, get?, Array.getElem?_modify, ObjectSymbolId.mk.injEq]
  grind

theorem size_modify (t : ObjectSymbolTable) (id : ObjectSymbolId)
    (f : ObjectSymbol → ObjectSymbol) : (t.modify id f).size = t.size :=
  Array.size_modify

theorem modify_modify (t : ObjectSymbolTable) (id : ObjectSymbolId)
    (f g : ObjectSymbol → ObjectSymbol) :
    (t.modify id f).modify id g = t.modify id fun s => g (f s) := by
  refine congrArg mk (Array.ext_getElem? fun i => ?_)
  simp only [modify, Array.getElem?_modify]
  split <;> simp [Function.comp_def]

theorem lt_size_iff : i.index < t.size ↔ ∃ s, t.get? i = some s :=
  ⟨fun hi => ⟨_, Array.getElem?_eq_getElem hi⟩,
    fun ⟨_, hs⟩ => (Array.getElem?_eq_some_iff.mp hs).1⟩

theorem lookup_eq_some (hid : t.lookup name = some id) :
    ∃ s, t.get? id = some s ∧ s.name = name := by
  obtain ⟨n, hn, rfl⟩ := map_eq_some_iff.mp hid
  obtain ⟨hlt, hname, -⟩ := Array.findIdx?_eq_some_iff_getElem.mp hn
  exact ⟨_, Array.getElem?_eq_getElem hlt, by simpa using hname⟩

theorem lookup_eq_none (hname : t.lookup name = none) (hs : t.get? i = some s) : s.name ≠ name := by
  have hnone := Array.findIdx?_eq_none_iff.mp (map_eq_none_iff.mp hname)
  simpa using hnone s (Array.mem_of_getElem? hs)

def Unique (t : ObjectSymbolTable) : Prop :=
  ∀ i j s r, t.get? i = some s → t.get? j = some r → s.name = r.name → i = j

theorem unique_empty : Unique .empty := by
  intro i j s r hs
  simp [get?, empty] at hs

theorem get?_modify_cases (hs : t.get? id = some s) (hr : (t.modify id f).get? i = some r) :
    i = id ∧ r = f s ∨ i ≠ id ∧ t.get? i = some r := by
  rw [get?_modify] at hr
  split at hr
  · next hi =>
    rw [hs] at hr
    exact .inl ⟨hi, (Option.some.inj hr).symm⟩
  · next hi => exact .inr ⟨hi, hr⟩

section

variable {R : ObjectSymbol → ObjectSymbol → Prop} (hrefl : ∀ s, R s s) (hf : ∀ s, R s (f s))
include hrefl hf

theorem of_modify (hr : (t.modify id f).get? i = some r) : ∃ s, t.get? i = some s ∧ R s r := by
  rw [get?_modify] at hr
  split at hr
  · next hi =>
    obtain ⟨s, hs, rfl⟩ := map_eq_some_iff.mp hr
    exact ⟨s, hi ▸ hs, hf s⟩
  · exact ⟨r, hr, hrefl r⟩

theorem to_modify (id : ObjectSymbolId) (hs : t.get? i = some s) :
    ∃ r, (t.modify id f).get? i = some r ∧ R s r := by
  rw [get?_modify]
  split
  · next hi => exact ⟨f s, by rw [← hi, hs]; rfl, hf s⟩
  · exact ⟨s, hs, hrefl s⟩

end

theorem name_of_modify (hname : ∀ s, (f s).name = s.name) (hr : (t.modify id f).get? i = some r) :
    ∃ q, t.get? i = some q ∧ q.name = r.name :=
  of_modify (R := fun s r => s.name = r.name) (fun _ => rfl) (fun s => (hname s).symm) hr

theorem modify_of_name (id : ObjectSymbolId) (hname : ∀ s, (f s).name = s.name)
    (hs : t.get? i = some s) : ∃ r, (t.modify id f).get? i = some r ∧ r.name = s.name :=
  to_modify (R := fun s r => r.name = s.name) (fun _ => rfl) hname id hs

theorem Unique.modify (ht : t.Unique) (hname : ∀ s, (f s).name = s.name) :
    (t.modify id f).Unique := by
  intro i j r q hr hq hrq
  obtain ⟨r', hr', hrname⟩ := name_of_modify hname hr
  obtain ⟨q', hq', hqname⟩ := name_of_modify hname hq
  exact ht i j r' q' hr' hq' (by rw [hrname, hqname, hrq])

/-! ## Declared names -/

/-- What is said of two symbols that differ at most in their operand classes. -/
def Alike (s r : ObjectSymbol) : Prop := ∃ c, r = { s with operandClass := c }

theorem Alike.refl (s : ObjectSymbol) : Alike s s := ⟨s.operandClass, rfl⟩

theorem Alike.trans {s q : ObjectSymbol} (hsr : Alike s r) (hrq : Alike r q) : Alike s q := by
  obtain ⟨c, rfl⟩ := hsr
  obtain ⟨d, rfl⟩ := hrq
  exact ⟨d, rfl⟩

/-- A symbol that was just declared. -/
structure Fresh (name : String) (cls : SymbolClass) (s : ObjectSymbol) : Prop where
  name_eq : s.name = name
  cls_eq : s.cls = cls
  segment_eq : s.segment = none
  externIndex_eq : s.externIndex = 0
  flags_eq : s.flags = .none
  data_eq : s.data = none

/-- The table `u` is the table `t` in which `id` is the symbol of a name. It is a new one of a class
if the table had none. -/
structure Declares (t : ObjectSymbolTable) (name : String) (cls : SymbolClass)
    (id : ObjectSymbolId) (u : ObjectSymbolTable) : Prop where
  grows : t.size ≤ u.size
  kept : ∀ i s, t.get? i = some s → ∃ r, u.get? i = some r ∧ Alike s r
  named : ∃ s, u.get? id = some s ∧ s.name = name
  made : ∀ i r, u.get? i = some r → (∃ s, t.get? i = some s ∧ Alike s r) ∨
    (i = id ∧ Fresh name cls r ∧ ∀ j s, t.get? j = some s → s.name ≠ name)

theorem declare_cases (t : ObjectSymbolTable) (name : String) (cls : SymbolClass) (size : UInt64) :
    (∃ id s, t.declare name cls size = (id, t) ∧ t.get? id = some s ∧ s.name = name) ∨
    ∃ s u, t.declare name cls size = (⟨t.size⟩, u) ∧ Fresh name cls s ∧ s.size = size ∧
      u.size = t.size + 1 ∧ (∀ i, u.get? i = if i = ⟨t.size⟩ then some s else t.get? i) ∧
      ∀ j r, t.get? j = some r → r.name ≠ name := by
  unfold declare
  cases hlookup : t.lookup name with
  | some id =>
    obtain ⟨s, hs, hname⟩ := lookup_eq_some hlookup
    exact .inl ⟨id, s, rfl, hs, hname⟩
  | none =>
    dsimp only
    generalize hs : ({ name, cls, size, operandClass := _ } : ObjectSymbol) = s
    refine .inr ⟨s, ⟨t.symbols.push s⟩, hs ▸ rfl, hs ▸ ⟨rfl, rfl, rfl, rfl, rfl, rfl⟩, hs ▸ rfl,
      Array.size_push s, fun i => ?_, fun j r hr => lookup_eq_none hlookup hr⟩
    have hplace : i.index = t.symbols.size ↔ i = ⟨t.size⟩ := by
      cases i
      exact (ObjectSymbolId.mk.injEq ..).symm ▸ Iff.rfl
    exact Array.getElem?_push.trans (by simp only [hplace, get?])

theorem get?_declare (cls : SymbolClass) (size : UInt64) (hs : t.get? i = some s) :
    (t.declare name cls size).2.get? i = some s := by
  rcases declare_cases t name cls size with ⟨id, r, h, -⟩ | ⟨r, u, h, -, -, -, hu, -⟩ <;> rw [h]
  · exact hs
  rw [hu, if_neg, hs]
  rintro rfl
  exact Nat.lt_irrefl _ (lt_size_iff.mpr ⟨s, hs⟩)

/-- What holds of all symbols still does if it holds of the one that is declared. -/
theorem forall_declare {P : ObjectSymbolId → ObjectSymbol → Prop} {size : UInt64}
    (ht : ∀ i s, t.get? i = some s → P i s)
    (hnew : ∀ s, Fresh name cls s → s.size = size → P ⟨t.size⟩ s) :
    ∀ i s, (t.declare name cls size).2.get? i = some s → P i s := by
  rcases declare_cases t name cls size with ⟨id, r, h, -⟩ |
    ⟨r, u, h, hr, hsize, -, hu, -⟩ <;> rw [h]
  · exact ht
  intro i s hs
  rw [hu] at hs
  split at hs
  · next hi => exact hi ▸ Option.some.inj hs ▸ hnew r hr hsize
  · exact ht i s hs

theorem declare_declares (t : ObjectSymbolTable) (name : String) (cls : SymbolClass)
    (size : UInt64) :
    Declares t name cls (t.declare name cls size).1 (t.declare name cls size).2 := by
  have hkept : ∀ i s, t.get? i = some s → ∃ r, (t.declare name cls size).2.get? i = some r ∧
      Alike s r :=
    fun i s hs => ⟨s, get?_declare cls size hs, .refl s⟩
  rcases declare_cases t name cls size with
    ⟨id, s, h, hs, hname⟩ | ⟨s, u, h, hfresh, -, hsize, hu, hother⟩ <;> rw [h] at hkept ⊢
  · exact ⟨.refl, hkept, ⟨s, hs, hname⟩, fun i r hr => .inl ⟨r, hr, .refl r⟩⟩
  refine ⟨hsize ▸ Nat.le_succ _, hkept, ⟨s, by rw [hu, if_pos rfl], hfresh.name_eq⟩,
    fun i r hr => ?_⟩
  rw [hu] at hr
  split at hr
  · next hi => exact .inr ⟨hi, Option.some.inj hr ▸ hfresh, hother⟩
  · exact .inl ⟨r, hr, .refl r⟩

theorem Declares.modify (hd : Declares t name cls id u) (hf : ∀ s, Alike s (f s)) :
    Declares t name cls id (u.modify id f) := by
  refine ⟨(size_modify ..).symm ▸ hd.grows, fun i s hs => ?_, ?_, fun i r hr => ?_⟩
  · obtain ⟨r, hr, hsr⟩ := hd.kept i s hs
    obtain ⟨q, hq, hrq⟩ := to_modify Alike.refl hf id hr
    exact ⟨q, hq, hsr.trans hrq⟩
  · obtain ⟨s, hs, hname⟩ := hd.named
    obtain ⟨r, hr, c, rfl⟩ := to_modify Alike.refl hf id hs
    exact ⟨_, hr, hname⟩
  obtain ⟨s, hs, hsr⟩ := of_modify Alike.refl hf hr
  rcases hd.made i s hs with ⟨s', hs', halike⟩ | ⟨hi, hfresh, hnew⟩
  · exact .inl ⟨s', hs', halike.trans hsr⟩
  · obtain ⟨c, rfl⟩ := hsr
    exact .inr ⟨hi, { hfresh with }, hnew⟩

theorem Declares.unique (hd : Declares t name cls id u) (ht : t.Unique) : u.Unique := by
  intro i j s r hs hr hname
  rcases hd.made i s hs with ⟨s', hs', c, rfl⟩ | ⟨rfl, hfresh, hnew⟩ <;>
    rcases hd.made j r hr with ⟨r', hr', d, rfl⟩ | ⟨rfl, hfresh', hnew'⟩
  · exact ht i j s' r' hs' hr' hname
  · exact absurd (hname.trans hfresh'.name_eq) (hnew' i s' hs')
  · exact absurd (hname.symm.trans hfresh.name_eq) (hnew j r' hr')
  · rfl

end DCompiler.ObjectSymbolTable
