import DCompiler.Proofs.Object.Fill
import Mathlib.Data.List.Induction
import Mathlib.Data.List.Pairwise
import Mathlib.Data.List.Perm.Basic

/-!
# The order in which symbols are resolved

Resolving symbols fills in the fields that wait for them, one field after the other. Each field is
one write, and writes to fields that do not overlap commute, also where they make a segment longer.
So of the order in which symbols are resolved nothing is left but that of the relocations.
-/

namespace DCompiler

open Work List

/-! ## Writes that commute -/

theorem writeAt_comm {o o' : Nat} {x y : List UInt8} (h : o + x.length ≤ o') (data : List UInt8) :
    writeAt o' y (writeAt o x data) = writeAt o x (writeAt o' y data) := by
  apply ext_getElem?
  simp only [getElem?_writeAt, length_writeAt]
  grind

namespace ObjectFile

theorem write_comm {x y : Fixup} (hxy : x.Apart y) {v w : List UInt8} (hv : v.length = x.width)
    (hw : w.length = y.width) (f : ObjectFile) :
    (f.write x.segment x.offset v).write y.segment y.offset w =
      (f.write y.segment y.offset w).write x.segment x.offset v := by
  by_cases hsegment : x.segment = y.segment
  · have hbytes : ∀ data, writeAt y.offset.toNat w (writeAt x.offset.toNat v data) =
        writeAt x.offset.toNat v (writeAt y.offset.toNat w data) := by
      rcases hxy with h | h | h
      · exact absurd hsegment h
      · exact writeAt_comm (hv ▸ h)
      · exact fun data => (writeAt_comm (hw ▸ h) data).symm
    unfold write
    simp only [hsegment, segment]
    cases y.segment <;> simp only [Segments.set, Segments.get?, Option.getD_some, hbytes]
  · revert hsegment
    unfold write segment
    cases x.segment <;> cases y.segment <;> simp [Segments.set, Segments.get?]

def fillIn (f : ObjectFile) (p : Fixup × ObjectSymbol) : ObjectFile := p.1.put p.2 f

def writeIn (f : ObjectFile) (p : Fixup × ObjectSymbol) : ObjectFile :=
  f.write p.1.segment p.1.offset (Text.littleEndian p.1.width (p.1.word p.2))

variable {f : ObjectFile} {ps qs : List (Fixup × ObjectSymbol)}

theorem pointerSize_foldl (f : ObjectFile) : (ps.foldl writeIn f).pointerSize = f.pointerSize := by
  induction ps generalizing f with
  | nil => rfl
  | cons p ps ih => exact ih (f.writeIn p)

theorem foldl_fillIn (hps : ∀ p ∈ ps, p.1.width = f.fieldWidth p.1.flags) :
    ps.foldl fillIn f = { ps.foldl writeIn f with
      relocations := f.relocations ++ ps.flatMap fun p => p.1.relocations p.2 } := by
  induction ps using reverseRecOn with
  | nil =>
    rw [flatMap_nil, append_nil]
    rfl
  | append_singleton ps p ih =>
    obtain ⟨hfront, hlast⟩ := forall_mem_append.mp hps
    have hwidth : p.1.width = (ps.foldl fillIn f).fieldWidth p.1.flags := by
      rw [ih hfront, hlast p mem_cons_self]
      exact congrArg (relocationWidth · p.1.flags) (pointerSize_foldl f).symm
    rw [foldl_append, foldl_append, flatMap_append, flatMap_singleton, ← append_assoc]
    refine (Fixup.put_eq hwidth p.2).trans ?_
    rw [ih hfront]
    rfl

/-- Fields that do not overlap can be filled in in any order. -/
theorem foldl_fillIn_perm (hperm : ps.Perm qs)
    (hps : ∀ p ∈ ps, p.1.width = f.fieldWidth p.1.flags)
    (hapart : ∀ p ∈ ps, ∀ q ∈ ps, p ≠ q → p.1.Apart q.1) :
    (ps.foldl fillIn f).relocations.Perm (qs.foldl fillIn f).relocations ∧
      qs.foldl fillIn f = { ps.foldl fillIn f with
        relocations := (qs.foldl fillIn f).relocations } := by
  have hwrites : ps.foldl writeIn f = qs.foldl writeIn f := by
    refine hperm.foldl_eq' (fun p hp q hq f => ?_) f
    by_cases hpq : p = q
    · rw [hpq]
    · exact write_comm (hapart p hp q hq hpq) (Text.length_littleEndian ..)
        (Text.length_littleEndian ..) f
  rw [foldl_fillIn hps, foldl_fillIn fun p hp => hps p (hperm.mem_iff.mpr hp), hwrites]
  exact ⟨(hperm.flatMap_right _).append_left _, rfl⟩

end ObjectFile

namespace Assemble

variable {a b : Assembly} {rs : List Reference} {id : ObjectSymbolId}
  {ids ids' : List ObjectSymbolId} {s : ObjectSymbol}

/-! ## Resolving symbols one after the other -/

/-- The fields that wait for a symbol, with it, in the order in which they are filled in. -/
def pending (a : Assembly) (id : ObjectSymbolId) : List (Fixup × ObjectSymbol) :=
  (a.fixups.waiting id).reverse.map (·, (a.symbols.get? id).getD default)

def resolved (a : Assembly) (ids : List ObjectSymbolId) : Assembly :=
  { a with
    fixups := { a.fixups with
      queues := a.fixups.queues.filter (·.symbol ∉ ids)
      order := a.fixups.order.filter (· ∉ ids) }
    file := (ids.flatMap (pending a)).foldl ObjectFile.fillIn a.file }

/-- There is a fault in the distance of a field that waits for one of some symbols. -/
def Misses (a : Assembly) (ids : List ObjectSymbolId) (e : Fault) : Prop :=
  ∃ p ∈ ids.flatMap (pending a), p.1.Misses p.2 e

theorem filled_eq_resolved (ha : a.fixups.WF) (hs : a.symbols.get? id = some s) :
    filled a id s = resolved a [id] := by
  simp [filled, resolved, pending, ha.erase_eq, hs, filledFile, foldr_map, ObjectFile.fillIn]

theorem resolved_idle (ha : a.fixups.WF) (hempty : a.fixups.waiting id = []) :
    resolved a [id] = a := by
  have hqueues : a.fixups.queues.filter (·.symbol ∉ [id]) = a.fixups.queues := by
    refine filter_eq_self.mpr fun q hq => decide_eq_true fun hid => ?_
    have hmem : q.symbol ∈ a.fixups.order := ha.order_eq ▸ mem_map_of_mem hq
    exact ha.mem_order.mp hmem (mem_singleton.mp hid ▸ hempty)
  have horder : a.fixups.order.filter (· ∉ [id]) = a.fixups.order := by
    simpa using ha.filter_order hempty
  rw [resolved, hqueues, horder, flatMap_singleton, pending, hempty]
  rfl

theorem resolve_cases_of_wf (ha : a.fixups.WF) (hs : a.symbols.get? id = some s) :
    (resolve id).run a = (.ok ⟨⟩, resolved a [id]) ∧ (∀ e, ¬ Misses a [id] e) ∨
      ∃ e, (resolve id).run a = (.error e, a) ∧ Misses a [id] e := by
  have hmisses (e : Fault) : Misses a [id] e ↔ ∃ x ∈ a.fixups.waiting id, x.Misses s e := by
    simp [Misses, pending, hs]
  refine (resolve_cases hs).imp (fun ⟨hrun, hreach⟩ => ⟨?_, fun e he => ?_⟩)
    fun ⟨e, hrun, hmiss⟩ => ⟨e, hrun, (hmisses e).mpr hmiss⟩
  · rw [hrun]
    split
    · next hempty => rw [resolved_idle ha hempty]
    · rw [filled_eq_resolved ha hs]
  · obtain ⟨x, hx, hmiss⟩ := (hmisses e).mp he
    exact hreach x hx e hmiss

theorem pending_resolved (ha : a.fixups.WF) {i : ObjectSymbolId} (hi : i ≠ id) :
    pending (resolved a [id]) i = pending a i := by
  have hfixups : (resolved a [id]).fixups = a.fixups.erase id := by simp [resolved, ha.erase_eq]
  rw [pending, hfixups, FixupTable.waiting_erase, if_neg hi]
  rfl

theorem resolves_cases (ha : a.fixups.WF) (hids : ids.Nodup)
    (hs : ∀ id ∈ ids, (a.symbols.get? id).isSome) :
    (ids.forM resolve).run a = (.ok ⟨⟩, resolved a ids) ∧ (∀ e, ¬ Misses a ids e) ∨
      ∃ e, ((ids.forM resolve).run a).1 = .error e ∧ Misses a ids e := by
  induction ids generalizing a with
  | nil => exact .inl ⟨by simp [resolved]; rfl, fun e ⟨p, hp, _⟩ => nomatch hp⟩
  | cons id ids ih =>
    obtain ⟨hid, hids⟩ := nodup_cons.mp hids
    obtain ⟨hfirst, hs⟩ := forall_mem_cons.mp hs
    obtain ⟨s, hsymbol⟩ := Option.isSome_iff_exists.mp hfirst
    have hwf : (resolved a [id]).fixups.WF := by simpa [resolved, ha.erase_eq] using ha.erase id
    have hpending : ids.flatMap (pending (resolved a [id])) = ids.flatMap (pending a) :=
      flatMap_congr fun i hi => pending_resolved ha fun h => hid (h ▸ hi)
    have hmisses (e : Fault) :
        Misses a (id :: ids) e ↔ Misses a [id] e ∨ Misses (resolved a [id]) ids e := by
      simp only [Misses, hpending, flatMap_cons, flatMap_nil, append_nil, mem_append, or_and_right,
        exists_or]
    show (resolve id >>= fun _ => ids.forM resolve).run a = _ ∧ _ ∨
      ∃ e, ((resolve id >>= fun _ => ids.forM resolve).run a).1 = _ ∧ _
    rcases resolve_cases_of_wf ha hsymbol with ⟨hrun, hreach⟩ | ⟨e, hrun, hmiss⟩
    · rw [run_bind hrun]
      refine (ih hwf hids hs).imp (fun ⟨hrest, hothers⟩ => ⟨?_, fun e he => ?_⟩)
        fun ⟨e, hrest, hmiss⟩ => ⟨e, hrest, (hmisses e).mpr (.inr hmiss)⟩
      · rw [hrest, resolved, hpending]
        simp [resolved, filter_filter, Bool.and_comm]
      · exact ((hmisses e).mp he).elim (hreach e) (hothers e)
    · refine .inr ⟨e, ?_, (hmisses e).mpr (.inl hmiss)⟩
      rw [run_bind_eq, hrun]

/-! ## Two orders -/

theorem reference_of_pending {f : ObjectFile} (ha : Queued rs f a.fixups) {p : Fixup × ObjectSymbol}
    (hp : p ∈ ids.flatMap (pending a)) :
    ∃ r ∈ rs, p = (r.fixup f, (a.symbols.get? r.symbol).getD default) := by
  obtain ⟨id, -, hp⟩ := mem_flatMap.mp hp
  obtain ⟨x, hx, rfl⟩ := mem_map.mp hp
  rw [mem_reverse, ha.waiting, mem_map] at hx
  obtain ⟨r, hr, rfl⟩ := hx
  obtain ⟨hmem, hid⟩ := mem_filter.mp hr
  obtain rfl := of_decide_eq_true hid
  exact ⟨r, hmem, rfl⟩

/-- After any references whose fields do not overlap, and whatever was written, placed or declared
since, resolving symbols in two orders gives the same segments and the same table of fields that
still wait, and the relocations differ in their order only. For some of the symbols there may be
nothing that waits. If there is a fault in the distance of one of the fields, neither order gives
anything. -/
theorem resolve_in_any_order (hfixups : a.fixups = .empty) (rs : List Reference)
    (hapart : rs.Pairwise fun r q => (r.fixup a.file).Apart (q.fixup a.file))
    (hrefer : (referAll rs).run a = (.ok ⟨⟩, b)) (t : ObjectSymbolTable) (f : ObjectFile)
    (hf : f.pointerSize = a.file.pointerSize) (hids : ids.Nodup) (hperm : ids.Perm ids')
    (hplaced : ∀ id ∈ ids, ∃ s, t.get? id = some s ∧ s.segment.isSome) :
    (∃ c c', (ids.forM resolve).run { b with symbols := t, file := f } = (.ok ⟨⟩, c) ∧
      (ids'.forM resolve).run { b with symbols := t, file := f } = (.ok ⟨⟩, c') ∧
      (∀ g, c.file.segment g = c'.file.segment g) ∧ c.fixups = c'.fixups ∧
      c.file.relocations.Perm c'.file.relocations ∧
      c' = { c with file := { c.file with relocations := c'.file.relocations } } ∧
      ∀ e, ¬ Misses { b with symbols := t, file := f } ids e) ∨
    ∃ e e', ((ids.forM resolve).run { b with symbols := t, file := f }).1 = .error e ∧
      ((ids'.forM resolve).run { b with symbols := t, file := f }).1 = .error e' ∧
      Misses { b with symbols := t, file := f } ids e ∧
      Misses { b with symbols := t, file := f } ids e' := by
  have hstart : Refers [] a.file a := ⟨hfixups ▸ queued_nil a.file, rfl, nofun⟩
  have hqueued := (refers_foldl hstart rs).queued
  rw [referAll_run] at hrefer
  obtain rfl : rs.foldl withReference a = b := congrArg Prod.snd hrefer
  generalize hd : { rs.foldl withReference a with symbols := t, file := f } = d
  have hwait : Queued rs a.file d.fixups := by simpa [← hd] using hqueued
  have hsymbols : ∀ id ∈ ids, (d.symbols.get? id).isSome := fun id hid => by
    obtain ⟨s, hs, -⟩ := hplaced id hid
    simp [← hd, hs]
  have hfields : ∀ p ∈ ids.flatMap (pending d), p.1.width = d.file.fieldWidth p.1.flags := by
    intro p hp
    obtain ⟨r, -, rfl⟩ := reference_of_pending hwait hp
    exact hd ▸ fieldWidth_congr hf.symm r.flags
  have hsymm : Std.Symm fun r q : Reference => (r.fixup a.file).Apart (q.fixup a.file) :=
    ⟨fun _ _ => Fixup.Apart.symm⟩
  have hdisjoint : ∀ p ∈ ids.flatMap (pending d), ∀ q ∈ ids.flatMap (pending d), p ≠ q →
      p.1.Apart q.1 := by
    intro p hp q hq hne
    obtain ⟨r, hr, rfl⟩ := reference_of_pending hwait hp
    obtain ⟨r', hr', rfl⟩ := reference_of_pending hwait hq
    exact hapart.forall hr hr' fun h => hne (by rw [h])
  obtain ⟨hrelocations, hfile⟩ :=
    ObjectFile.foldl_fillIn_perm (hperm.flatMap_right (pending d)) hfields hdisjoint
  have htable : (resolved d ids').fixups = (resolved d ids).fixups := by
    simp only [resolved, hperm.mem_iff]
  have hmisses (e : Fault) : Misses d ids' e ↔ Misses d ids e := by
    simp only [Misses, (hperm.flatMap_right (pending d)).mem_iff]
  rcases resolves_cases hwait.wf hids hsymbols with ⟨hrun, hreach⟩ | ⟨e, hrun, hmiss⟩ <;>
    rcases resolves_cases hwait.wf (hperm.nodup_iff.mp hids) fun id hid =>
      hsymbols id (hperm.mem_iff.mpr hid) with ⟨hrun', hreach'⟩ | ⟨e', hrun', hmiss'⟩
  · refine .inl ⟨resolved d ids, resolved d ids', hrun, hrun', fun g => ?_, htable.symm,
      hrelocations, ?_, hreach⟩
    · exact (congrArg (·.segment g) hfile).symm
    · show (⟨d.code, d.data, d.symbols, (resolved d ids').fixups, (resolved d ids').file⟩ :
        Assembly) = _
      rw [htable]
      exact congrArg (Assembly.mk d.code d.data d.symbols (resolved d ids).fixups) hfile
  · exact absurd ((hmisses e').mp hmiss') (hreach e')
  · exact absurd ((hmisses e).mpr hmiss) (hreach' e)
  · exact .inr ⟨e, e', hrun, hrun', hmiss, (hmisses e').mp hmiss'⟩

/-- Two functions, one placed in the code and one elsewhere, and one for which nothing waits. -/
def threePlaced : ObjectSymbolTable :=
  ⟨#[placedAt64, { placedAt64 with name := "g", segment := some .data },
    { placedAt64 with name := "h" }]⟩

theorem resolve_in_any_order_three : ∃ c c',
    ([⟨0⟩, ⟨2⟩, ⟨1⟩].forM resolve).run { ((referAll threeReferences).run (.empty 8)).2 with
      symbols := threePlaced } = (.ok ⟨⟩, c) ∧
    ([⟨1⟩, ⟨0⟩, ⟨2⟩].forM resolve).run { ((referAll threeReferences).run (.empty 8)).2 with
      symbols := threePlaced } = (.ok ⟨⟩, c') ∧
    (∀ g, c.file.segment g = c'.file.segment g) ∧ c.fixups = c'.fixups ∧
    c.file.relocations.Perm c'.file.relocations ∧
    c.file.relocations.map (·.target) = [.symbol "f", .symbol "g"] ∧
    c'.file.relocations.map (·.target) = [.symbol "g", .symbol "f"] := by
  have hperm : [⟨0⟩, ⟨2⟩, ⟨1⟩].Perm [⟨1⟩, ⟨0⟩, (⟨2⟩ : ObjectSymbolId)] := by decide
  obtain ⟨c, c', hc, hc', hsegments, htable, hrelocations, -⟩ | ⟨e, -, hrun, -⟩ :=
    resolve_in_any_order (a := .empty 8) rfl threeReferences (by decide) rfl threePlaced
      ((referAll threeReferences).run (.empty 8)).2.file rfl (by decide) hperm (by decide)
  case inr => exact nomatch hrun
  refine ⟨c, c', hc, hc', hsegments, htable, hrelocations, ?_, ?_⟩
  · exact congrArg (fun r => r.2.file.relocations.map (·.target)) hc.symm
  · exact congrArg (fun r => r.2.file.relocations.map (·.target)) hc'.symm

end Assemble

end DCompiler
