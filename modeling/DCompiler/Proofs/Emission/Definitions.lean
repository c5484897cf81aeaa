import Mathlib.Data.List.Pairwise
import DCompiler.Proofs.Emission.Calls

/-!
# The definitions of an emitted file

A file defines the name of each emitted variable and function as often as there are variables and
functions of that name, and it defines unnamed data once. So no name is defined twice exactly if no
two emitted symbols have one name (`definitions_unique_iff`). Functions that are overloaded have one
name, and calls to any of them go to the last one (`calls_of_overloads`).

Each variable has bytes of its own, as many as its data has. These are all the bytes of its type,
unless an address is in the place of a larger value; with that exception, variables of different
names do not overlap (`globals_apart`, `globals_overlap`).

A call makes its name an external one if nothing defines it, but an address in the data does not.
So an emitted file is closed exactly if each symbol whose address is in the data is defined, or is
called somewhere (`closed_iff`).

Each record that an emission puts into a pool belongs to one chain at a time, and the last owner
frees it. So no chain is left when all is written.
-/

namespace DCompiler

open Cells Work Piece Assemble List Emission

namespace Program

def emitted (p : Program) : List SymbolId := p.emittedGlobals ++ p.emittedFunctions

def extent (p : Program) (s : SymbolId) : Nat :=
  (p.sizeOf ((p.symbols.var? s).getD default).type).toNat

variable {p : Program}

theorem nodup_ids (t : SymbolTable) : t.ids.Nodup :=
  nodup_range.map fun _ _ h => congrArg SymbolId.index h

theorem nodup_emitted (p : Program) : p.emitted.Nodup := by
  refine Nodup.append ((nodup_ids _).filter _) ((nodup_ids _).filter _) ?_
  intro s hglobal hfunction
  obtain ⟨v, hv, -⟩ := (Option.any_eq_true _ _).mp (mem_filter.mp hglobal).2
  obtain ⟨f, hf, -⟩ := (Option.any_eq_true _ _).mp (mem_filter.mp hfunction).2
  unfold SymbolTable.var? Symbol.var? at hv
  unfold SymbolTable.func? Symbol.func? at hf
  split at hv
  · next hkind => simp [hkind] at hf
  · simp at hv

theorem symbols_items (d : Description) (s : SymbolId) :
    (d.items (some s)).filterMap (·.symbol) = [s] := by
  have hbesides : (d.besides.map (DataItem.mk none)).filterMap (·.symbol) = [] := by
    simp [filterMap_map]
  rw [Description.items, filterMap_append, hbesides]
  rfl

theorem symbols_dataItems (p : Program) : p.dataItems.filterMap (·.symbol) = p.emittedGlobals := by
  unfold dataItems
  induction p.emittedGlobals with
  | nil => rfl
  | cons s rest ih => rw [flatMap_cons, filterMap_append, symbols_items, ih]; rfl

theorem parts_of_mem_dataItems {item : DataItem} {s : SymbolId} (hitem : item ∈ p.dataItems)
    (hs : item.symbol = some s) :
    s ∈ p.emittedGlobals ∧ item.parts = (p.globalDescription s).parts := by
  obtain ⟨t, ht, hmem⟩ := mem_flatMap.mp hitem
  rcases mem_append.mp hmem with hmem | hmem
  · obtain ⟨parts, -, rfl⟩ := mem_map.mp hmem
    exact nomatch hs
  rw [mem_singleton.mp hmem] at hs ⊢
  obtain rfl := Option.some.inj hs
  exact ⟨ht, rfl⟩

end Program

namespace Emission

variable {p : Program} {qs : List Placement} {f : ObjectFile} {s : SymbolId} {q : Placement}
  {d : Definition}

/-! ## Names -/

theorem perm_names (hnamed : ∀ q ∈ qs, q.Named p) :
    (qs.map (·.definition.name)).Perm
      ((qs.filter (·.item.symbol.isNone)).map (·.definition.name) ++
        (qs.filterMap (·.item.symbol)).map (objectName p)) := by
  induction qs with
  | nil => exact .nil
  | cons q qs ih =>
    have hrest := ih fun r hr => hnamed r (mem_cons_of_mem _ hr)
    have hq := hnamed q mem_cons_self
    unfold Placement.Named at hq
    cases hsymbol : q.item.symbol with
    | none => simpa [hsymbol] using hrest
    | some s =>
      rw [hsymbol] at hq
      simp only [map_cons, filter_cons, filterMap_cons, hsymbol, Option.isNone_some,
        Bool.false_eq_true, if_false]
      rw [show q.definition.name = objectName p s from hq]
      exact (hrest.cons _).trans perm_middle.symm

theorem Emitted.symbols (hf : Emitted p qs f) :
    qs.filterMap (·.item.symbol) = p.emittedGlobals := by
  rw [← p.symbols_dataItems, ← hf.items, filterMap_map]
  rfl

theorem map_objectName_functions (p : Program) :
    p.emittedFunctions.map (objectName p) = p.emittedFunctions.map p.linkName :=
  map_congr_left fun _ hs => objectName_of_function (isFunction_of_emitted hs)

theorem Emitted.perm_defined (hf : Emitted p qs f) :
    (f.defined.map (·.name)).Perm ((qs.filter (·.item.symbol.isNone)).map (·.definition.name) ++
      p.emitted.map (objectName p)) := by
  obtain ⟨f0, hholds, hadded⟩ := hf.data
  obtain ⟨defs, hdefined, -, hnames⟩ := hadded.defined
  rw [hdefined, hholds.defined, map_append, map_map, hnames, Program.emitted,
    map_append, map_objectName_functions, ← append_assoc, ← hf.symbols]
  exact (perm_names hholds.named).append_right _

section

variable (hf : Emitted p qs f) (hnames : Unreserved p)
include hf hnames

theorem Emitted.unnamed_disjoint :
    Disjoint ((qs.filter (·.item.symbol.isNone)).map (·.definition.name))
      (p.emitted.map (objectName p)) := by
  obtain ⟨f0, hholds, -⟩ := hf.data
  intro name hunnamed hemitted
  obtain ⟨q, hq, rfl⟩ := mem_map.mp hunnamed
  obtain ⟨s, -, hs⟩ := mem_map.mp hemitted
  obtain ⟨hq, hnone⟩ := mem_filter.mp hq
  have hnamed := hholds.named q hq
  rw [Placement.Named, Option.isNone_iff_eq_none.mp hnone] at hnamed
  obtain ⟨n, hn⟩ := hnamed
  exact hnames s n (hs.trans hn)

theorem Emitted.nodup_iff :
    (f.defined.map (·.name)).Nodup ↔
      ∀ x ∈ p.emitted, ∀ y ∈ p.emitted, objectName p x = objectName p y → x = y := by
  obtain ⟨f0, hholds, -⟩ := hf.data
  rw [hf.perm_defined.nodup_iff, nodup_append', ← nodup_map_iff_inj_on p.nodup_emitted]
  constructor
  · exact fun h => h.2.1
  · exact fun h => ⟨hholds.fresh hnames, h, hf.unnamed_disjoint hnames⟩

theorem Emitted.count_defined (hs : s ∈ p.emitted) :
    (f.defined.map (·.name)).count (objectName p s) =
      (p.emitted.map (objectName p)).count (objectName p s) := by
  have hnone : objectName p s ∉ (qs.filter (·.item.symbol.isNone)).map (·.definition.name) :=
    fun h => hf.unnamed_disjoint hnames h (mem_map_of_mem hs)
  rw [hf.perm_defined.count_eq, count_append, count_eq_zero.mpr hnone, Nat.zero_add]

end

theorem objectSymbol_eq_iff {x y : SymbolId} {a b c : Assembly} {i j : ObjectSymbolId}
    (ha : a.symbols.Unique) (hx : (objectSymbol p x).run a = (.ok i, b))
    (hy : (objectSymbol p y).run b = (.ok j, c)) : i = j ↔ objectName p x = objectName p y := by
  obtain ⟨t, cls, -, ht, -, rfl⟩ := (objectSymbol_gives p x a).of_ok hx
  obtain ⟨u, cls', -, hu, -, rfl⟩ := (objectSymbol_gives p y { a with symbols := t }).of_ok hy
  have hunique := hu.unique (ht.unique ha)
  obtain ⟨s, hs, hsname⟩ := ht.named
  obtain ⟨r, hr, c, rfl⟩ := hu.kept i s hs
  obtain ⟨q, hq, hqname⟩ := hu.named
  constructor
  · rintro rfl
    obtain rfl := Option.some.inj (hr.symm.trans hq)
    exact hsname.symm.trans hqname
  · intro hname
    exact hunique i j _ q hr hq (hsname.trans (hname.trans hqname.symm))

/-! ## Places -/

def Placement.Apart (q r : Placement) : Prop :=
  q.definition.segment = r.definition.segment →
    q.stop ≤ r.definition.offset.toNat ∨ r.stop ≤ q.definition.offset.toNat

instance : Std.Symm Placement.Apart := ⟨fun _ _ h hsame => (h hsame.symm).symm⟩

/-- Of two items one was placed first. -/
theorem Placed.apart_of_ne (hf : Placed p qs f) {r : Placement} (hq : q ∈ qs) (hr : r ∈ qs)
    (hne : q ≠ r) : q.Apart r := by
  have hpairs : qs.Pairwise Placement.Apart := hf.apart.imp fun h hsame => .inl (h hsame)
  exact hpairs.forall hq hr hne

/-- The definition is that of a variable, in a segment of data. -/
def Defines (p : Program) (s : SymbolId) (d : Definition) : Prop :=
  d.segment ≠ .code ∧ d.name = objectName p s

section

variable (hf : Emitted p qs f)
include hf

theorem Emitted.exists_placement (hd : d ∈ f.defined)
    (hsegment : d.segment ≠ .code) : ∃ q ∈ qs, q.definition = d := by
  obtain ⟨f0, hholds, hadded⟩ := hf.data
  obtain ⟨defs, hdefined, hcode, -⟩ := hadded.defined
  rw [hdefined, hholds.defined] at hd
  rcases mem_append.mp hd with hd | hd
  · exact mem_map.mp hd
  · exact absurd (hcode d hd) hsegment

theorem Emitted.exists_defines (hs : s ∈ p.emittedGlobals) : ∃ d ∈ f.defined, Defines p s d := by
  obtain ⟨f0, hholds, hadded⟩ := hf.data
  obtain ⟨defs, hdefined, -, -⟩ := hadded.defined
  rw [← hf.symbols] at hs
  obtain ⟨q, hq, hsymbol⟩ := mem_filterMap.mp hs
  have hnamed := hholds.named q hq
  rw [Placement.Named, hsymbol] at hnamed
  refine ⟨q.definition, ?_, ?_, hnamed⟩
  · rw [hdefined, hholds.defined]
    exact mem_append_left _ (mem_map_of_mem hq)
  · rcases hholds.placed.segments q hq with h | h <;> rw [h] <;> exact nofun

theorem Emitted.placement_of_defines (hvars : VariablesNamed p)
    (hnames : (p.emittedGlobals.map (objectName p)).Nodup) (hs : s ∈ p.emittedGlobals)
    (hd : d ∈ f.defined) (hdefines : Defines p s d) :
    ∃ q ∈ qs, q.definition = d ∧ q.item.symbol = some s := by
  obtain ⟨q, hq, rfl⟩ := hf.exists_placement hd hdefines.1
  obtain ⟨f0, hholds, -⟩ := hf.data
  have hnamed := hholds.named q hq
  refine ⟨q, hq, rfl, ?_⟩
  unfold Placement.Named at hnamed
  cases hsymbol : q.item.symbol with
  | none =>
    rw [hsymbol] at hnamed
    obtain ⟨n, hn⟩ := hnamed
    exact absurd (hdefines.2.symm.trans hn) (hvars s n (isSome_var?_of_emitted hs))
  | some t =>
    rw [hsymbol] at hnamed
    have ht : t ∈ p.emittedGlobals := by
      rw [← hf.symbols]
      exact mem_filterMap.mpr ⟨q, hq, hsymbol⟩
    have hinj := (nodup_map_iff_inj_on ((Program.nodup_ids _).filter _)).mp hnames
    exact congrArg some (hinj t ht s hs (hnamed.symm.trans hdefines.2))

/-- The bytes of an item hold the extent of its variable. -/
theorem Emitted.extent_le (hq : q ∈ qs) (hsymbol : q.item.symbol = some s)
    (hfit : p.AddressesFit (p.globalDescription s).parts) : p.extent s ≤ q.length := by
  obtain ⟨f0, hholds, -⟩ := hf.data
  have hitem : q.item ∈ p.dataItems := hf.items ▸ mem_map_of_mem hq
  have hlong := (hholds.placed.long q hq).1
  rw [(Program.parts_of_mem_dataItems hitem hsymbol).2] at hlong
  exact Nat.le_trans (Program.size_le_description _ hfit) hlong

/-- Behind the bytes of a variable its segment goes on, or ends. -/
theorem Emitted.extent_inside (hvars : VariablesNamed p)
    (hnames : (p.emittedGlobals.map (objectName p)).Nodup) (hs : s ∈ p.emittedGlobals)
    (hfit : p.AddressesFit (p.globalDescription s).parts) (hd : d ∈ f.defined)
    (hdefines : Defines p s d) : d.offset.toNat + p.extent s ≤ (f.segment d.segment).length := by
  obtain ⟨q, hq, rfl, hsymbol⟩ := hf.placement_of_defines hvars hnames hs hd hdefines
  have hextent := hf.extent_le hq hsymbol hfit
  obtain ⟨f0, hholds, hadded⟩ := hf.data
  have hinside := hholds.placed.inside q hq
  rw [hadded.data _ hdefines.1]
  unfold Placement.stop at hinside
  omega

theorem Emitted.extents_apart (hvars : VariablesNamed p)
    (hnames : (p.emittedGlobals.map (objectName p)).Nodup) {t : SymbolId}
    (hs : s ∈ p.emittedGlobals) (ht : t ∈ p.emittedGlobals) (hst : s ≠ t)
    (hsfit : p.AddressesFit (p.globalDescription s).parts)
    (htfit : p.AddressesFit (p.globalDescription t).parts) {e : Definition} (hd : d ∈ f.defined)
    (he : e ∈ f.defined) (hsd : Defines p s d) (hte : Defines p t e)
    (hsegment : d.segment = e.segment) :
    d.offset.toNat + p.extent s ≤ e.offset.toNat ∨
      e.offset.toNat + p.extent t ≤ d.offset.toNat := by
  obtain ⟨q, hq, rfl, hqs⟩ := hf.placement_of_defines hvars hnames hs hd hsd
  obtain ⟨r, hr, rfl, hrt⟩ := hf.placement_of_defines hvars hnames ht he hte
  have hqextent := hf.extent_le hq hqs hsfit
  have hrextent := hf.extent_le hr hrt htfit
  obtain ⟨f0, hholds, -⟩ := hf.data
  have hne : q ≠ r := by
    rintro rfl
    exact hst (Option.some.inj (hqs.symm.trans hrt))
  have hapart := hholds.placed.apart_of_ne hq hr hne hsegment
  unfold Placement.stop at hapart
  omega

end

/-! ## Sessions -/

theorem session_emits (s : Session) {size : Nat} (hfresh : s.assembly = .empty size)
    (hfits : Fits s.program) (hvars : VariablesNamed s.program) :
    (∃ em qs, s.emit.1 = .ok em ∧ Emitted s.program qs em.file) ∨ EndsSizeless s := by
  rcases emits_or_endsSizeless s hfresh hfits with ⟨em, hem, hemits⟩ | hsizeless
  · obtain ⟨qs, hqs⟩ := hemits.emitted hvars
    exact .inl ⟨em, qs, hem, hqs⟩
  · exact .inr hsizeless

theorem Unreserved.variablesNamed (hp : Unreserved p) : VariablesNamed p := fun s n _ => hp s n

theorem take_unnamedName (n : Nat) : (unnamedName n).toList.take 7 = "__dtoff".toList := by
  rw [unnamedName, String.toList_append]
  rfl

theorem symbol_of_not_mem (hs : s ∉ p.symbols.ids) : p.symbols.symbol s = default := by
  have hout : p.symbols.symbols[s.index]? = none := by
    by_contra hne
    obtain ⟨x, hx⟩ := Option.ne_none_iff_exists'.mp hne
    obtain ⟨hlt, -⟩ := Array.getElem?_eq_some_iff.mp hx
    exact hs (mem_map.mpr ⟨s.index, mem_range.mpr hlt, rfl⟩)
  rw [SymbolTable.symbol, hout]
  rfl

abbrev UnreservedIds (p : Program) : Prop :=
  ∀ s ∈ p.symbols.ids, (objectName p s).toList.take 7 ≠ "__dtoff".toList

theorem UnreservedIds.unreserved (hp : UnreservedIds p) : Unreserved p := by
  intro s n hname
  have htake := hname ▸ take_unnamedName n
  by_cases hs : s ∈ p.symbols.ids
  · exact hp s hs htake
  have hsymbol := symbol_of_not_mem hs
  have hempty : objectName p s = "" := by
    unfold objectName SymbolTable.func? SymbolTable.qualifiedName SymbolTable.namesUpward
      SymbolTable.name
    rw [hsymbol]
    cases p.symbols.size <;> rfl
  rw [hempty] at htake
  exact absurd htake (by decide)

end Emission

open Emission

/-- **A file defines no name twice exactly if no two emitted symbols have one name.** Each name is
defined as often as emitted symbols have it. Symbols of a program share an object symbol exactly if
they share their name, and then calls and addresses do not tell them apart. -/
theorem definitions_unique_iff (s : Session) {size : Nat} (hfresh : s.assembly = .empty size)
    (hfits : Fits s.program) (hnames : Unreserved s.program) :
    (∃ em, s.emit.1 = .ok em ∧
      ((em.file.defined.map (·.name)).Nodup ↔
        ∀ x ∈ s.program.emitted, ∀ y ∈ s.program.emitted,
          objectName s.program x = objectName s.program y → x = y) ∧
      (∀ x ∈ s.program.emitted, (em.file.defined.map (·.name)).count (objectName s.program x) =
        (s.program.emitted.map (objectName s.program)).count (objectName s.program x)) ∧
      ∀ x y a b c i j, a.symbols.Unique → (objectSymbol s.program x).run a = (.ok i, b) →
        (objectSymbol s.program y).run b = (.ok j, c) →
          (i = j ↔ objectName s.program x = objectName s.program y)) ∨ EndsSizeless s := by
  rcases session_emits s hfresh hfits hnames.variablesNamed with ⟨em, qs, hem, hf⟩ | hsizeless
  · refine .inl ⟨em, hem, hf.nodup_iff hnames, fun x hx => hf.count_defined hnames hx, ?_⟩
    intro x y a b c i j ha hx hy
    exact objectSymbol_eq_iff ha hx hy
  · exact .inr hsizeless

/-- Data with elements of its own, and two functions. -/
def mixed : Session :=
  sessionOf "module m; int x = 1; int[] a = [2]; void g() { } void f() { g(); }"

theorem definitions_unique_mixed :
    ∃ em, mixed.emit.1 = .ok em ∧ (em.file.defined.map (·.name)).Nodup := by
  obtain ⟨em, hem, hfits, hids, hinj⟩ : ∃ em, mixed.emit.1 = .ok em ∧ Fits mixed.program ∧
      UnreservedIds mixed.program ∧ ∀ x ∈ mixed.program.emitted, ∀ y ∈ mixed.program.emitted,
        objectName mixed.program x = objectName mixed.program y → x = y := by
    apply exists_ok_of_check
    decide +kernel
  rcases definitions_unique_iff mixed (assembly_sessionOf _) hfits hids.unreserved with
    ⟨em', hem', hunique, -⟩ | ⟨e, herror, -⟩
  · obtain rfl : em = em' := Except.ok.inj (hem.symm.trans hem')
    exact ⟨em, hem, hunique.mpr hinj⟩
  · exact absurd (hem.symm.trans herror) nofun

/-- Two overloads, which have one name. -/
def overloaded : Session :=
  sessionOf "module m; void f() { } void f(int x) { } void g() { f(); f(1); }"

/-- The name is defined twice. The call without an argument, whose field is at 17, goes to the
function at 6, which has a parameter. -/
theorem calls_of_overloads :
    ∃ em, overloaded.emit.1 = .ok em ∧ overloaded.program.log.errors = 0 ∧
      em.file.defined = [⟨"m.f", .code, 0, true⟩, ⟨"m.f", .code, 6, true⟩,
        ⟨"m.g", .code, 12, true⟩] ∧
      (Text.ofLittleEndian (callField em.file 17) + 21) % 2 ^ 32 = 6 := by
  apply exists_ok_of_check
  decide +kernel

/-- **Variables of different names do not overlap**, if each address in them is in the place of a
value that is no larger than a pointer. -/
theorem globals_apart (s : Session) {size : Nat} (hfresh : s.assembly = .empty size)
    (hfits : Fits s.program) (hvars : VariablesNamed s.program)
    (hnames : (s.program.emittedGlobals.map (objectName s.program)).Nodup) :
    (∃ em, s.emit.1 = .ok em ∧
      (∀ x ∈ s.program.emittedGlobals, ∃ d ∈ em.file.defined, Defines s.program x d) ∧
      ∀ x ∈ s.program.emittedGlobals,
        s.program.AddressesFit (s.program.globalDescription x).parts →
        ∀ d ∈ em.file.defined, Defines s.program x d →
          d.offset.toNat + s.program.extent x ≤ (em.file.segment d.segment).length ∧
          ∀ y ∈ s.program.emittedGlobals, x ≠ y →
            s.program.AddressesFit (s.program.globalDescription y).parts →
            ∀ e ∈ em.file.defined, Defines s.program y e → d.segment = e.segment →
              d.offset.toNat + s.program.extent x ≤ e.offset.toNat ∨
                e.offset.toNat + s.program.extent y ≤ d.offset.toNat) ∨ EndsSizeless s := by
  rcases session_emits s hfresh hfits hvars with ⟨em, qs, hem, hf⟩ | hsizeless
  · refine .inl ⟨em, hem, fun x hx => hf.exists_defines hx, ?_⟩
    intro x hx hxfit d hd hxd
    refine ⟨hf.extent_inside hvars hnames hx hxfit hd hxd, ?_⟩
    intro y hy hxy hyfit e he hye hsegment
    exact hf.extents_apart hvars hnames hx hy hxy hxfit hyfit hd he hxd hye hsegment
  · exact .inr hsizeless

/-- An address in the place of a number of its size, between two other numbers. -/
def narrowAddress : Session :=
  sessionOf "module m; int y = 3; ulong u = cast(ulong)&y; int z = 5;"

theorem globals_apart_address :
    ∃ em, narrowAddress.emit.1 = .ok em ∧
      ∀ x ∈ narrowAddress.program.emittedGlobals, ∃ d ∈ em.file.defined,
        d.offset.toNat + narrowAddress.program.extent x ≤
          (em.file.segment d.segment).length := by
  obtain ⟨em, hem, hfits, hids, hnames, hfit⟩ : ∃ em, narrowAddress.emit.1 = .ok em ∧
      Fits narrowAddress.program ∧ UnreservedIds narrowAddress.program ∧
      (narrowAddress.program.emittedGlobals.map (objectName narrowAddress.program)).Nodup ∧
      ∀ x ∈ narrowAddress.program.emittedGlobals,
        narrowAddress.program.AddressesFit (narrowAddress.program.globalDescription x).parts := by
    apply exists_ok_of_check
    decide +kernel
  rcases globals_apart narrowAddress (assembly_sessionOf _) hfits hids.unreserved.variablesNamed
    hnames with ⟨em', hem', hdefined, hapart⟩ | ⟨e, herror, -⟩
  · obtain rfl : em = em' := Except.ok.inj (hem.symm.trans hem')
    refine ⟨em, hem, fun x hx => ?_⟩
    obtain ⟨d, hd, hxd⟩ := hdefined x hx
    exact ⟨d, hd, (hapart x hx (hfit x hx) d hd hxd).1⟩
  · exact absurd (hem.symm.trans herror) nofun

/-- The address has eight bytes, and the value in whose place it is has sixteen. -/
def wideAddress : Session :=
  sessionOf "module m; int y = 3; real r = cast(ulong)&y; int z = 5;"

/-- The next variable is within the sixteen bytes. -/
theorem globals_overlap :
    ∃ em, wideAddress.emit.1 = .ok em ∧ wideAddress.program.log.errors = 0 ∧
      wideAddress.program.emittedGlobals.map wideAddress.program.extent = [4, 16, 4] ∧
      em.file.defined = [⟨"m.y", .data, 0, true⟩, ⟨"m.r", .data, 4, true⟩,
        ⟨"m.z", .data, 12, true⟩] ∧
      (em.file.segment .data).length = 16 := by
  apply exists_ok_of_check
  decide +kernel

/-! ## Closed files -/

namespace ObjectFile

/-- What a relocation refers to is there, or is left to other files. -/
def Reaches (f : ObjectFile) : RelocationTarget → Prop
  | .symbol name => f.Knows name
  | .place g offset => offset.toNat ≤ (f.segment g).length

instance (f : ObjectFile) : DecidablePred f.Reaches
  | .symbol name => inferInstanceAs (Decidable (f.Knows name))
  | .place g offset => inferInstanceAs (Decidable (offset.toNat ≤ (f.segment g).length))

def Closed (f : ObjectFile) : Prop := ∀ r ∈ f.relocations, f.Reaches r.target

instance (f : ObjectFile) : Decidable f.Closed :=
  inferInstanceAs (Decidable (∀ r ∈ f.relocations, f.Reaches r.target))

end ObjectFile

namespace Emission

variable {p : Program} {qs : List Placement} {f : ObjectFile}

theorem Emitted.mem_addressed (hf : Emitted p qs f) {s : SymbolId} :
    s ∈ p.addressed ↔ ∃ q ∈ qs, s ∈ q.item.addresses := by
  rw [Program.addressed, ← hf.items]
  simp

/-- A relocation is for a name that the file knows, or for an address in the data. -/
theorem Emitted.target (hf : Emitted p qs f) {r : Relocation} (hr : r ∈ f.relocations) :
    ∃ name, r.target = .symbol name ∧
      (f.Knows name ∨ ∃ s ∈ p.addressed, name = objectName p s) := by
  obtain ⟨f0, hholds, hadded⟩ := hf.data
  obtain ⟨rs, hrelocations, htargets⟩ := hadded.relocations
  rw [hrelocations] at hr
  rcases mem_append.mp hr with hr | hr
  · obtain ⟨name, htarget, hname | ⟨q, hq, s, hs, hname⟩⟩ := hholds.refers.target r hr
    · obtain ⟨defs, hdefined, -, -⟩ := hadded.defined
      refine ⟨name, htarget, .inl (.inl ?_)⟩
      rw [hdefined, map_append]
      exact mem_append_left _ hname
    · exact ⟨name, htarget, .inr ⟨s, hf.mem_addressed.mpr ⟨q, hq, hs⟩, hname⟩⟩
  · obtain ⟨name, htarget, hname⟩ := htargets r hr
    exact ⟨name, htarget, .inl hname⟩

theorem Emitted.exists_relocation (hf : Emitted p qs f) {s : SymbolId} (hs : s ∈ p.addressed) :
    ∃ r ∈ f.relocations, r.target = .symbol (objectName p s) := by
  obtain ⟨f0, hholds, hadded⟩ := hf.data
  obtain ⟨rs, hrelocations, -⟩ := hadded.relocations
  obtain ⟨q, hq, hs⟩ := hf.mem_addressed.mp hs
  obtain ⟨r, hr, htarget⟩ := hholds.refers.covers q hq s hs
  rw [hrelocations]
  exact ⟨r, mem_append_left _ hr, htarget⟩

theorem Emitted.closed_iff_knows (hf : Emitted p qs f) :
    f.Closed ↔ ∀ s ∈ p.addressed, f.Knows (objectName p s) := by
  constructor
  · intro hclosed s hs
    obtain ⟨r, hr, htarget⟩ := hf.exists_relocation hs
    have hreaches := hclosed r hr
    rwa [htarget] at hreaches
  · intro hknows r hr
    obtain ⟨name, htarget, hname | ⟨s, hs, rfl⟩⟩ := hf.target hr
    · rw [htarget]
      exact hname
    · rw [htarget]
      exact hknows s hs

end Emission

open Emission

/-- **An emitted file is closed exactly if each symbol whose address is in the data is defined or
called.** All relocations are for names, and the names of all calls are known. -/
theorem closed_iff (s : Session) {size : Nat} (hfresh : s.assembly = .empty size)
    (hfits : Fits s.program) (hvars : VariablesNamed s.program) :
    (∃ em, s.emit.1 = .ok em ∧
      (∀ r ∈ em.file.relocations, ∃ name, r.target = .symbol name) ∧
      (∀ name ∈ names s.program.code, em.file.Knows name) ∧
      (em.file.Closed ↔ ∀ x ∈ s.program.addressed,
        objectName s.program x ∈ em.file.defined.map (·.name) ∨
          objectName s.program x ∈ names s.program.code)) ∨ EndsSizeless s := by
  rcases session_emits s hfresh hfits hvars with ⟨em, qs, hem, hf⟩ | hsizeless
  · refine .inl ⟨em, hem, fun r hr => ?_, fun name hname => (hf.knows name).mpr (.inr hname), ?_⟩
    · obtain ⟨name, htarget, -⟩ := hf.target hr
      exact ⟨name, htarget⟩
    · rw [hf.closed_iff_knows]
      exact forall₂_congr fun x _ => hf.knows _
  · exact .inr hsizeless

/-- The function is declared only, but there is a call to it besides its address. -/
def calledElsewhere : Session :=
  sessionOf "module m; extern(C) void tick(); auto p = &tick; void f() { tick(); }"

theorem closed_of_called :
    ∃ em, calledElsewhere.emit.1 = .ok em ∧ em.file.Closed := by
  obtain ⟨em, hem, hfits, hids, hcalled⟩ : ∃ em, calledElsewhere.emit.1 = .ok em ∧
      Fits calledElsewhere.program ∧ UnreservedIds calledElsewhere.program ∧
      ∀ x ∈ calledElsewhere.program.addressed,
        objectName calledElsewhere.program x ∈ names calledElsewhere.program.code := by
    apply exists_ok_of_check
    decide +kernel
  rcases closed_iff calledElsewhere (assembly_sessionOf _) hfits hids.unreserved.variablesNamed with
    ⟨em', hem', -, -, hclosed⟩ | ⟨e, herror, -⟩
  · obtain rfl : em = em' := Except.ok.inj (hem.symm.trans hem')
    exact ⟨em, hem, hclosed.mpr fun x hx => .inr (hcalled x hx)⟩
  · exact absurd (hem.symm.trans herror) nofun

/-- Without a call. -/
def namedElsewhere : Session := sessionOf "module m; extern(C) void tick(); auto p = &tick;"

/-- The address refers to a name that the file neither defines nor leaves to others. -/
theorem address_of_declared :
    ∃ em, namedElsewhere.emit.1 = .ok em ∧ namedElsewhere.program.log.errors = 0 ∧
      em.file.relocations = [⟨.data, 0, .symbol "tick", 0, 8, false⟩] ∧
      em.file.defined.map (·.name) = ["m.p"] ∧ em.file.externals = [] ∧ ¬ em.file.Closed := by
  apply exists_ok_of_check
  decide +kernel

/-! ## Pools -/

namespace Program

/-- Each type of a program has a size: none contains itself, and each size is a word. -/
def AllSized (p : Program) : Prop :=
  ∀ i < p.types.size, (p.types.byteSize p.symbols p.pointerSize ⟨i⟩).isOk

instance (p : Program) : Decidable p.AllSized := inferInstanceAs (Decidable (∀ i < _, _))

variable {p : Program}

/-- A number that stands for no type has the size of an error. -/
theorem AllSized.isOk_byteSize (hp : p.AllSized) (type : TypeId) :
    (p.types.byteSize p.symbols p.pointerSize type).isOk := by
  by_cases htype : type.index < p.types.size
  · exact hp type.index htype
  have hkind : p.types.kind type = .error := by
    rw [TypeTable.kind, Array.getElem?_eq_none (Nat.not_lt.mp htype)]
    rfl
  rw [TypeTable.byteSize, TypeTable.layoutWithin, TypeTable.layoutBy, hkind]
  rfl

end Program

/-- **Emitting a program of which each type has a size, and whose code and data fit, into a new
object file succeeds, and neither pool has a record left, no reference waits, and no symbol has
unwritten data.** -/
theorem emit_drains (s : Session) {size : Nat} (hfresh : s.assembly = .empty size)
    (hsized : s.program.AllSized) (hfits : Fits s.program) :
    ∃ em, s.emit.1 = .ok em ∧ Drained s.emit.2.assembly := by
  rcases emits_or_endsSizeless s hfresh hfits with ⟨em, hem, hemits⟩ | ⟨e, -, type, herror⟩
  · exact ⟨em, hem, hemits.drained⟩
  · exact absurd (herror ▸ hsized.isOk_byteSize type) nofun

/-- Arrays in arrays, copies of a value, addresses of variables, and calls. -/
def nestedData : Session := sessionOf ("module m; int g; int*[2] p = [&g, &g]; " ++
  "int[][] a = [[1], [2]]; int[3] t = 7; void f() { f(); h(); } void h();")

theorem emit_drainsNested : nestedData.program.log.errors = 0 ∧
    ∃ em, nestedData.emit.1 = .ok em ∧ Drained nestedData.emit.2.assembly := by
  have hcheck : nestedData.program.log.errors = 0 ∧ nestedData.program.AllSized ∧
      Fits nestedData.program := by
    decide +kernel
  exact ⟨hcheck.1, emit_drains nestedData (assembly_sessionOf _) hcheck.2.1 hcheck.2.2⟩

end DCompiler
