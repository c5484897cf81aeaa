import DCompiler.Proofs.Emission.Placement

/-!
# Writing the data of global variables

Each function that appends a value to a builder appends what the description of the value says
(`Describes`), and places the unnamed data of the value on the way. The functions for array literals
and repeated values are given the one for their elements, so what they append follows from what that
one does, and for values of all depths by induction.

All is said under a condition `calm`, which there is no need for to see that data ends without a
fault and that no record of it is left.

Main result: `emitGlobals_places`, which says that emitting global variables places their data items
in order.
-/

namespace DCompiler

open Cells Work Assemble ObjectSymbolTable List DataBuilder Datum

variable {q : DataPool} {own : Cells DataRecord} {new : List Placement} {id : ObjectSymbolId}
  {contents : DataBuilder} {s : SymbolId}

namespace Text

theorem littleEndian_add (width : Nat) (value : UInt64) :
    littleEndian (8 + width) value = littleEndian 8 value ++ replicate width 0 := by
  have hzero (i : Nat) : (value.toNat / 256 ^ (8 + i)).toUInt8 = 0 := by
    have hpow : 256 ^ 8 ≤ 256 ^ (8 + i) := Nat.pow_le_pow_right (by decide) (by omega)
    rw [Nat.div_eq_of_lt (Nat.lt_of_lt_of_le value.toNat_lt hpow)]
    rfl
  have hrange : List.range (8 + width) = List.range 8 ++ (List.range width).map (8 + ·) := range_add
  simp only [littleEndian, hrange, map_append, map_map, Function.comp_def, hzero]
  rw [map_const', length_range]

theorem littleEndian_min (size value : UInt64) :
    littleEndian (min size 8).toNat value ++ replicate (size - min size 8).toNat 0 =
      littleEndian size.toNat value := by
  show littleEndian (if size ≤ 8 then size else 8).toNat value ++
    replicate (size - if size ≤ 8 then size else 8).toNat 0 = _
  by_cases hle : size ≤ 8
  · rw [if_pos hle, UInt64.sub_self]
    exact append_nil _
  have hlt : 8 < size.toNat := by simpa [UInt64.le_iff_toNat_le] using hle
  have hrest : (size - 8).toNat = size.toNat - 8 := UInt64.toNat_sub_of_le _ _ (by
    exact Nat.le_of_lt hlt)
  rw [if_neg hle, hrest]
  have hsum : size.toNat = 8 + (size.toNat - 8) := by omega
  rw [hsum, littleEndian_add, Nat.add_sub_cancel_left]
  rfl

theorem littleEndian_toUInt32 (value : UInt64) :
    littleEndian 4 value.toUInt32.toUInt64 = littleEndian 4 value := by
  refine map_congr_left fun i hi => ?_
  have hhalf : value.toUInt32.toUInt64.toNat = value.toNat % 2 ^ 32 := by simp
  refine UInt8.toNat_inj.mp ?_
  have hi := mem_range.mp hi
  obtain rfl | rfl | rfl | rfl : i = 0 ∨ i = 1 ∨ i = 2 ∨ i = 3 := by omega
  all_goals
    simp only [Nat.toUInt8, UInt8.toNat_ofNat']
    omega

end Text

namespace Emission

variable {E : Fault → Prop} {calm : Prop} {p : Program} {a a' a'' : Assembly}
  {b b' b'' : DataBuilder} {l m : Cells DataRecord} {qs : List Placement} {x : List Datum}
  {parts : List DataPart} {rs : List DataRecord} {d : Description} {n : Cells DataRecord}
  {c : Assembly} {describe : ExprId → Description} {t : ObjectSymbolTable}
  {data : DataBuilder → TypeId → ExprId → Assemble DataBuilder}

/-! ## Numbers -/

theorem scalarData_adds (hq : q.WF) (hb : Builds q b.chain l) (value size : UInt64) :
    (scalarData b value size).Gives E q fun b' u => ∃ m, Adds q b l
      (literal (Text.littleEndian size.toNat value)) [] u b' m := by
  unfold scalarData
  by_cases hfour : size = 4
  · rw [if_pos hfour, hfour]
    refine (number_adds hq hb 4 _).imp fun b' u ⟨m, hm⟩ => ⟨m, ?_⟩
    rwa [Text.littleEndian_toUInt32] at hm
  rw [if_neg hfour]
  by_cases hzero : value = 0
  · rw [if_pos hzero, hzero, Text.littleEndian_zero]
    exact zeros_adds hq hb size
  rw [if_neg hzero]
  refine .bind (bytes_adds hq hb _) fun result u ⟨m, hm⟩ => ?_
  refine (zeros_adds hm.wf hm.toBuilds _).imp fun b' v ⟨n, hn⟩ => ⟨n, ?_⟩
  have hadds := hm.trans hn
  rwa [← literal_append, Text.littleEndian_min] at hadds

/-! ## Steps -/

/-- No variable has the name of unnamed data. -/
def VariablesNamed (p : Program) : Prop :=
  ∀ s n, (p.symbols.var? s).isSome → objectName p s ≠ unnamedName n

/-- Unnamed data is told apart by its names, and there is room for its address. -/
structure Addressable (p : Program) : Prop where
  named : VariablesNamed p
  pointer : 0 < p.pointerSize

theorem Addressable.field (hp : Addressable p) (id : ObjectSymbolId) :
    field p.pointerSize (.symbol id) 0 =
      [.pointer p.pointerSize (.symbol id) 0] :=
  if_neg (Nat.pos_iff_ne_zero.mp hp.pointer)

abbrev AllSimple (p : Program) (t : ObjectSymbolTable) (rs : List DataRecord) : Prop :=
  ∀ r ∈ rs, Simple p.pointerSize t.size r

def globalNames (p : Program) : List String := p.emittedGlobals.map (objectName p)

/-- The assembly while data is written, with the placements so far. -/
structure Ready (calm : Prop) (p : Program) (qs : List Placement) (a : Assembly) : Prop where
  phase : DataPhase p.pointerSize (globalNames p) nothing a
  origins : calm → Origins p a.symbols
  holds : calm → Holds p qs a.file

theorem Ready.withPool (ha : Ready calm p qs a) (hq : q.WF) :
    Ready calm p qs { a with data := q } := { ha with phase := { ha.phase with pool := hq } }

/-- A builder with the records of described data. -/
structure Holding (p : Program) (a : Assembly) (b : DataBuilder) (l : Cells DataRecord) : Prop where
  builds : Builds a.data b.chain l
  simple : AllSimple p a.symbols (items l)
  pointerSize : b.pointerSize = p.pointerSize

/-- Data is appended to a builder with the cells `l` by work that owned the cells `own`, and unnamed
data is placed. -/
structure Appended (calm : Prop) (p : Program) (qs : List Placement) (a : Assembly)
    (own : Cells DataRecord) (b : DataBuilder) (l : Cells DataRecord) (d : Description)
    (b' : DataBuilder) (a' : Assembly) : Prop where
  ready : ∃ new, new.map (·.item) = d.besides.map (⟨none, ·⟩) ∧ Ready calm p (qs ++ new) a'
  grows : a.symbols.size ≤ a'.symbols.size
  keeps : calm → Keeps a.symbols a'.symbols
  data : ∃ m x rs, Built a.data own a'.data b'.chain m ∧ Lengthens b l x rs b' m ∧
    AllSimple p a'.symbols rs ∧ (calm → AllStand p a'.symbols d.parts x)

def besidesSize (p : Program) (d : Description) : Nat :=
  (d.besides.map (DataPart.total p.pointerSize)).sum

/-- Work that appends described data to any builder, if there is room for its unnamed data. -/
def Describes (calm : Prop) (p : Program) (d : Description)
    (data : DataBuilder → Assemble DataBuilder) : Prop :=
  ∀ a qs b l, Ready calm p qs a → Holding p a b l →
    (calm → (qs.map (·.length)).sum + besidesSize p d < 2 ^ 64) →
      (data b).Gives (Endless p) a fun b' a' => Appended calm p qs a l b l d b' a'

theorem Holding.lengthens (hb : Holding p a b l) (hbuilt : Built a.data own c.data b'.chain m)
    (hlonger : Lengthens b l x rs b' m) (hgrows : a.symbols.size ≤ c.symbols.size)
    (hrs : AllSimple p c.symbols rs) : Holding p c b' m where
  builds := hbuilt.toBuilds
  simple r hr := by
    rcases hlonger.origin r hr with hr | hr | hr
    · exact (hb.simple r hr).mono hgrows
    · exact hrs r hr
    · exact .inl hr
  pointerSize := hlonger.pointerSize_eq.trans hb.pointerSize

theorem Holding.framed {k : Cells DataRecord} (hb : Holding p a b l)
    (hframe : Cells.Frame a.data n c.data k) (hapart : ∀ h ∈ handles l, h ∉ handles n)
    (hgrows : a.symbols.size ≤ c.symbols.size) : Holding p c b l ∧ ∀ h ∈ handles l, h ∉ handles k :=
  ⟨⟨(hframe.builds hb.builds hapart).1, fun r hr => (hb.simple r hr).mono hgrows, hb.pointerSize⟩,
    (hframe.builds hb.builds hapart).2⟩

theorem appended_nil (ha : Ready calm p qs a) (hb : Holding p a b l) :
    Appended calm p qs a l b l ⟨[], []⟩ b a where
  ready := ⟨[], rfl, by simpa using ha⟩
  grows := .refl
  keeps _ := .refl _
  data := ⟨l, [], [], hb.builds.built ha.phase.pool,
    (adds_nil ha.phase.pool hb.builds []).toLengthens, nofun, fun _ => .nil⟩

theorem onData_appended {w : DataWork DataBuilder} {bs : List UInt8} (ha : Ready calm p qs a)
    (hw : w.Gives (Endless p) a.data fun b' q =>
      ∃ m, Adds a.data b l (literal bs) [] q b' m) :
    (onData w).Gives (Endless p) a fun b' a' =>
      Appended calm p qs a l b l ⟨DataPart.literal bs, []⟩ b' a' := by
  refine (onData_gives hw).imp ?_
  rintro b' _ ⟨q, ⟨m, hm⟩, rfl⟩
  exact ⟨⟨[], rfl, by simpa using ha.withPool hm.wf⟩, .refl, fun _ => .refl _, m, _, [],
    hm.toBuilt, hm.toLengthens, nofun, fun _ => allStand_literal p _ bs⟩

/-- Work goes on from what other work has left beside the builder. -/
theorem Appended.after {besides : List (List DataPart)}
    (hrest : Appended calm p (qs ++ new) a' own b l d b' a'')
    (hnew : new.map (·.item) = besides.map (⟨none, ·⟩)) (hframe : Cells.Frame a.data l a'.data own)
    (hgrows : a.symbols.size ≤ a'.symbols.size) (hkeeps : calm → Keeps a.symbols a'.symbols) :
    Appended calm p qs a l b l ⟨d.parts, besides ++ d.besides⟩ b' a'' := by
  obtain ⟨more, hmore, hready⟩ := hrest.ready
  obtain ⟨n, y, ss, hbuilt, hlonger, hss, hy⟩ := hrest.data
  exact ⟨⟨new ++ more, by simp [hnew, hmore], by simpa using hready⟩,
    Nat.le_trans hgrows hrest.grows, fun h => (hkeeps h).trans (hrest.keeps h), n, y, ss,
    hbuilt.after hframe, hlonger, hss, hy⟩

theorem Appended.append {d1 d2 : Description} (hnew : new.map (·.item) = d1.besides.map (⟨none, ·⟩))
    (hbuilt : Built a.data own a'.data b'.chain m) (hlonger : Lengthens b l x rs b' m)
    (hrs : AllSimple p a'.symbols rs)
    (hx : calm → AllStand p a'.symbols d1.parts x) (hgrows : a.symbols.size ≤ a'.symbols.size)
    (hkeeps : calm → Keeps a.symbols a'.symbols)
    (hrest : Appended calm p (qs ++ new) a' m b' m d2 b'' a'') :
    Appended calm p qs a own b l ⟨d1.parts ++ d2.parts, d1.besides ++ d2.besides⟩ b'' a'' := by
  obtain ⟨more, hmore, hready⟩ := hrest.ready
  obtain ⟨n, y, ss, hbuilt', hlonger', hss, hy⟩ := hrest.data
  refine ⟨⟨new ++ more, by simp [hnew, hmore], by simpa using hready⟩,
    Nat.le_trans hgrows hrest.grows, fun h => (hkeeps h).trans (hrest.keeps h), n, x ++ y, rs ++ ss,
    hbuilt'.after hbuilt.frame, hlonger.trans hlonger',
    fun r hr => ?_, fun h => rel_append ((hx h).mono (hrest.keeps h)) (hy h)⟩
  rcases mem_append.mp hr with hr | hr
  · exact (hrs r hr).mono hrest.grows
  · exact hss r hr

theorem sum_length_le (hlong : ∀ q ∈ qs, q.length ≤ p.room q.item) :
    (qs.map (·.length)).sum ≤ ((qs.map (·.item)).map p.room).sum := by
  induction qs with
  | nil => exact .refl
  | cons q qs ih =>
    have hq := hlong q mem_cons_self
    have hqs := ih fun r hr => hlong r (mem_cons_of_mem _ hr)
    simp only [map_cons, sum_cons]
    omega

theorem sum_room_besides (p : Program) (d : Description) :
    ((d.besides.map (⟨none, ·⟩)).map p.room).sum = besidesSize p d := by
  rw [besidesSize, map_map]
  congr 2
  funext parts
  exact Nat.max_eq_left (Nat.zero_le _)

theorem Ready.sum_new (ha : Ready calm p (qs ++ new) a) (hcalm : calm)
    (hnew : new.map (·.item) = d.besides.map (⟨none, ·⟩)) :
    (new.map (·.length)).sum ≤ besidesSize p d := by
  rw [← sum_room_besides, ← hnew]
  exact sum_length_le fun q hq => ((ha.holds hcalm).placed.long q (mem_append_right _ hq)).2

theorem eachData_describes {data : DataBuilder → ExprId → Assemble DataBuilder}
    (hdata : ∀ e, Describes calm p (describe e) (data · e)) (es : List ExprId) :
    Describes calm p (.join (es.map describe)) (eachData data · es) := by
  induction es with
  | nil => exact fun a qs b l ha hb _ => .pure (appended_nil ha hb)
  | cons e es ih =>
    intro a qs b l ha hb hfits
    have hsum : besidesSize p (.join ((e :: es).map describe)) =
        besidesSize p (describe e) + besidesSize p (.join (es.map describe)) := by
      simp [besidesSize, Description.join]
    refine .bind (hdata e a qs b l ha hb fun h => by have := hfits h; omega) fun b' a' hstep => ?_
    obtain ⟨new, hnew, hready⟩ := hstep.ready
    obtain ⟨m, x, rs, hbuilt, hlonger, hrs, hx⟩ := hstep.data
    refine (ih a' (qs ++ new) b' m hready (hb.lengthens hbuilt hlonger hstep.grows hrs)
      fun hcalm => ?_).imp fun b'' a'' hrest =>
        .append hnew hbuilt hlonger hrs hx hstep.grows hstep.keeps hrest
    have hused := hready.sum_new hcalm hnew
    have hfits := hfits hcalm
    rw [map_append, sum_append]
    omega

/-! ## Placing unnamed data -/

theorem writeData_ready {pending : ObjectSymbolId → Prop} {s : ObjectSymbol} {c : Chain}
    (hp : calm → Addressable p) (item : DataItem)
    (hphase : DataPhase p.pointerSize (globalNames p) pending a)
    (hpending : ∀ i, i ≠ id → ¬ pending i) (horigins : calm → Origins p a.symbols)
    (hholds : calm → Holds p qs a.file) (hs : a.symbols.get? id = some s)
    (hl : Spans a.data c l) (hsimple : AllSimple p a.symbols (items l))
    (hstand : calm → AllStand p a.symbols item.parts (Data.contents (items l)))
    (hname : DataName (globalNames p) s.name)
    (hnamed : (placementIn a.file item (items l) s).Named p)
    (hfresh : calm → Unreserved p → item.symbol = none → s.name ∉ a.file.defined.map (·.name))
    (hsize : calm → s.size.toNat ≤ p.room item)
    (hfits : calm → (qs.map (·.length)).sum + p.room item < 2 ^ 64) :
    (writeData id).Gives E
        { a with symbols := a.symbols.modify id fun sym => { sym with data := c } } fun _ b =>
      Ready calm p (qs ++ [placementIn a.file item (items l) s]) b ∧
      b.symbols.size = a.symbols.size ∧ Cells.Frame a.data l b.data [] ∧
      (calm → Keeps a.symbols b.symbols ∧ ∃ r, b.symbols.get? id = some r ∧ r.isDefined) := by
  have hset : (a.symbols.modify id fun sym => { sym with data := c }).get? id =
      some { s with data := c } := by
    rw [get?_modify, if_pos rfl, hs]
    rfl
  have hkeeps : Keeps a.symbols (a.symbols.modify id fun sym => { sym with data := c }) :=
    keeps_modify id (fun _ => rfl) fun _ h => h
  have horigins (h : calm) : Origins p (a.symbols.modify id fun sym => { sym with data := c }) :=
    (horigins h).modify id fun _ => ⟨rfl, rfl⟩
  have hphase := hphase.attach hs hpending c
  unfold AllSimple at hsimple
  rw [← size_modify a.symbols id fun sym => { sym with data := c }] at hsimple ⊢
  generalize a.symbols.modify id (fun sym => { sym with data := c }) = t at *
  have hgives := writeData_gives (E := E) hphase hset hname hl (fun r hr => (hsimple r hr).safe)
    fun _ hi hid => hi hid
  by_cases hcalm : calm
  · replace hstand := (hstand hcalm).mono hkeeps
    replace hholds := hholds hcalm
    replace hsize := hsize hcalm
    replace hfits := hfits hcalm
    have htotal : total (Data.contents (items l)) ≤ p.room item := by
      rw [hstand.total]
      exact Nat.le_max_left _ _
    have hroom : total (Data.contents (items l)) + Data.padding s (items l) ≤ p.room item := by
      unfold Data.padding
      split <;> omega
    have hsegment := hholds.placed.length_le (items l)
    have hspace : Room a.file s (items l) :=
      ⟨by omega, by rw [hholds.placed.constData, copies_of_simple hsimple]; decide,
        fun x hx => by rw [reference_of_mem_layOut hsimple hx]; decide⟩
    obtain ⟨_, b, hrun, hb⟩ := (writeData_gains hphase.pool hset hl
      (fun r hr => (hsimple r hr).writable)
      (fun r hr => (hsimple r hr).fitsPointer hphase.file.pointerSize_eq)
      ⟨hspace.segment, hspace.constData, hspace.references⟩).run
    obtain ⟨hnext, hcount, hframe⟩ := hgives.of_ok hrun
    have hplaced : ∀ i r, t.get? i = some r → r.isDefined →
        r.name ∈ a.file.defined.map (·.name) := fun i r hr hdefined => by
      obtain ⟨g, hg⟩ := Option.isSome_iff_exists.mp hdefined
      obtain ⟨d, hd, hdname, -⟩ := (hphase.symbols.sound i r hr).placed g hg
      exact mem_map.mpr ⟨d, hd, hdname⟩
    have hself := hb.symbols.self
    refine .of_run hrun ⟨⟨hnext, fun _ i r hr => ?_, fun _ => ?_⟩, hcount, hframe,
      fun _ => ⟨hkeeps.trans fun i r hr => ?_, _, hself, rfl⟩⟩
    · rw [hb.symbols i] at hr
      split at hr
      · next hi =>
        obtain rfl := Option.some.inj hr
        exact hi ▸ horigins hcalm id { s with data := c } hset
      · exact horigins hcalm i r hr
    · exact Holds.add (a := { a with symbols := t }) (s := { s with data := c }) hholds
        (hp hcalm).pointer hb.file hsimple hstand hplaced hnamed (hfresh hcalm) hroom (by omega)
    · rw [hb.symbols i]
      split
      · next hi =>
        obtain rfl := Option.some.inj (hset.symm.trans (hi ▸ hr))
        exact ⟨_, rfl, rfl, fun _ => rfl⟩
      · exact ⟨r, hr, rfl, fun h => h⟩
  · refine hgives.imp fun _ b ⟨hnext, hcount, hframe⟩ => ⟨⟨hnext, ?_, ?_⟩, hcount, hframe, ?_⟩ <;>
      exact fun h => absurd h hcalm

/-- The symbol for unnamed data is a new one, or one of its name without a size. -/
theorem internal_cases (hp : Addressable p) (ha : Origins p a.symbols)
    (hsound : a.symbols.Sound a.file.defined nothing) {size : UInt64}
    (hinternal : a.symbols.internal "__dtoff" size = (id, t)) :
    Origins p t ∧ ∃ s, t.get? id = some s ∧ s.name = unnamedName a.symbols.size ∧
      s.size.toNat ≤ size.toNat ∧ (Unreserved p → s.name ∉ a.file.defined.map (·.name)) := by
  have hdeclare : a.symbols.declare (unnamedName a.symbols.size) .static size = (id, t) := hinternal
  have horigins : Origins p t := by
    have ht : t = (a.symbols.declare (unnamedName a.symbols.size) .static size).2 := by
      rw [hdeclare]
    rw [ht]
    exact ha.declare fun s hname _ => .inr hname
  refine ⟨horigins, ?_⟩
  rcases declare_cases a.symbols (unnamedName a.symbols.size) .static size with
    ⟨id', s, hfound, hs, hname⟩ | ⟨s, u, hmade, hfresh, hsize, -, hu, hother⟩
  · -- the name is taken, but not by a variable
    obtain ⟨rfl, rfl⟩ := Prod.mk.inj (hdeclare.symm.trans hfound)
    rcases ha id s hs with ⟨sym, hsym, hsize⟩ | hnumber
    · have hvar : p.symbols.var? sym = none := by
        by_contra hne
        exact hp.named sym _ (Option.isSome_iff_ne_none.mpr hne) (hsym.symm.trans hname)
      have hzero : s.size = 0 := by
        rw [hsize, Program.objectSize, hvar]
        split <;> rfl
      refine ⟨s, hs, hname, by simp [hzero], fun hun => ?_⟩
      exact absurd (hsym.symm.trans hname) (hun sym _)
    · have hlt : id.index < a.symbols.size := lt_size_iff.mpr ⟨s, hs⟩
      have heq := unnamedName_inj (hname.symm.trans hnumber)
      omega
  · obtain ⟨rfl, rfl⟩ := Prod.mk.inj (hdeclare.symm.trans hmade)
    refine ⟨s, by rw [hu, if_pos rfl], hfresh.name_eq, Nat.le_of_eq (by rw [hsize]),
      fun _ hmem => ?_⟩
    obtain ⟨d, hd, hdname⟩ := mem_map.mp hmem
    obtain ⟨i, r, hr, hrname, -⟩ := hsound.backed d hd
    exact hother i r hr (hrname.trans (hdname.trans hfresh.name_eq))

/-- A chain of data gets a symbol of its own, and its address is appended. -/
theorem dataAddress_appended {c : Chain} (hp : calm → Addressable p) (ha : Ready calm p qs a)
    (hb : Holding p a b l) (hc : Spans a.data c m) (hsimple : AllSimple p a.symbols (items m))
    (hstand : calm → AllStand p a.symbols parts (Data.contents (items m)))
    (hapart : ∀ h ∈ handles l, h ∉ handles m) (hfits : calm →
      (qs.map (·.length)).sum + DataPart.total p.pointerSize parts < 2 ^ 64) :
    (dataAddress b c 0).Gives (Endless p) a fun result a' =>
      Appended calm p qs a (l ++ m) b l ⟨[.unnamed], [parts]⟩ result.2 a' := by
  have hsize : (onData (Data.size c)).run a = (.ok (Data.sizeOf (items m)), a) :=
    onData_run (by rw [Data.size, run_bind (items_run ha.phase.pool hc), run_pure])
  -- the symbol for the data
  rcases hinternal : a.symbols.internal "__dtoff" (Data.sizeOf (items m)) with ⟨id, t⟩
  have hrun : (internal "__dtoff" (Data.sizeOf (items m))).run a =
      (.ok id, { a with symbols := t }) := by
    rw [Assemble.internal, run_modifyGet, hinternal]
  have hdeclares : a.symbols.Declares (unnamedName a.symbols.size) .static id t := by
    have h := declare_declares a.symbols (unnamedName a.symbols.size) .static
      (Data.sizeOf (items m))
    rwa [show a.symbols.declare (unnamedName a.symbols.size) .static (Data.sizeOf (items m)) =
      (id, t) from hinternal] at h
  obtain ⟨s, hs, hname⟩ := hdeclares.named
  have hcases (hcalm : calm) : Origins p t ∧
      s.size.toNat ≤ DataPart.total p.pointerSize parts ∧
        (Unreserved p → s.name ∉ a.file.defined.map (·.name)) := by
    obtain ⟨horigins, r, hr, -, hsmall, hfresh⟩ :=
      internal_cases (hp hcalm) (ha.origins hcalm) ha.phase.symbols hinternal
    obtain rfl := Option.some.inj (hs.symm.trans hr)
    have htotal := (hstand hcalm).total
    have hfits := hfits hcalm
    rw [Data.toNat_sizeOf (by omega), htotal] at hsmall
    exact ⟨horigins, hsmall, hfresh⟩
  have hphase : DataPhase p.pointerSize (globalNames p) (· = id)
      { a with symbols := t } :=
    { ha.phase with symbols := hdeclares.sound ha.phase.symbols (fun _ => rfl) fun _ hi => hi.elim }
  have hkeeps := keeps_of_declares hdeclares
  refine .after hsize (.after hrun (.after (modifySymbol_run hs _) ?_))
  -- the data is placed
  have hroom : p.room ⟨none, parts⟩ = DataPart.total p.pointerSize parts :=
    Nat.max_eq_left (Nat.zero_le _)
  refine .bind (writeData_ready hp ⟨none, parts⟩ hphase (fun i hi hid => hi hid)
    (fun h => (hcases h).1) ha.holds hs hc (fun r hr => (hsimple r hr).mono hdeclares.grows)
    (fun h => (hstand h).mono hkeeps) (.inr ⟨_, hname⟩) ⟨_, hname⟩
    (fun h hun _ => (hcases h).2.2 hun) (fun h => hroom ▸ (hcases h).2.1) (hroom ▸ hfits)) ?_
  rintro _ a1 ⟨hready, hcount, hframe, hplaced⟩
  have hgrows1 : a.symbols.size ≤ a1.symbols.size := hcount ▸ hdeclares.grows
  obtain ⟨hb1, -⟩ := hb.framed hframe hapart hgrows1
  have hframe1 : Cells.Frame a.data (l ++ m) a1.data l := by simpa using hframe.keep_left l
  -- and its address is appended
  have hid : id.index < a1.symbols.size := hcount ▸ lt_size_iff.mpr ⟨_, hs⟩
  refine .bind (onData_gives (address_adds hready.phase.pool hb1.builds id 0)) ?_
  rintro result _ ⟨q, ⟨n, hn⟩, rfl⟩
  rw [hb1.pointerSize] at hn
  refine .pure ⟨⟨[_], rfl, hready.withPool hn.wf⟩, hgrows1, fun h => hkeeps.trans (hplaced h).1, n,
    _, _, hn.toBuilt.after hframe1, hn.toLengthens, fun x hx => ?_,
    fun h => ?_⟩
  · rw [mem_singleton.mp hx]
    exact .inr ⟨id, hid, rfl⟩
  obtain ⟨-, r, hr, hdefined⟩ := hplaced h
  rw [(hp h).field id]
  exact .cons ⟨id, r, rfl, hr, hdefined⟩ .nil

/-! ## Array literals -/

/-- The elements of an array literal: described data in a builder of its own. -/
structure Elements (calm : Prop) (p : Program) (a : Assembly) (contents : DataBuilder)
    (m : Cells DataRecord) (parts : List DataPart) : Prop where
  holding : Holding p a contents m
  stand : ∃ x, (calm → AllStand p a.symbols parts x) ∧
    (total x < 2 ^ 64 → Data.contents (items m) = x)

/-- A dynamic array is its length and the address of its elements. -/
theorem arrayData_dynamic (hp : calm → Addressable p) (ha : Ready calm p qs a)
    (hb : Holding p a b l) (hm : Elements calm p a contents m parts)
    (hapart : ∀ h ∈ handles l, h ∉ handles m) (hfits : calm →
      (qs.map (·.length)).sum + DataPart.total p.pointerSize parts < 2 ^ 64)
    (count : Nat) (size : UInt64) :
    (arrayData b contents true count size).Gives (Endless p) a fun b' a' =>
      Appended calm p qs a (l ++ m) b l
        ⟨DataPart.literal (Text.littleEndian p.pointerSize count.toUInt64) ++ [.unnamed],
          [parts]⟩ b' a' := by
  unfold arrayData
  refine .bind (onData_gives (finish_merges ha.phase.pool hm.holding.builds)) ?_
  rintro chain _ ⟨q, ⟨n, hn⟩, rfl⟩
  have hstand (hcalm : calm) : AllStand p a.symbols parts (Data.contents (items n)) := by
    have hfits := hfits hcalm
    obtain ⟨x, hx, hcontent⟩ := hm.stand
    have hstand := hx hcalm
    rw [← hcontent (by rw [hstand.total]; omega)] at hstand
    rw [hn.content (by rw [hstand.total]; omega)]
    exact hstand
  have hsimple : AllSimple p a.symbols (items n) := fun r hr =>
    (hn.origin r hr).elim (hm.holding.simple r) .inl
  obtain ⟨hb1, hapart1⟩ := hb.framed (c := { a with data := q }) hn.frame hapart .refl
  refine .bind (onData_gives (a := { a with data := q })
    (number_adds hn.wf hb1.builds _ _)) ?_
  rintro b2 _ ⟨u, ⟨k, hk⟩, rfl⟩
  rw [hb1.pointerSize] at hk
  have hb2 := hb1.lengthens (c := { a with data := u }) hk.toBuilt hk.toLengthens
    .refl nofun
  obtain ⟨hn2, hapart2⟩ := hk.frame.spans hn.spans fun h hh hl => hapart1 h hl hh
  have hframe := (hn.frame.keep_left l).trans (hk.frame.keep_right n)
  refine .bind (dataAddress_appended (a := { a with data := u }) hp
    (ha.withPool hk.wf) hb2 hn2 hsimple hstand
    (fun h hl hh => hapart2 h hh hl) hfits) fun result a' hstep => .pure ?_
  obtain ⟨new, hnew, hready⟩ := hstep.ready
  obtain ⟨j, y, ss, hbuilt, hlonger, hss, hy⟩ := hstep.data
  exact ⟨⟨new, hnew, hready⟩, hstep.grows, hstep.keeps, j, _, _,
    hbuilt.after hframe, hk.toLengthens.trans hlonger,
    by simpa using hss, fun h => rel_append (allStand_literal p _ _) (hy h)⟩

/-- Any other array is its elements, with zeros up to its size. -/
theorem arrayData_static (ha : Ready calm p qs a) (hb : Holding p a b l)
    (hm : Elements calm p a contents m parts) (hapart : ∀ h ∈ handles l, h ∉ handles m)
    (count : Nat) (size : UInt64) :
    (arrayData b contents false count size).Gives (Endless p) a fun b' a' =>
      Appended calm p qs a (l ++ m) b l
        ⟨parts ++ DataPart.zeros (size.toNat - DataPart.total p.pointerSize parts), []⟩
          b' a' := by
  obtain ⟨x, hx, hcontent⟩ := hm.stand
  have hsize : (onData contents.size).run a = (.ok (Data.sizeOf (items m)), a) :=
    onData_run (by
      rw [DataBuilder.size, Data.size, run_bind (items_run ha.phase.pool hm.holding.builds.spans),
        run_pure])
  unfold arrayData
  refine .after hsize ?_
  refine .bind (onData_gives (append_adds ha.phase.pool hb.builds hm.holding.builds
    fun h hm hl => hapart h hl hm)) ?_
  rintro b1 _ ⟨q, hq, rfl⟩
  refine (onData_gives (a := { a with data := q }) (zeros_adds hq.wf hq.toBuilds _)).imp ?_
  rintro b2 _ ⟨u, ⟨n, hn⟩, rfl⟩
  refine ⟨⟨[], rfl, by simpa using ha.withPool hn.wf⟩, .refl, fun _ => .refl _, n,
    x ++ literal (replicate (size.toNat - total x) 0), items m,
    hn.toBuilt.after hq.frame,
    ⟨hn.pointerSize_eq.trans hq.pointerSize_eq, fun hfits => ?_, fun r hr => ?_⟩,
    hm.holding.simple, fun hcalm => ?_⟩
  · simp only [total_append, total_literal, length_replicate] at hfits
    have hxm := hcontent (by omega)
    have hused : (Data.sizeOf (items m)).toNat = total x := by
      rw [Data.toNat_sizeOf (by rw [hxm]; omega), hxm]
    have hrest : (if Data.sizeOf (items m) < size then size - Data.sizeOf (items m) else 0).toNat =
        size.toNat - total x := by
      rw [← hused]
      split
      · next hlt => exact UInt64.toNat_sub_of_le _ _ (UInt64.le_of_lt hlt)
      · next hle =>
        have hle := UInt64.le_iff_toNat_le.mp (UInt64.not_lt.mp hle)
        exact (Nat.sub_eq_zero_of_le hle).symm
    rw [hrest] at hn
    rw [hn.content]
    · simp [hxm]
    simp only [items_append, Data.contents_append, hxm, total_append, total_literal,
      length_replicate]
    omega
  · rcases hn.origin r hr with hr | hr | hr
    · rw [items_append] at hr
      exact (mem_append.mp hr).imp_right .inl
    · cases hr
    · exact .inr (.inr hr)
  · rw [(hx hcalm).total]
    exact rel_append (hx hcalm) (allStand_literal p _ _)

/-! ## Values -/

/-- What is left by work with a builder of its own, beside one that is kept. -/
structure Beside (calm : Prop) (p : Program) (qs : List Placement) (a : Assembly) (b : DataBuilder)
    (l : Cells DataRecord) (d : Description) (new : List Placement) (m : Cells DataRecord)
    (own : DataBuilder) (a' : Assembly) : Prop where
  items : new.map (·.item) = d.besides.map (⟨none, ·⟩)
  ready : Ready calm p (qs ++ new) a'
  grows : a.symbols.size ≤ a'.symbols.size
  keeps : calm → Keeps a.symbols a'.symbols
  kept : Holding p a' b l
  elements : Elements calm p a' own m d.parts
  apart : ∀ h ∈ handles l, h ∉ handles m
  frame : Cells.Frame a.data l a'.data (l ++ m)

theorem Describes.beside {data : DataBuilder → Assemble DataBuilder}
    (hdata : Describes calm p d data) (ha : Ready calm p qs a) (hb : Holding p a b l)
    (hfits : calm → (qs.map (·.length)).sum + besidesSize p d < 2 ^ 64) :
    (data (.empty p.pointerSize)).Gives (Endless p) a fun own a' =>
      ∃ new m, Beside calm p qs a b l d new m own a' := by
  have hempty : Holding p a (.empty p.pointerSize) [] := ⟨builds_empty _, nofun, rfl⟩
  refine (hdata a qs _ [] ha hempty hfits).imp fun own a' hstep => ?_
  obtain ⟨new, hnew, hready⟩ := hstep.ready
  obtain ⟨m, x, rs, hbuilt, hlonger, hrs, hx⟩ := hstep.data
  obtain ⟨hkept, hapart⟩ := hb.framed hbuilt.frame (fun _ _ => not_mem_nil) hstep.grows
  exact ⟨new, m, hnew, hready, hstep.grows, hstep.keeps, hkept,
    ⟨hempty.lengthens hbuilt hlonger hstep.grows hrs, x, hx, hlonger.content⟩, hapart,
    hbuilt.frame.beside l⟩

theorem arrayData_describes {data : DataBuilder → ExprId → Assemble DataBuilder}
    (hp : calm → Addressable p) (hdata : ∀ e, Describes calm p (describe e) (data · e))
    (type : TypeId) (elems : List ExprId) :
    Describes calm p (p.arrayDescription type elems.length (.join (elems.map describe)))
      (fun b => eachData data (.empty p.pointerSize) elems >>= fun contents =>
        arrayData b contents (match p.types.kind type with | .dynArray _ => true | _ => false)
          elems.length (p.sizeOf type)) := by
  intro a qs b l ha hb hfits
  generalize hjoin : Description.join (elems.map describe) = d at hfits ⊢
  have hbesides : besidesSize p d ≤ besidesSize p (p.arrayDescription type elems.length d) := by
    unfold Program.arrayDescription
    split <;> simp [besidesSize]
  refine .bind ((hjoin ▸ eachData_describes hdata elems).beside ha hb fun h =>
    Nat.lt_of_le_of_lt (Nat.add_le_add_left hbesides _) (hfits h)) ?_
  rintro own a1 ⟨new, m, hbeside⟩
  have hstatic : (arrayData b own false elems.length (p.sizeOf type)).Gives (Endless p) a1
      fun b' a' => Appended calm p qs a l b l ⟨d.parts ++ DataPart.zeros ((p.sizeOf type).toNat -
        DataPart.total p.pointerSize d.parts), d.besides⟩ b' a' := by
    refine (arrayData_static hbeside.ready hbeside.kept hbeside.elements hbeside.apart _ _).imp
      fun b' a' hstep => ?_
    have hafter := hstep.after hbeside.items hbeside.frame hbeside.grows hbeside.keeps
    rwa [append_nil] at hafter
  unfold Program.arrayDescription at hfits ⊢
  generalize p.types.kind type = kind at hfits ⊢
  cases kind with
  | dynArray elem =>
    refine (arrayData_dynamic hp hbeside.ready hbeside.kept hbeside.elements hbeside.apart
      (fun hcalm => ?_) _ _).imp fun b' a' hstep =>
        hstep.after hbeside.items hbeside.frame hbeside.grows hbeside.keeps
    have hused := hbeside.ready.sum_new hcalm hbeside.items
    have hfits := hfits hcalm
    simp only [besidesSize, map_append, sum_append, map_cons, map_nil,
      sum_cons, sum_nil] at hfits hused
    rw [map_append, sum_append]
    omega
  | _ => exact hstatic

theorem objectSymbol_ready (ha : Ready calm p qs a) (s : SymbolId) :
    (objectSymbol p s).Gives (Endless p) a fun id a' => ∃ t sym, a' = { a with symbols := t } ∧
      Ready calm p qs { a with symbols := t } ∧ a.symbols.size ≤ t.size ∧ Keeps a.symbols t ∧
        t.get? id = some sym ∧ sym.name = objectName p s := by
  refine (objectSymbol_gives p s a).imp ?_
  rintro id _ ⟨t, cls, hcls, hdeclares, horigins, rfl⟩
  obtain ⟨sym, hsym, hname⟩ := hdeclares.named
  exact ⟨t, sym, rfl, ⟨{ ha.phase with
    symbols := hdeclares.sound ha.phase.symbols (fun h => (hcls h).elim) fun _ hi => hi },
    fun h => horigins (ha.origins h), ha.holds⟩, hdeclares.grows, keeps_of_declares hdeclares,
    hsym, hname⟩

theorem addressData_describes (hp : calm → Addressable p) (type : TypeId) (target : SymbolId) :
    Describes calm p ⟨[.address type target], []⟩ (fun b =>
      objectSymbol p target >>= fun made => onData (b.address made 0) >>= fun result =>
        pure result.2) := by
  intro a qs b l ha hb _
  refine .bind (objectSymbol_ready ha target) ?_
  rintro id _ ⟨t, sym, rfl, hready, hgrows, hkeeps, hsym, hname⟩
  refine .bind (onData_gives (a := { a with symbols := t })
    (address_adds ha.phase.pool hb.builds id 0)) ?_
  rintro result _ ⟨q, ⟨m, hm⟩, rfl⟩
  rw [hb.pointerSize] at hm
  refine .pure ⟨⟨[], rfl, by simpa using hready.withPool hm.wf⟩, hgrows, fun _ => hkeeps, m, _, _,
    hm.toBuilt, hm.toLengthens, fun r hr => ?_, fun h => ?_⟩
  · rw [mem_singleton.mp hr]
    exact .inr ⟨id, lt_size_iff.mpr ⟨sym, hsym⟩, rfl⟩
  rw [(hp h).field id]
  refine .cons ⟨id, rfl, ?_⟩ .nil
  rw [name?, hsym]
  exact congrArg some hname

theorem plainData_describes {describe : TypeId → ExprId → Description} (hp : calm → Addressable p)
    (hdata : ∀ type e, Describes calm p (describe type e) (data · type e)) (type : TypeId)
    (e : ExprId) : Describes calm p (p.plainDescription describe type e)
      (plainData p data · type (p.sizeOf type) e) := by
  intro a qs b l ha hb hfits
  have hzero : (onData (b.zeros (p.sizeOf type))).Gives (Endless p) a fun b' a' =>
      Appended calm p qs a l b l ⟨DataPart.zeros (p.sizeOf type).toNat, []⟩ b' a' :=
    onData_appended ha (zeros_adds ha.phase.pool hb.builds _)
  unfold Program.plainDescription at hfits ⊢
  unfold plainData
  generalize p.exprs.kind e = kind at hfits ⊢
  cases kind with
  | integer value suffix =>
    exact onData_appended ha (scalarData_adds ha.phase.pool hb.builds _ _)
  | real value suffix =>
    exact onData_appended ha (scalarData_adds ha.phase.pool hb.builds _ _)
  | array elems =>
    exact arrayData_describes hp (hdata _) type elems a qs b l ha hb hfits
  | unary op operand =>
    cases op with
    | addressOf =>
      dsimp only at hfits ⊢
      generalize p.exprs.kind operand = kind at hfits ⊢
      cases kind with
      | symbolRef target => exact addressData_describes hp type target a qs b l ha hb hfits
      | _ => exact hzero
    | _ => exact hzero
  | _ => exact hzero

theorem repeatOnData {own : DataBuilder} (hpool : a.data.WF) (hb : Holding p a b l)
    (hown : Holding p a own m) (hapart : ∀ h ∈ handles l, h ∉ handles m)
    (hcontent : total x < 2 ^ 64 → Data.contents (items m) = x) (count : UInt64) :
    (do
      let chain ← own.finish
      let b ← b.repeatChain chain count
      ChainWork.release chain
      return b : DataWork DataBuilder).Gives E a.data fun b' q => ∃ n rs,
        Built a.data (l ++ m) q b'.chain n ∧ Lengthens b l (copies count.toNat x) rs b' n ∧
          AllSimple p a.symbols rs := by
  refine .bind (finish_merges hpool hown.builds) fun chain q ⟨k, hk⟩ => ?_
  have hsimple : AllSimple p a.symbols (items k) := fun r hr =>
    (hk.origin r hr).elim (hown.simple r) .inl
  obtain ⟨hb1, hapart1⟩ := hb.framed (c := { a with data := q }) hk.frame hapart .refl
  refine .bind (repeatChain_adds hk.wf hb1.builds hk.spans
    (fun r hr => (hsimple r hr).writable.isPlain) count) fun b' u ⟨n, hn⟩ => ?_
  obtain ⟨hk2, hapart2⟩ := hn.frame.spans hk.spans fun h hh hl => hapart1 h hl hh
  refine .bind (release_gives hn.wf hk2) fun _ v ⟨hv, hfreed⟩ => .pure ⟨n, items k, ?_, ?_, hsimple⟩
  · obtain ⟨hbuilds, -⟩ := hfreed.builds hn.toBuilds fun h hh hk => hapart2 h hk hh
    have hrest : Cells.Frame u (n ++ k) v n := by simpa using hfreed.keep_left n
    exact ⟨hbuilds, hv, ((hk.frame.keep_left l).trans (hn.frame.keep_right k)).trans hrest⟩
  refine (hn.of_eq fun hfits => ?_).toLengthens
  by_cases hcount : count = 0
  · rw [hcount]
    rfl
  have hfits := total_of_copies hcount hfits
  have hxm := hcontent hfits
  rw [hk.content (by rw [hxm]; exact hfits), hxm]

theorem repeatedData_describes {elem : TypeId} {e : ExprId}
    (hdata : Describes calm p d (data · elem e)) (count : UInt64) :
    Describes calm p (.copies count.toNat d) (repeatedData p data · elem count e) := by
  intro a qs b l ha hb hfits
  refine .bind (hdata.beside ha hb hfits) ?_
  rintro own a1 ⟨new, m, hbeside⟩
  obtain ⟨x, hx, hcontent⟩ := hbeside.elements.stand
  refine (onData_gives (repeatOnData hbeside.ready.phase.pool hbeside.kept hbeside.elements.holding
    hbeside.apart hcontent count)).imp ?_
  rintro b' _ ⟨q, ⟨n, rs, hbuilt, hlonger, hrs⟩, rfl⟩
  have hstep : Appended calm p (qs ++ new) a1 (l ++ m) b l ⟨_, []⟩ b' { a1 with data := q } :=
    ⟨⟨[], rfl, by simpa using hbeside.ready.withPool hbuilt.wf⟩, .refl, fun _ => .refl _, n, _,
      rs, hbuilt, hlonger, hrs, fun h => (hx h).copies count.toNat⟩
  have hafter := hstep.after hbeside.items hbeside.frame hbeside.grows hbeside.keeps
  rwa [append_nil] at hafter

/-- **Each value is written as it is described.** -/
theorem valueDataWithin_describes (hp : calm → Addressable p) (depth : Nat) (type : TypeId)
    (e : ExprId) :
    Describes calm p (p.descriptionWithin depth type e) (valueDataWithin p depth · type e) := by
  induction depth generalizing type e with
  | zero => exact fun a qs b l ha hb _ => .pure (appended_nil ha hb)
  | succ depth ih =>
    intro a qs b l ha hb hfits
    have hplain := plainData_describes hp ih type (p.belowCasts e) a qs b l ha hb
    refine .bind (sizeOf_gives p type a) ?_
    rintro size _ ⟨rfl, rfl⟩
    unfold Program.descriptionWithin at hfits ⊢
    generalize p.types.kind type = kind at hfits ⊢
    cases kind with
    | staticArray elem count =>
      dsimp only at hfits ⊢
      split
      · next harray =>
        rw [if_pos harray] at hfits
        exact hplain hfits
      · next harray =>
        rw [if_neg harray] at hfits
        exact repeatedData_describes (ih elem _) count _ qs b l ha hb hfits
    | _ => exact hplain hfits

theorem variableData_describes (hp : calm → Addressable p) (type : TypeId) (init : Option ExprId) :
    Describes calm p (p.description type init) (variableData p · type init) := by
  cases init with
  | some e => exact valueDataWithin_describes hp _ type e
  | none =>
    intro a qs b l ha hb _
    refine .bind (sizeOf_gives p type a) ?_
    rintro size _ ⟨rfl, rfl⟩
    exact onData_appended ha (zeros_adds ha.phase.pool hb.builds _)

/-! ## Variables -/

theorem isSome_var?_of_emitted (hs : s ∈ p.emittedGlobals) : (p.symbols.var? s).isSome := by
  obtain ⟨v, hv, -⟩ := (Option.any_eq_true _ _).mp (mem_filter.mp hs).2
  exact Option.isSome_iff_exists.mpr ⟨v, hv⟩

theorem size_le_room (hp : Addressable p) {sym : ObjectSymbol} (ht : Origins p t)
    (hsym : t.get? id = some sym) (hname : sym.name = objectName p s) (hs : s ∈ p.emittedGlobals)
    (parts : List DataPart) : sym.size.toNat ≤ p.room ⟨some s, parts⟩ := by
  refine Nat.le_trans ?_ (Nat.le_max_right _ _)
  rcases ht id sym hsym with ⟨other, hother, hsize⟩ | hnumber
  · show sym.size.toNat ≤ p.sizeUnder (objectName p s)
    rw [hsize, ← hname, hother]
    exact p.objectSize_le other
  · exact absurd (hname.symm.trans hnumber) (hp.named s _ (isSome_var?_of_emitted hs))

theorem resolve_nothing (ha : a.fixups = .empty) (id : ObjectSymbolId) :
    (resolve id).run a = (.ok ⟨⟩, a) := by
  rw [resolve, run_bind (run_get a), ha]
  rfl

/-- Emitting a global variable places its unnamed data, and then its own, and frees all records. -/
theorem emitGlobal_places (hp : calm → Addressable p) (ha : Ready calm p qs a)
    (hs : s ∈ p.emittedGlobals) (hfits : calm → (qs.map (·.length)).sum +
      (((p.globalDescription s).items (some s)).map p.room).sum < 2 ^ 64) :
    (emitGlobal p s).Gives (Endless p) a fun _ a' => a'.data.live = a.data.live ∧
      ∃ new, new.map (·.item) = (p.globalDescription s).items (some s) ∧
        Ready calm p (qs ++ new) a' := by
  have hdata := variableData_describes hp ((p.symbols.var? s).getD default).type
    ((p.symbols.var? s).getD default).init
  change Describes calm p (p.globalDescription s) _ at hdata
  generalize p.globalDescription s = d at hfits hdata ⊢
  simp only [Description.items, map_append, sum_append, sum_room_besides, map_cons,
    map_nil, sum_cons, sum_nil] at hfits
  have hempty : Holding p a (.empty p.pointerSize) [] := ⟨builds_empty _, nofun, rfl⟩
  refine .bind (hdata a qs _ [] ha hempty fun h => by have := hfits h; omega) fun b a1 hstep => ?_
  obtain ⟨new, hnew, hready⟩ := hstep.ready
  obtain ⟨l, x, rs, hbuilt, hlonger, hrs, hx⟩ := hstep.data
  have hb := hempty.lengthens hbuilt hlonger hstep.grows hrs
  have hcontent (hcalm : calm) : total x < 2 ^ 64 ∧ Data.contents (items l) = x := by
    have hroom : total x ≤ p.room ⟨some s, d.parts⟩ := by
      rw [(hx hcalm).total]
      exact Nat.le_max_left _ _
    have hfits := hfits hcalm
    have htotal : total x < 2 ^ 64 := by omega
    exact ⟨htotal, hlonger.content htotal⟩
  refine .bind (objectSymbol_ready hready s) ?_
  rintro id _ ⟨t, sym, rfl, hready2, hgrows, hkeeps, hsym, hname⟩
  refine .bind (onData_gives (a := { a1 with symbols := t })
    (finish_merges hready.phase.pool hb.builds)) ?_
  rintro chain _ ⟨q, ⟨m, hm⟩, rfl⟩
  have hready3 : Ready calm p (qs ++ new) { a1 with symbols := t, data := q } :=
    hready2.withPool hm.wf
  have hsimple : AllSimple p t (items m) := fun r hr =>
    (hm.origin r hr).elim (fun h => (hb.simple r h).mono hgrows) .inl
  have hstand (hcalm : calm) : AllStand p t d.parts (Data.contents (items m)) := by
    obtain ⟨htotal, hcontent⟩ := hcontent hcalm
    rw [hm.content (hcontent ▸ htotal), hcontent]
    exact (hx hcalm).mono hkeeps
  refine .after (modifySymbol_run (a := { a1 with symbols := t, data := q }) hsym _) ?_
  refine .bind (writeData_ready (a := { a1 with symbols := t, data := q }) hp ⟨some s, d.parts⟩
    hready3.phase (fun _ _ hi => hi) hready3.origins hready3.holds hsym hm.spans hsimple hstand
    (.inl (hname ▸ mem_map_of_mem hs)) hname (fun _ _ h => absurd h nofun)
    (fun h => size_le_room (hp h) (hready2.origins h) hsym hname hs d.parts) fun hcalm => ?_) ?_
  · have hused := hready.sum_new hcalm hnew
    have hfits := hfits hcalm
    rw [map_append, sum_append]
    omega
  rintro _ a5 ⟨hready5, hcount, hframe, -⟩
  obtain ⟨r, hr⟩ := lt_size_iff.mp (hcount ▸ lt_size_iff.mpr ⟨_, hsym⟩ : id.index < a5.symbols.size)
  refine .after (resolve_nothing hready5.phase.fixups id) (.after (symbol_run hr) (.pure ⟨?_, ?_⟩))
  · -- the records of the builder are those of the finished chain, and all of them are freed
    exact ((hbuilt.frame.trans hm.frame).trans hframe).live
  refine ⟨new ++ [_], ?_, by simpa using hready5⟩
  rw [map_append, hnew]
  rfl

/-- **Emitting global variables places their data in order.** -/
theorem emitGlobals_places (hp : calm → Addressable p) {symbols : List SymbolId}
    (hs : ∀ s ∈ symbols, s ∈ p.emittedGlobals) (ha : Ready calm p qs a)
    (hfits : calm → (qs.map (·.length)).sum + ((symbols.flatMap fun s =>
      (p.globalDescription s).items (some s)).map p.room).sum < 2 ^ 64) :
    (symbols.mapM (emitGlobal p)).Gives (Endless p) a fun _ a' => a'.data.live = a.data.live ∧
      ∃ new, new.map (·.item) = (symbols.flatMap fun s => (p.globalDescription s).items (some s)) ∧
        Ready calm p (qs ++ new) a' := by
  induction symbols generalizing a qs with
  | nil => exact .pure ⟨rfl, [], rfl, by simpa using ha⟩
  | cons s symbols ih =>
    simp only [flatMap_cons, map_append, sum_append] at hfits
    rw [mapM_cons]
    refine .bind (emitGlobal_places hp ha (hs s mem_cons_self) fun h => by
      have := hfits h
      omega) ?_
    rintro _ a1 ⟨hlive, new, hnew, hready⟩
    refine .bind (ih (fun s' hs' => hs s' (mem_cons_of_mem _ hs')) hready fun hcalm => ?_) ?_
    · have hused : (new.map (·.length)).sum ≤
          (((p.globalDescription s).items (some s)).map p.room).sum := by
        rw [← hnew]
        exact sum_length_le fun q hq =>
          ((hready.holds hcalm).placed.long q (mem_append_right _ hq)).2
      have hfits := hfits hcalm
      rw [map_append, sum_append]
      omega
    rintro _ a2 ⟨hlive2, more, hmore, hready2⟩
    refine .pure ⟨hlive2.trans hlive, new ++ more, ?_, by simpa using hready2⟩
    rw [map_append, hnew, hmore, flatMap_cons]

end Emission

end DCompiler
