import DCompiler.Proofs.Emission.Values
import DCompiler.Proofs.Object.Flush

/-!
# Emitting code

The code of a program is laid out as pieces (`Program.codePieces`): for each function its entry, a
call byte with a field for each call of its body, and its exit. Emitting the functions writes these
pieces one after the other, and keeps the code phase.
-/

namespace DCompiler

open Cells Work Piece Assemble List Opcode Program

variable {id : ObjectSymbolId} {i : Instruction} {position : UInt64} {builder : CodeBuilder}

/-! ## The layout of the code -/

namespace Program

def emittedFunctions (p : Program) : List SymbolId := p.symbols.ids.filter p.isEmittedFunction

def entry (p : Program) : List UInt8 :=
  0x55 :: (if p.pointerSize = 8 then [0x48] else []) ++ [0x8b, 0xec]

def exit : List UInt8 := [0x5d, 0xc3]

/-- The code of an event: a call is a byte and a field for the callee. -/
def eventPieces (p : Program) : Event → List Piece
  | .line _ => []
  | .call func => [.byte 0xe8, .field (p.linkName func)]

def functionPieces (p : Program) (s : SymbolId) : List Piece :=
  p.entry.map .byte ++ ((p.events s).flatMap p.eventPieces ++ exit.map .byte)

def codePieces (p : Program) (functions : List SymbolId) : List Piece :=
  functions.flatMap p.functionPieces

end Program

namespace Emission

variable {E : Fault → Prop} {calm : Prop} {ps qs : List Piece}
  {current : ObjectSymbolId → Prop} {f0 : ObjectFile} {defs : List Definition} {a b : Assembly}
  {p : Program} {t u : ObjectSymbolTable} {is js : List Instruction} {α : Type} {rs : List Piece}
  {func : SymbolId}

/-! ## Instructions as pieces -/

/-- Instructions whose encoding is the image of pieces. -/
inductive Codes (t : ObjectSymbolTable) : List Instruction → List Piece → Prop
  | nil : Codes t [] []
  | bytes {i : Instruction} {is : List Instruction} {ps : List Piece} :
    i.op &&& 0xff ≠ escape → i.operand2 = .none → Codes t is ps →
      Codes t (i :: is) ((encodedBytes i).map .byte ++ ps)
  | line {place : SourcePlace} {is : List Instruction} {ps : List Piece} :
    Codes t is ps → Codes t (.lineNumber place :: is) ps
  | call {id : ObjectSymbolId} {s : ObjectSymbol} {is : List Instruction} {ps : List Piece} :
    t.get? id = some s → Codes t is ps →
      Codes t (.withOperand call 0 .func (.symbol id 0) :: is)
        (.byte 0xe8 :: .field s.name :: ps)

theorem Codes.append (his : Codes t is ps) (hjs : Codes t js qs) :
    Codes t (is ++ js) (ps ++ qs) := by
  induction his with
  | nil => exact hjs
  | bytes hop hoperand _ ih =>
    rw [append_assoc]
    exact .bytes hop hoperand ih
  | line _ ih => exact .line ih
  | call hs _ ih => exact .call hs ih

theorem Codes.extends (hcodes : Codes t is ps) (htu : Extends t u) : Codes u is ps := by
  induction hcodes with
  | nil => exact .nil
  | bytes hop hoperand _ ih => exact .bytes hop hoperand ih
  | line _ ih => exact .line ih
  | call hs _ ih =>
    obtain ⟨r, hr, hname⟩ := htu _ _ hs
    exact hname ▸ .call hr ih

/-! ## Encoding -/

theorem encode_line_gives {place : SourcePlace} (hop : i.op = lineNumber)
    (hoperand : i.operand1 = .place place) (ha : CodePhase calm f0 ps current defs a)
    (position : UInt64) :
    (encode position i).Gives E a fun position' b => position' = position ∧
      CodePhase calm f0 ps current defs b ∧ b.symbols = a.symbols ∧ pools b = pools a := by
  unfold encode
  rw [if_pos (by rw [hop]; decide), hoperand]
  dsimp only
  rw [if_pos hop]
  refine .after (modifyFile_run _ a) (.pure ⟨rfl, ?_, rfl, rfl⟩)
  exact ha.write (ha.toBehind.line _ _) rfl rfl rfl
    (ha.near.write ha.near.short ⟨rfl, rfl, fun _ => .refl⟩ ha.near.length)
    fun _ fate hf => { hf with code := hf.code }

theorem write_bytes_phase (ha : CodePhase calm f0 ps current defs a) (bs : List UInt8)
    (hfits : width ps + bs.length < 2 ^ 63) :
    CodePhase calm f0 (ps ++ bs.map .byte) current defs
      { a with file := a.file.write .code (width ps).toUInt64 bs } := by
  have hwidth : width (ps ++ bs.map .byte) = width ps + bs.length := by
    rw [width_append, width_bytes]
  exact ha.write (ha.toBehind.write _ _) (by simp [fields_append]) rfl rfl
    (ha.near.write_behind bs hwidth (hwidth ▸ hfits)) fun _ fate hf => hf.write_bytes bs (by omega)

theorem position_behind (ps : List Piece) {n : Nat} (hqs : width qs = n) :
    (width ps).toUInt64 + n.toUInt64 = (width (ps ++ qs)).toUInt64 := by
  rw [width_append, hqs]
  simp

theorem encode_bytes_gives (hop : i.op &&& 0xff ≠ escape) (hoperand : i.operand2 = .none)
    (ha : CodePhase calm f0 ps current defs a)
    (hfits : width ps + (encodedBytes i).length < 2 ^ 63) :
    (encode (width ps).toUInt64 i).Gives E a fun position b =>
      position = (width (ps ++ (encodedBytes i).map .byte)).toUInt64 ∧
      CodePhase calm f0 (ps ++ (encodedBytes i).map .byte) current defs b ∧
      b.symbols = a.symbols ∧ pools b = pools a := by
  unfold encode
  rw [if_neg hop, hoperand]
  refine .after (modifyFile_run _ a) (.pure ⟨?_, write_bytes_phase ha _ hfits, rfl, rfl⟩)
  exact position_behind _ (width_bytes _)

theorem encode_call_gives {s : ObjectSymbol} (hop : i.op = call)
    (hoperand : i.operand2 = .symbol id 0) (hbytes : encodedBytes i = [0xe8])
    (ha : CodePhase calm f0 ps current defs a) (hs : a.symbols.get? id = some s)
    (hfits : width ps + 5 < 2 ^ 63) :
    (encode (width ps).toUInt64 i).Gives E a fun position b =>
      position = (width (ps ++ [.byte 0xe8, .field s.name])).toUInt64 ∧
      CodePhase calm f0 (ps ++ [.byte 0xe8, .field s.name]) current defs b ∧
      b.symbols = a.symbols ∧ pools b = pools a := by
  have hpieces : ps ++ [.byte 0xe8, .field s.name] =
      ps ++ [0xe8].map byte ++ [.field s.name] := by simp
  unfold encode
  rw [if_neg (by rw [hop]; decide), hoperand, hbytes]
  dsimp only
  rw [if_pos hop]
  -- The byte of the call.
  refine .after (modifyFile_run _ a) ?_
  have ha1 := write_bytes_phase ha [0xe8] (by simp only [length_singleton]; omega)
  have hs1 : ({ a with file := a.file.write .code (width ps).toUInt64 [0xe8] } :
    Assembly).symbols.get? id = some s := hs
  generalize ha1eq :
    ({ a with file := a.file.write .code (width ps).toUInt64 [0xe8] } : Assembly) = a1 at *
  -- The field, and its fate if the callee is placed.
  rw [position_behind ps (width_bytes [0xe8])]
  refine .after (addFixup_run a1 id _) ?_
  have ha2 := ha1.call hs1 rfl (by simp only [width_append, width_bytes, length_singleton]; omega)
  have hs2 : (withCall a1 id (width (ps ++ [0xe8].map byte)).toUInt64).symbols.get? id =
    some s := hs1
  refine .after (symbol_run hs2) ?_
  have hsame : ∀ b : Assembly, b.symbols = a1.symbols ∧ pools b = pools a1 →
      b.symbols = a.symbols ∧ pools b = pools a := fun b hb => by subst ha1eq; exact hb
  have hfield : width [.field s.name] = 4 := rfl
  have hend := position_behind (ps ++ [0xe8].map byte) hfield
  rw [hpieces, ha1.near.fieldWidth_eq]
  by_cases hplaced : s.isDefined
  · rw [if_pos hplaced]
    refine .after (ha2.resolve_run hs2) (.pure ⟨hend, ?_, hsame _ ?_⟩)
    · exact (ha2.resolve hs2 hplaced).mono fun i hi => hi.1.resolve_right hi.2
    · split <;> exact ⟨rfl, rfl⟩
  · rw [if_neg hplaced]
    exact .pure ⟨hend, ha2.drop_unplaced hs2 hplaced, hsame _ ⟨rfl, rfl⟩⟩

theorem encodeAll_gives (hcodes : Codes a.symbols is qs)
    (ha : CodePhase calm f0 ps current defs a) (hfits : width (ps ++ qs) < 2 ^ 63) :
    (encodeAll (width ps).toUInt64 is).Gives E a fun _ b =>
      CodePhase calm f0 (ps ++ qs) current defs b ∧ b.symbols = a.symbols ∧
        pools b = pools a := by
  generalize ht : a.symbols = t at hcodes
  induction hcodes generalizing a ps with
  | nil => exact .pure ⟨by simpa using ha, ht, rfl⟩
  | @bytes i is qs hop hoperand _ ih =>
    have hfits1 : width ps + (encodedBytes i).length < 2 ^ 63 := by
      simp only [width_append, width_bytes] at hfits
      omega
    rw [← append_assoc] at hfits ⊢
    refine .bind (encode_bytes_gives hop hoperand ha hfits1) ?_
    rintro _ b ⟨rfl, hb, hsymbols, hcode⟩
    exact (ih hb hfits (hsymbols.trans ht)).imp fun _ c hc => ⟨hc.1, hc.2.1, hc.2.2.trans hcode⟩
  | line _ ih =>
    refine .bind (encode_line_gives rfl rfl ha _) ?_
    rintro _ b ⟨rfl, hb, hsymbols, hcode⟩
    exact (ih hb hfits (hsymbols.trans ht)).imp fun _ c hc => ⟨hc.1, hc.2.1, hc.2.2.trans hcode⟩
  | @call id s is qs hs _ ih =>
    have hpieces : ps ++ .byte 0xe8 :: .field s.name :: qs =
        ps ++ [.byte 0xe8, .field s.name] ++ qs := by simp
    have hbytes : encodedBytes (.withOperand call 0 .func (.symbol id 0)) = [0xe8] := by
      show encodedBytes { op := call, ea := 0 } = [0xe8]
      decide
    have hfits1 : width ps + 5 < 2 ^ 63 := by
      simp only [width_append, width] at hfits
      omega
    rw [hpieces] at hfits ⊢
    refine .bind (encode_call_gives rfl rfl hbytes ha (ht ▸ hs) hfits1) ?_
    rintro _ b ⟨rfl, hb, hsymbols, hcode⟩
    exact (ih hb hfits (hsymbols.trans ht)).imp fun _ c hc => ⟨hc.1, hc.2.1, hc.2.2.trans hcode⟩

/-! ## Code of functions -/

def OnlyCalls (p : Program) (events : List Event) : Prop :=
  ∀ func, .call func ∈ events → p.isFunction func

theorem OnlyCalls.append {xs ys : List Event} (hxs : OnlyCalls p xs)
    (hys : OnlyCalls p ys) : OnlyCalls p (xs ++ ys) :=
  fun func hfunc => (mem_append.mp hfunc).elim (hxs func) (hys func)

theorem OnlyCalls.flatMap {xs : List α} {f : α → List Event} (hf : ∀ x, OnlyCalls p (f x)) :
    OnlyCalls p (xs.flatMap f) := fun func hfunc => by
  obtain ⟨x, -, hfunc⟩ := mem_flatMap.mp hfunc
  exact hf x func hfunc

theorem onlyCalls_nil : OnlyCalls p [] := fun _ hfunc => nomatch hfunc

theorem onlyCalls_line (place : Span) : OnlyCalls p [.line place] := fun _ hfunc => by
  simp at hfunc

theorem onlyCalls_calls (p : Program) (e : ExprId) : OnlyCalls p (p.calls e) := by
  unfold calls
  generalize p.exprs.size + 1 = depth
  induction depth generalizing e with
  | zero => exact onlyCalls_nil
  | succ depth ih =>
    have hoperands : OnlyCalls p ((p.exprs.children e).flatMap (p.callsWithin depth)) := .flatMap ih
    unfold callsWithin
    split
    · split
      · split
        · next hfunction =>
          refine hoperands.append fun func hfunc => ?_
          obtain rfl : func = _ := by simpa using hfunc
          exact hfunction
        · exact hoperands
      · exact hoperands
    · exact hoperands

theorem onlyCalls_eventsWithin (p : Program) (depth : Nat) (s : StmtId) :
    OnlyCalls p (p.eventsWithin depth s) := by
  induction depth generalizing s with
  | zero => exact onlyCalls_nil
  | succ depth ih =>
    have hcalls := onlyCalls_calls p
    have hline := onlyCalls_line (p := p) (p.stmts.node s).span
    unfold eventsWithin
    dsimp only
    split
    · exact hline.append (hcalls _)
    · refine hline.append ?_
      split
      · exact onlyCalls_nil
      · exact .flatMap hcalls
    · exact onlyCalls_nil
    · exact .flatMap ih
    · exact ih _
    · exact ih _
    · exact ((hline.append (hcalls _)).append (ih _)).append (.flatMap ih)
    · exact (hline.append (hcalls _)).append (ih _)
    · exact ((((OnlyCalls.flatMap ih).append hline).append (.flatMap hcalls)).append (ih _)).append
        (.flatMap hcalls)
    · exact ((hline.append (hcalls _)).append (hcalls _)).append (ih _)
    · exact hline.append (.flatMap hcalls)
    · exact hline
    · exact hline

theorem onlyCalls_events (p : Program) (s : SymbolId) : OnlyCalls p (p.events s) := by
  unfold events
  split
  · exact onlyCalls_eventsWithin p _ _
  · exact onlyCalls_nil

theorem onCode_gives {w : CodeWork α} {Q : α → CodePool → Prop} (hw : w.Gives E a.code Q) :
    (onCode w).Gives E a fun x b => ∃ q, Q x q ∧ b = { a with code := q } :=
  Gives.onPart hw

/-- A chain of instructions under construction since `a0`, and the pieces they code. -/
structure Coded (calm : Prop) (f0 : ObjectFile) (ps : List Piece) (current : ObjectSymbolId → Prop)
    (defs : List Definition) (a0 : Assembly) (qs : List Piece) (b : CodeBuilder) (a : Assembly) :
    Prop where
  phase : CodePhase calm f0 ps current defs a
  names : Extends a0.symbols a.symbols
  data : a.data = a0.data
  codes : ∃ l, Builds a.code b l ∧ Cells.Frame a0.code [] a.code l ∧ Codes a.symbols (items l) qs

theorem coded_empty (ha : CodePhase calm f0 ps current defs a) :
    Coded calm f0 ps current defs a [] .empty a :=
  ⟨ha, .refl _, rfl, [], builds_empty _, .refl _ _, .nil⟩

theorem push_coded (hb : Coded calm f0 ps current defs a0 qs builder a)
    (hi : Codes a.symbols [i] rs) : (ChainBuilder.push builder i).Gives E a.code fun result q =>
      Coded calm f0 ps current defs a0 (qs ++ rs) result.2 { a with code := q } := by
  obtain ⟨l, hl, hframe, hcodes⟩ := hb.codes
  refine (push_gives hb.phase.codePool hl i).imp fun result q hq => ?_
  refine ⟨hb.phase.withPool hq.wf, hb.names, hb.data, _, hq.toBuilds, hframe.trans hq.frame, ?_⟩
  rw [items_append]
  exact hcodes.append hi

/-- An instruction that may be missing codes the pieces of an event. -/
def CodesEvent (p : Program) (t : ObjectSymbolTable) (event : Event) :
    Option Instruction → Prop
  | none => p.eventPieces event = []
  | some i => Codes t [i] (p.eventPieces event)

theorem objectName_of_function (hfunc : p.isFunction func) :
    objectName p func = p.linkName func := by
  obtain ⟨f, hf⟩ := Option.isSome_iff_exists.mp hfunc
  simp only [objectName, hf]

theorem objectSymbol_coded (hfunc : p.isFunction func)
    (hb : Coded calm f0 ps current defs a0 qs builder a) :
    (objectSymbol p func).Gives (Endless p) a fun id a' =>
      Coded calm f0 ps current defs a0 qs builder a' ∧
        ∃ s, a'.symbols.get? id = some s ∧ s.name = p.linkName func := by
  refine (objectSymbol_gives p func a).imp ?_
  rintro id _ ⟨u, cls, hcls, hdeclares, -, rfl⟩
  obtain ⟨l, hl, hframe, hcodes⟩ := hb.codes
  have hextends := extends_of_declares hdeclares
  rw [objectName_of_function hfunc] at hdeclares
  exact ⟨⟨hb.phase.declares hdeclares hcls, hb.names.trans hextends, hb.data, l, hl,
    hframe, hcodes.extends hextends⟩, hdeclares.named⟩

theorem instruction_gives (source : SourceText) {event : Event}
    (hevent : OnlyCalls p [event]) (hb : Coded calm f0 ps current defs a0 qs builder a) :
    (instruction? p source event).Gives (Endless p) a fun i a' =>
      Coded calm f0 ps current defs a0 qs builder a' ∧ CodesEvent p a'.symbols event i := by
  cases event with
  | line place =>
    unfold instruction?
    dsimp only
    split
    · exact .pure ⟨hb, .line .nil⟩
    · exact .pure ⟨hb, rfl⟩
  | call func =>
    refine .bind (objectSymbol_coded (hevent func mem_cons_self) hb) ?_
    rintro id a' ⟨hb', s, hs, hname⟩
    refine .pure ⟨hb', ?_⟩
    rw [CodesEvent, eventPieces, ← hname]
    exact .call hs .nil

theorem eventCode_gives (source : SourceText) {events : List Event}
    (hevents : OnlyCalls p events) (hb : Coded calm f0 ps current defs a0 qs builder a) :
    (eventCode p source builder events).Gives (Endless p) a fun builder a' =>
      Coded calm f0 ps current defs a0 (qs ++ events.flatMap p.eventPieces) builder a' := by
  induction events generalizing a builder qs with
  | nil => exact .pure (by simpa using hb)
  | cons event rest ih =>
    have hevent : OnlyCalls p [event] := fun func hfunc =>
      hevents func (mem_singleton.mp hfunc ▸ mem_cons_self)
    have hrest : OnlyCalls p rest := fun func hfunc => hevents func (mem_cons_of_mem _ hfunc)
    rw [flatMap_cons, ← append_assoc, eventCode]
    refine .bind (instruction_gives source hevent hb) fun i a1 ⟨hb1, hi⟩ => ?_
    cases i with
    | none =>
      rw [hi, append_nil]
      exact .after rfl (ih hrest hb1)
    | some i =>
      have hpush : (CodeBuilder.push? builder (some i)).Gives (Endless p) a1.code fun result q =>
          Coded calm f0 ps current defs a0 (qs ++ p.eventPieces event) result.2
            { a1 with code := q } := .bind (push_coded hb1 hi) fun _ _ hq => .pure hq
      refine .bind (onCode_gives hpush) ?_
      rintro _ _ ⟨q, hq, rfl⟩
      exact ih hrest hq

theorem push_two_coded {β : Type} {j : Instruction} {rs' : List Piece}
    (hb : Coded calm f0 ps current defs a0 qs builder a) (hi : Codes a.symbols [i] rs)
    (hj : Codes a.symbols [j] rs') (result : CodeBuilder → β) : (do
      let (_, b) ← ChainBuilder.push builder i
      return result (← b.push j).2 : CodeWork β).Gives E a.code fun x q => ∃ b, x = result b ∧
        Coded calm f0 ps current defs a0 (qs ++ (rs ++ rs')) b { a with code := q } := by
  refine .bind (push_coded hb hi) fun _ q hq => ?_
  refine .bind (push_coded (a := { a with code := q }) hq hj) fun _ u hu => .pure ⟨_, rfl, ?_⟩
  rw [← append_assoc]
  exact hu

def setFrame (p : Program) : Instruction :=
  let rex : UInt32 := if p.pointerSize = 8 then Rex.w.toUInt32 <<< 16 else 0
  .regMem move (0xec ||| rex)

theorem codes_plain (hop : i.op &&& 0xff ≠ escape) (hoperand : i.operand2 = .none)
    (t : ObjectSymbolTable) : Codes t [i] ((encodedBytes i).map .byte) := by
  simpa using Codes.bytes hop hoperand (Codes.nil (t := t))

theorem entry_eq (p : Program) :
    p.entry = encodedBytes (.plain pushRbp) ++ encodedBytes (setFrame p) := by
  unfold entry setFrame
  by_cases hsize : p.pointerSize = 8
  · simp only [if_pos hsize]
    decide
  · simp only [if_neg hsize]
    decide

theorem exit_eq : exit = encodedBytes (.plain popRbp) ++ encodedBytes (.plain ret) := by
  decide

theorem functionCode_gives (source : SourceText) (s : SymbolId)
    (ha : CodePhase calm f0 ps current defs a) :
    (functionCode p source s).Gives (Endless p) a fun c a' => ∃ b, c = b.first ∧
      Coded calm f0 ps current defs a (p.functionPieces s) b a' := by
  have hframe : (setFrame p).op &&& 0xff ≠ escape := by
    show move &&& 0xff ≠ escape
    decide
  refine .bind (onCode_gives (push_two_coded (coded_empty ha)
    (codes_plain (i := .plain pushRbp) (by decide) rfl _)
    (codes_plain (i := setFrame p) hframe rfl _) fun b => b)) ?_
  rintro b1 _ ⟨q, ⟨_, rfl, hb1⟩, rfl⟩
  refine .bind (eventCode_gives source (onlyCalls_events p s) hb1) fun b2 a2 hb2 => ?_
  refine (onCode_gives (push_two_coded hb2
    (codes_plain (i := .plain popRbp) (by decide) rfl _)
    (codes_plain (i := .plain ret) (by decide) rfl _) (·.first))).imp ?_
  rintro c _ ⟨u, ⟨b3, rfl, hb3⟩, rfl⟩
  refine ⟨b3, rfl, ?_⟩
  rw [functionPieces, entry_eq, exit_eq, map_append, map_append]
  simpa using hb3

/-! ## Functions -/

theorem unplaced_of_fresh {sym : ObjectSymbol} (ha : CodePhase calm f0 ps current defs a)
    (hsym : a.symbols.get? id = some sym)
    (hfresh : calm → ∀ d ∈ f0.defined ++ defs, d.name ≠ sym.name) :
    calm → sym.segment = none := fun hcalm => by
  obtain ⟨fate, hlinks⟩ := ha.links hcalm
  cases hsegment : sym.segment with
  | none => rfl
  | some g =>
    obtain ⟨d, hd, hname, -⟩ := (ha.symbols.sound id sym hsym).placed g hsegment
    exact absurd hname (hfresh hcalm d (hlinks.defined ▸ hd))

/-- Emitting a function writes its pieces behind the code and defines its name there. -/
theorem emitFunction_gives (source : SourceText) {s : SymbolId} (hfunc : p.isFunction s)
    (ha : CodePhase calm f0 ps nothing defs a)
    (hfresh : calm → ∀ d ∈ f0.defined ++ defs, d.name ≠ p.linkName s)
    (hfits : width (ps ++ p.functionPieces s) < 2 ^ 63) :
    (emitFunction p source s).Gives (Endless p) a fun _ a' =>
      CodePhase calm f0 (ps ++ p.functionPieces s) nothing
        (defs ++ [⟨p.linkName s, .code, (width ps).toUInt64, true⟩]) a' ∧
      a'.code.live = a.code.live ∧ a'.data = a.data := by
  refine .bind (objectSymbol_coded hfunc (coded_empty ha)) fun id a1 ⟨ha1, s1, hs1, hname1⟩ => ?_
  refine .bind (functionCode_gives source s ha1.phase) ?_
  rintro _ a2 ⟨b, rfl, hb2⟩
  have ha2 := hb2.phase
  obtain ⟨l, hbuilds, hframe, hcodes⟩ := hb2.codes
  have hl := hbuilds.spans
  obtain ⟨s2, hs2, hname2⟩ := hb2.names id s1 hs1
  have hname : s2.name = p.linkName s := hname2.trans hname1
  have hunplaced := unplaced_of_fresh ha2 hs2 (hname.symm ▸ hfresh)
  have hstart : a2.file.segmentSize .code = (width ps).toUInt64 :=
    congrArg Nat.toUInt64 ha2.near.length
  -- The function is placed before its body is encoded, so it can call itself.
  have ha3 := ha2.place hs2 hunplaced rfl
  rw [hname] at ha3
  have hs3 : (placedFunction a2 id (p.linkName s) (width ps).toUInt64).symbols.get? id =
      some (asFunction (width ps).toUInt64 s2) := by
    rw [placedFunction, ObjectSymbolTable.get?_modify, if_pos rfl, hs2]
    rfl
  have hcodes3 : Codes (placedFunction a2 id (p.linkName s) (width ps).toUInt64).symbols (items l)
      (p.functionPieces s) := hcodes.extends (extends_placedFunction a2 id _ _)
  have hdefine : (modifyFile (·.define (asFunction (width ps).toUInt64 s2))).run
      { a2 with symbols := a2.symbols.modify id (asFunction (width ps).toUInt64) } =
      (.ok ⟨⟩, placedFunction a2 id (p.linkName s) (width ps).toUInt64) := by
    rw [modifyFile_run, placedFunction, ← hname]
    rfl
  refine .after (run_get a2) ?_
  rw [hstart]
  refine .after (modifySymbol_run hs2 _) (.after (symbol_run hs3) ?_)
  refine .after hdefine (.after (run_onPart (items_run ha2.codePool hl)) ?_)
  refine .bind (encodeAll_gives hcodes3 ha3 hfits) ?_
  rintro _ a4 ⟨ha4, hsymbols, hpools⟩
  have hs4 := hsymbols ▸ hs3
  refine .after (ha4.resolve_run hs4) ?_
  have ha5 := (ha4.resolve hs4 rfl).mono fun i hi => hi.2 hi.1
  have hpools5 : pools (if a4.fixups.waiting id = [] then a4 else
      filled a4 id (asFunction (width ps).toUInt64 s2)) = pools a2 := by
    split <;> exact hpools
  obtain ⟨hcode, hdata⟩ := Prod.mk.inj hpools5
  refine .bind (onCode_gives (release_gives ha5.codePool (hcode ▸ hl))) ?_
  rintro _ _ ⟨q, ⟨hq, hfreed⟩, rfl⟩
  obtain ⟨l1, hl1, hframe1, -⟩ := ha1.codes
  obtain rfl := hl1.no_cell rfl
  refine .pure ⟨ha5.withPool hq, ?_, hdata.trans (hb2.data.trans ha1.data)⟩
  exact ((hframe1.trans hframe).trans (hcode ▸ hfreed)).live

end Emission

end DCompiler
