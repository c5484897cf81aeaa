import DCompiler.Proofs.Analysis.Reached
import Mathlib.Data.List.Induction

/-!
# Overloads in any order

Of an overload set a call takes the function that its arguments match best. The set is a list, but
what becomes of the call depends only on how well each function is matched: the function that is
taken is the one that is matched better than all others (`overloads_in_any_order`). So the same
functions in another order, with other places in the tables, give the same function and the same
verdict.
-/

namespace DCompiler

open Analyse List

variable {p q : Tables} {candidates others : List SymbolId} {args args' : List ExprId}
variable {c f : SymbolId} {σ : SymbolId → SymbolId} {l l' : List SymbolId}

/-! ## The best candidates -/

/-- The arguments match `c`, and they match it better than any other candidate. -/
structure Tables.IsBest (p : Tables) (candidates : List SymbolId) (args : List ExprId)
    (c : SymbolId) : Prop where
  mem : c ∈ candidates
  matched : p.functionMatch args c ≠ .none
  beats : ∀ f ∈ candidates, f ≠ c → (p.functionMatch args f).rank < (p.functionMatch args c).rank

theorem ne_none_of_rank_le {m n : MatchLevel} (hm : m ≠ .none) (h : m.rank ≤ n.rank) :
    n ≠ .none := by
  rintro rfl
  cases m
  · exact hm rfl
  all_goals cases h

theorem MatchLevel.rank_inj {m n : MatchLevel} (h : m.rank = n.rank) : m = n := by
  cases m <;> cases n <;> first | rfl | cases h

/-- What a scan has found: the greatest level so far, and the functions of that level. -/
structure Tables.Scanned (p : Tables) (args : List ExprId) (candidates : List SymbolId)
    (best : MatchLevel × List SymbolId) : Prop where
  greatest : ∀ f ∈ candidates, (p.functionMatch args f).rank ≤ best.1.rank
  attained : best.1 = .none ∨ ∃ f ∈ candidates, p.functionMatch args f = best.1
  functions : best.2 = candidates.filter fun f => p.functionMatch args f = best.1 && best.1 ≠ .none

theorem scanned_addMatch {best : MatchLevel × List SymbolId} (h : p.Scanned args candidates best)
    (f : SymbolId) : p.Scanned args (candidates ++ [f]) (p.addMatch args best f) := by
  obtain ⟨hgreatest, hattained, hfunctions⟩ := h
  unfold Tables.addMatch
  dsimp only
  split
  · next hlt =>
    -- Nothing before reaches the new level.
    have hbelow : ∀ g ∈ candidates, p.functionMatch args g ≠ p.functionMatch args f :=
      fun g hg heq =>
      Nat.not_lt_of_le (heq ▸ hgreatest g hg) hlt
    have hsome : p.functionMatch args f ≠ .none := fun hnone => by
      rw [hnone] at hlt
      exact Nat.not_lt_zero _ hlt
    refine ⟨fun g hg => ?_, .inr ⟨f, by simp, rfl⟩, ?_⟩
    · rcases mem_append.mp hg with hg | hg
      · exact Nat.le_of_lt (Nat.lt_of_le_of_lt (hgreatest g hg) hlt)
      · exact mem_singleton.mp hg ▸ Nat.le_refl _
    · rw [filter_append, filter_eq_nil_iff.mpr fun g hg => by simp [hbelow g hg]]
      simp [hsome]
  · next hle =>
    have hmore : ∀ g ∈ candidates ++ [f], (p.functionMatch args g).rank ≤ best.1.rank :=
      forall_mem_append.mpr ⟨hgreatest, forall_mem_singleton.mpr (Nat.le_of_not_lt hle)⟩
    have hfound : best.1 = .none ∨ ∃ g ∈ candidates ++ [f], p.functionMatch args g = best.1 :=
      hattained.imp_right fun ⟨g, hg, hlevel⟩ => ⟨g, mem_append_left _ hg, hlevel⟩
    split
    · next hsame =>
      obtain ⟨hlevel, hsome⟩ := (Bool.and_eq_true _ _).mp hsame
      rw [of_decide_eq_true hlevel] at hsome ⊢
      refine ⟨hmore, hfound, ?_⟩
      rw [filter_append, ← hfunctions]
      simp [of_decide_eq_true hlevel, of_decide_eq_true hsome]
    · next hother =>
      refine ⟨hmore, hfound, ?_⟩
      rw [filter_append, ← hfunctions]
      by_cases hlevel : p.functionMatch args f = best.1 <;> simp_all

theorem scanned_bestMatches (p : Tables) (args : List ExprId) (candidates : List SymbolId) :
    p.Scanned args candidates (candidates.foldl (p.addMatch args) (.none, [])) := by
  induction candidates using reverseRecOn with
  | nil => exact ⟨nofun, .inl rfl, rfl⟩
  | append_singleton candidates f ih =>
    rw [foldl_append]
    exact scanned_addMatch ih f

theorem mem_bestMatches : f ∈ p.bestMatches candidates args ↔ f ∈ candidates ∧
    p.functionMatch args f ≠ .none ∧
    ∀ a ∈ candidates, (p.functionMatch args a).rank ≤ (p.functionMatch args f).rank := by
  obtain ⟨hgreatest, hattained, hfunctions⟩ := scanned_bestMatches p args candidates
  rw [Tables.bestMatches, hfunctions, mem_filter, Bool.and_eq_true, decide_eq_true_eq,
    decide_eq_true_eq]
  refine and_congr_right fun hf => ⟨fun ⟨hlevel, hsome⟩ => ?_, fun ⟨hsome, hmax⟩ => ?_⟩
  · rw [hlevel]
    exact ⟨hsome, hgreatest⟩
  · have hlevel : p.functionMatch args f = (candidates.foldl (p.addMatch args) (.none, [])).1 := by
      refine MatchLevel.rank_inj (Nat.le_antisymm (hgreatest f hf) ?_)
      rcases hattained with hnone | ⟨g, hg, hlevel⟩
      · rw [hnone]
        exact Nat.zero_le _
      · exact hlevel ▸ hmax g hg
    exact ⟨hlevel, hlevel ▸ hsome⟩

theorem bestMatches_eq_nil_iff :
    p.bestMatches candidates args = [] ↔ ∀ f ∈ candidates, p.functionMatch args f = .none := by
  rw [eq_nil_iff_forall_not_mem]
  refine ⟨fun hempty f hf => ?_, fun hnone f hf => ?_⟩
  · obtain ⟨hgreatest, hnone | ⟨c, hc, hlevel⟩, -⟩ := scanned_bestMatches p args candidates
    · rw [hnone] at hgreatest
      exact MatchLevel.rank_inj (Nat.le_zero.mp (hgreatest f hf))
    · by_contra hm
      rw [← hlevel] at hgreatest
      exact hempty c (mem_bestMatches.mpr ⟨hc, ne_none_of_rank_le hm (hgreatest f hf), hgreatest⟩)
  · obtain ⟨hmem, hm, -⟩ := mem_bestMatches.mp hf
    exact hm (hnone f hmem)

theorem bestMatches_sublist : (p.bestMatches candidates args).Sublist candidates := by
  rw [Tables.bestMatches, (scanned_bestMatches p args candidates).functions]
  exact filter_sublist

theorem bestMatches_eq_singleton_iff (hnodup : candidates.Nodup) :
    p.bestMatches candidates args = [c] ↔ p.IsBest candidates args c := by
  rw [← perm_singleton, perm_ext_iff_of_nodup (hnodup.sublist bestMatches_sublist)
    (nodup_singleton c)]
  simp only [mem_bestMatches, mem_singleton]
  refine ⟨fun hall => ?_, fun hc f => ⟨fun ⟨hf, _, hmax⟩ => ?_, ?_⟩⟩
  · obtain ⟨hmem, hm, hmax⟩ := (hall c).mpr rfl
    refine ⟨hmem, hm, fun f hf hne => Nat.lt_of_not_le fun hle => hne ((hall f).mp ?_)⟩
    exact ⟨hf, ne_none_of_rank_le hm hle, fun a ha => Nat.le_trans (hmax a ha) hle⟩
  · by_contra hne
    exact Nat.not_lt_of_le (hmax c hc.mem) (hc.beats f hf hne)
  rintro rfl
  refine ⟨hc.mem, hc.matched, fun a ha => ?_⟩
  by_cases hne : a = f
  · exact hne ▸ Nat.le_refl _
  · exact Nat.le_of_lt (hc.beats a ha hne)

theorem bestMatches_renamed (hothers : others.Nodup) (hperm : others.Perm (candidates.map σ))
    (hlevel : ∀ f ∈ candidates, q.functionMatch args' (σ f) = p.functionMatch args f) :
    (q.bestMatches others args').Perm ((p.bestMatches candidates args).map σ) := by
  have hmapped : ((p.bestMatches candidates args).map σ).Nodup :=
    (hperm.nodup_iff.mp hothers).sublist (bestMatches_sublist.map σ)
  refine (perm_ext_iff_of_nodup (hothers.sublist bestMatches_sublist) hmapped).mpr fun f => ?_
  simp only [mem_bestMatches, mem_map, hperm.mem_iff, forall_exists_index, and_imp,
    forall_apply_eq_imp_iff₂]
  constructor
  · rintro ⟨⟨a, ha, rfl⟩, hm, hmax⟩
    rw [hlevel a ha] at hm hmax
    exact ⟨a, ⟨ha, hm, fun b hb => hlevel b hb ▸ hmax b hb⟩, rfl⟩
  rintro ⟨a, ⟨ha, hm, hmax⟩, rfl⟩
  rw [hlevel a ha]
  exact ⟨⟨a, ha, rfl⟩, hm, fun b hb => (hlevel b hb).symm ▸ hmax b hb⟩

theorem nodup_overloads (t : SymbolTable) (first : SymbolId) : (t.overloads first).Nodup := by
  have hafter (steps : Nat) (seen : List SymbolId) (next : Option SymbolId) (hseen : seen.Nodup) :
      (t.overloadsAfter steps seen next).Nodup := by
    fun_induction t.overloadsAfter steps seen next with
    | case1 | case2 | case3 => exact hseen
    | case4 seen steps id hnew ih =>
      refine ih (nodup_append.mpr ⟨hseen, nodup_singleton id, ?_⟩)
      rintro a ha _ hid rfl
      exact hnew (contains_iff_mem.mpr (mem_singleton.mp hid ▸ ha))
  exact hafter _ [] _ nodup_nil

/-! ## Verdicts -/

inductive Verdict where
  | accepted (c : SymbolId) | ambiguous | rejected

namespace Verdict

def ofBest : List SymbolId → Verdict
  | [] => rejected
  | [c] => accepted c
  | _ :: _ :: _ => ambiguous

def choice? : Verdict → Option SymbolId
  | accepted c => some c
  | ambiguous | rejected => none

def map (σ : SymbolId → SymbolId) : Verdict → Verdict
  | accepted c => accepted (σ c)
  | ambiguous => ambiguous
  | rejected => rejected

def problem? (name types : String) : Verdict → Option Problem
  | accepted _ => none
  | ambiguous => some (.ambiguousCall name types)
  | rejected => some (.noCallableOverload name types)

theorem ofBest_renamed (h : l.Perm (l'.map σ)) : ofBest l = (ofBest l').map σ := by
  match l' with
  | [] => rw [h.eq_nil]; rfl
  | [c] => rw [perm_singleton.mp h]; rfl
  | _ :: _ :: _ =>
    match l, h.length_eq with
    | _ :: _ :: _, _ => rfl

theorem ofBest_eq_accepted : ofBest l = accepted c ↔ l = [c] := by
  match l with
  | [] | [_] | _ :: _ :: _ => simp [ofBest]

theorem ofBest_eq_rejected : ofBest l = rejected ↔ l = [] := by
  match l with
  | [] | [_] | _ :: _ :: _ => simp [ofBest]

end Verdict

/-- State `t` is `s` after an error with the text of the problem, if there is one. -/
def Analysis.Told (s t : Analysis) : Option Problem → Prop
  | none => t = s
  | some problem => ∃ d, d.severity = .error ∧ d.message = problem.message ∧ t = s.report d

variable {h : Analyser} {s u : Analysis} {e : ExprId} {first : SymbolId} {v : Verdict}

/-- In state `u` the types of the functions of an overload set are known. -/
def Analysis.Declares (h : Analyser) (s : Analysis) (first : SymbolId) (u : Analysis) : Prop :=
  ((s.symbols.overloads first).forM analyseSignature).run h s = some ((), u)

/-- The call gets the verdict, and what is told goes with it. -/
def Analysis.Resolves (h : Analyser) (s : Analysis) (e : ExprId) (first : SymbolId)
    (args : List ExprId) (u : Analysis) (v : Verdict) : Prop :=
  ∃ t, (resolveOverload e first args).run h s = some (v.choice?, t) ∧
    u.Told t (v.problem? (u.symbols.name first) (u.argumentTypes args))

theorem resolves_ofBest (hsig : s.Declares h first u)
    (hmany : 2 ≤ (s.symbols.overloads first).length)
    (hv : .ofBest (u.bestMatches (s.symbols.overloads first) args) = v) :
    s.Resolves h e first args u v := by
  subst hv
  unfold Analysis.Resolves resolveOverload
  rw [run_next (ask_run h s _), run_next hsig, if_neg (by omega), run_next (x := tables) rfl]
  split <;> rename_i hbest <;> rw [hbest]
  · exact ⟨_, rfl, _, rfl, rfl, rfl⟩
  · exact ⟨_, rfl, rfl⟩
  · exact ⟨_, rfl, _, rfl, rfl, rfl⟩

/-- **Overloads in any order.** A call with several candidates takes the one that its arguments
match better than all others. It is rejected if they match none, and else it is ambiguous. The same
functions in any other order and at other places in the tables get the same verdict. -/
theorem overloads_in_any_order (hsig : s.Declares h first u)
    (hmany : 2 ≤ (s.symbols.overloads first).length) :
    ∃ v, s.Resolves h e first args u v ∧
      (∀ c, v = .accepted c ↔ u.IsBest (s.symbols.overloads first) args c) ∧
      (v = .rejected ↔ ∀ f ∈ s.symbols.overloads first, u.functionMatch args f = .none) ∧
      ∀ {h' : Analyser} {s' u' : Analysis} {e' : ExprId} {first' : SymbolId} {args' : List ExprId}
        {σ : SymbolId → SymbolId}, s'.Declares h' first' u' →
        (s'.symbols.overloads first').Perm ((s.symbols.overloads first).map σ) →
        (∀ f ∈ s.symbols.overloads first, u'.functionMatch args' (σ f) = u.functionMatch args f) →
        s'.Resolves h' e' first' args' u' (v.map σ) := by
  refine ⟨_, resolves_ofBest hsig hmany rfl, fun c => ?_, ?_, fun hsig' hperm hlevel => ?_⟩
  · rw [Verdict.ofBest_eq_accepted, bestMatches_eq_singleton_iff (nodup_overloads _ _)]
  · rw [Verdict.ofBest_eq_rejected, bestMatches_eq_nil_iff]
  · rw [← length_map, ← hperm.length_eq] at hmany
    exact resolves_ofBest hsig' hmany
      (Verdict.ofBest_renamed (bestMatches_renamed (nodup_overloads _ _) hperm hlevel))

def twoNamed : Analysis :=
  stateOf "void f() { } void f(int x) { }"

theorem overloads_in_any_order_two : ∃ u v, twoNamed.Declares (analyser 9) ⟨1⟩ u ∧
    2 ≤ (twoNamed.symbols.overloads ⟨1⟩).length ∧
    twoNamed.Resolves (analyser 9) ⟨0⟩ ⟨1⟩ [] u v ∧
    ∀ c, v = .accepted c ↔ u.IsBest (twoNamed.symbols.overloads ⟨1⟩) [] c := by
  have h : (((twoNamed.symbols.overloads ⟨1⟩).forM analyseSignature).run (analyser 9)
      twoNamed).isSome = true ∧ 2 ≤ (twoNamed.symbols.overloads ⟨1⟩).length := by
    decide +kernel
  obtain ⟨⟨⟨⟩, u⟩, hsig⟩ := Option.isSome_iff_exists.mp h.1
  obtain ⟨v, hv, hbest, -⟩ := overloads_in_any_order hsig h.2
  exact ⟨u, v, hsig, h.2, hv, hbest⟩

end DCompiler
