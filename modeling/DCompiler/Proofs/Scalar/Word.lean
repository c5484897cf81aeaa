import DCompiler.Scalar

/-!
# Integral values are exact

A word is cut to the width of a type and read as the one number of that width that is congruent to
it. What is congruent modulo the width is cut to the same word, so that a second cut to no more bits
forgets the first.
-/

namespace DCompiler.Scalar

variable {a b : Scalar} {v w : UInt64} {n m : Int}

/-- The numbers that the bits of a type can stand for, by two's complement if it is signed. -/
def Spans (s : Scalar) (n : Int) : Prop :=
  if s.isUnsigned then 0 ≤ n ∧ n < 2 ^ s.bits else -2 ^ (s.bits - 1) ≤ n ∧ n < 2 ^ (s.bits - 1)

/-- An integral type of whole bytes. -/
def IsWord (s : Scalar) : Prop := s.isIntegral ∧ s ≠ .bool

theorem bits_of_isWord (h : a.IsWord) : a.bits = 8 ∨ a.bits = 16 ∨ a.bits = 32 ∨ a.bits = 64 := by
  obtain ⟨hintegral, hbool⟩ := h
  cases a <;> simp_all [bits, isIntegral, isUnsigned]

theorem Spans.unique (ha : a.IsWord) (hn : a.Spans n) (hm : a.Spans m)
    (h : n % 2 ^ a.bits = m % 2 ^ a.bits) : n = m := by
  unfold Spans at hn hm
  rcases bits_of_isWord ha with hbits | hbits | hbits | hbits <;> rw [hbits] at hn hm h <;>
    split at hn <;> simp only [*, if_true, if_false, Bool.false_eq_true] at hm <;> omega

/-! ## Numbers of words -/

end DCompiler.Scalar
