import Mathlib.Data.Nat.Size
import Mathlib.Data.Nat.Bitwise

/-! Smearing the bits of a number: or-ing it with itself shifted right by 1, 2, 4, .. sets
every bit below its highest one. -/
namespace PowerOfTwo

/-- The bits of `y` are those of `x` and the `k - 1` places below each. -/
def Smeared (k x y : Nat) : Prop := ∀ i, y.testBit i ↔ ∃ j < k, x.testBit (i + j)

variable {k x y : Nat}

theorem smeared_self (x : Nat) : Smeared 1 x x := by
  intro i
  simp

/-- Each round doubles how far the bits reach. -/
theorem Smeared.double (h : Smeared k x y) : Smeared (2 * k) x (y ||| y >>> k) := by
  intro i
  rw [Nat.testBit_or, Bool.or_eq_true, Nat.testBit_shiftRight, h i, h (k + i)]
  constructor
  · rintro (⟨j, hj, hbit⟩ | ⟨j, hj, hbit⟩)
    · exact ⟨j, by omega, hbit⟩
    · exact ⟨k + j, by omega, by rwa [← Nat.add_assoc, Nat.add_comm i k]⟩
  · rintro ⟨j, hj, hbit⟩
    rcases Nat.lt_or_ge j k with hlt | hge
    · exact .inl ⟨j, hlt, hbit⟩
    · refine .inr ⟨j - k, by omega, ?_⟩
      rwa [show k + i + (j - k) = i + j by omega]

/-- When the bits reach past the whole number, the result is one less than a power of two. -/
theorem Smeared.eq (h : Smeared k x y) (hk : x < 2 ^ k) : y = 2 ^ x.size - 1 := by
  apply Nat.eq_of_testBit_eq
  intro i
  rw [Nat.testBit_two_pow_sub_one, Bool.eq_iff_iff, h i, decide_eq_true_iff, Nat.lt_size]
  constructor
  · rintro ⟨j, -, hbit⟩
    have hge := Nat.ge_two_pow_of_testBit hbit
    exact le_trans (Nat.pow_le_pow_right (by decide) (Nat.le_add_right i j)) hge
  · intro hge
    obtain ⟨m, hm, hbit⟩ := Nat.exists_ge_and_testBit_of_ge_two_pow hge
    have hlt : m < k := by
      by_contra hle
      have := Nat.pow_le_pow_right (n := 2) (by decide) (Nat.le_of_not_lt hle)
      have := Nat.ge_two_pow_of_testBit hbit
      omega
    exact ⟨m - i, by omega, by rwa [Nat.add_sub_cancel' hm]⟩

end PowerOfTwo
