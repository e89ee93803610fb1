import Mathlib.Algebra.Divisibility.Basic
import Mathlib.Algebra.Group.Int.Defs
import Mathlib.Algebra.GroupWithZero.Nat
import Mathlib.Data.Nat.Log

namespace AgentGpu.Foundation

/-- The `float64` nearest to a number that is read into an interface, with ties to even. -/
def roundDouble (n : ℕ) : ℕ :=
  let e := n.log2 - 52
  let q := n / 2 ^ e
  let r := n % 2 ^ e
  (if 2 ^ e < 2 * r ∨ 2 * r = 2 ^ e ∧ q % 2 = 1 then q + 1 else q) * 2 ^ e

def toDouble (z : ℤ) : ℤ := z.sign * roundDouble z.natAbs

section Doubles

variable {n k : ℕ}

theorem roundDouble_of_dvd (h : 2 ^ (n.log2 - 52) ∣ n) : roundDouble n = n := by
  have hpos : 0 < 2 ^ (n.log2 - 52) := Nat.two_pow_pos _
  have hr : n % 2 ^ (n.log2 - 52) = 0 := Nat.mod_eq_zero_of_dvd h
  have hexact : ¬(2 ^ (n.log2 - 52) < 2 * (n % 2 ^ (n.log2 - 52)) ∨
      2 * (n % 2 ^ (n.log2 - 52)) = 2 ^ (n.log2 - 52) ∧ n / 2 ^ (n.log2 - 52) % 2 = 1) := by
    omega
  simp only [roundDouble, if_neg hexact]
  exact Nat.div_mul_cancel h

theorem roundDouble_of_lt (h : n < 2 ^ 53) : roundDouble n = n := by
  refine roundDouble_of_dvd ?_
  have hlog : n.log2 < 53 := by
    by_cases hn : n = 0
    · subst hn
      decide
    · exact (Nat.log2_lt hn).mpr h
  rw [Nat.sub_eq_zero_of_le (by omega)]
  exact one_dvd n

theorem roundDouble_mul_pow (hk : k ≤ 2 ^ 53) (e : ℕ) : roundDouble (k * 2 ^ e) = k * 2 ^ e := by
  refine roundDouble_of_dvd ?_
  by_cases hzero : k = 0
  · subst hzero
    simp
  have hne : k * 2 ^ e ≠ 0 := Nat.mul_ne_zero hzero (Nat.two_pow_pos e).ne'
  rcases hk.lt_or_eq with hlt | rfl
  · have hlog : (k * 2 ^ e).log2 < 53 + e := by
      rw [Nat.log2_lt hne, Nat.pow_add]
      exact Nat.mul_lt_mul_of_pos_right hlt (Nat.two_pow_pos e)
    exact (Nat.pow_dvd_pow 2 (by omega)).trans (Nat.dvd_mul_left _ k)
  · rw [← Nat.pow_add, Nat.log2_two_pow]
    exact Nat.pow_dvd_pow 2 (by omega)

theorem roundDouble_roundDouble (n : ℕ) : roundDouble (roundDouble n) = roundDouble n := by
  by_cases hn : n < 2 ^ 53
  · rw [roundDouble_of_lt hn, roundDouble_of_lt hn]
  have hq : n / 2 ^ (n.log2 - 52) < 2 ^ 53 := by
    have hlog : 53 ≤ n.log2 := (Nat.le_log2 (by omega)).mpr (Nat.not_lt.mp hn)
    rw [Nat.div_lt_iff_lt_mul (Nat.two_pow_pos _), ← Nat.pow_add]
    exact lt_of_lt_of_eq Nat.lt_log2_self (congrArg (2 ^ ·) (by omega))
  unfold roundDouble
  refine roundDouble_mul_pow ?_ _
  split_ifs <;> omega

theorem toDouble_of_eq {z : ℤ} (h : roundDouble z.natAbs = z.natAbs) : toDouble z = z := by
  rw [toDouble, h, Int.sign_mul_natAbs]

theorem toDouble_toDouble (z : ℤ) : toDouble (toDouble z) = toDouble z := by
  refine toDouble_of_eq ?_
  rw [toDouble, Int.natAbs_mul, Int.natAbs_natCast]
  by_cases hz : z = 0
  · subst hz
    decide
  · rw [Int.natAbs_sign_of_ne_zero hz, one_mul, roundDouble_roundDouble]

end Doubles

end AgentGpu.Foundation
