import Mathlib.Algebra.Order.Group.Nat
import Mathlib.Tactic.Ring

/-!
# Unsigned arithmetic on natural numbers

A value of an unsigned integer type of width `w` is kept as a natural number
below `2 ^ w`, and every operation the source performs in that type goes through
`wrap`.  The lemmas say when an operation is the one on natural numbers: as long
as nothing overflows, and nothing is subtracted from something smaller.

### How to use it

* Subtraction of naturals stops at zero, subtraction of unsigned numbers does not; so a
  subtraction that may go below zero is `wsub`.
* The lemmas have their bounds as hypotheses in the form in which `omega` closes them.  A proof
  that rewrites with them has to say, once, why nothing overflows.
* `roundUp` is without a width.  Code that rounds up by adding first is compared with it, and
  the two agree as long as the sum fits.
-/

namespace Tklb.Foundation

/-- The value of `n` in an unsigned type of width `w`. -/
def wrap (w n : ℕ) : ℕ := n % 2 ^ w

/-- `a - b` in an unsigned type of width `w`. -/
def wsub (w a b : ℕ) : ℕ := wrap w (2 ^ w + a - b)

theorem wrap_lt (w n : ℕ) : wrap w n < 2 ^ w := Nat.mod_lt _ (Nat.two_pow_pos w)

theorem wrap_of_lt {w n : ℕ} (h : n < 2 ^ w) : wrap w n = n := Nat.mod_eq_of_lt h

/-- A subtraction that does not go below zero. -/
theorem wsub_of_le {w a b : ℕ} (ha : a < 2 ^ w) (hba : b ≤ a) : wsub w a b = a - b := by
  rw [wsub, wrap, show 2 ^ w + a - b = a - b + 2 ^ w by omega, Nat.add_mod_right]
  exact Nat.mod_eq_of_lt (by omega)

/-- What a wrapped subtraction took away can be given back. -/
theorem wrap_wsub_add {w a b c : ℕ} (hb : b < 2 ^ w) (hbc : b ≤ a + c)
    (hlt : a + c - b < 2 ^ w) : wrap w (wsub w a b + c) = a + c - b := by
  rw [wsub, wrap, wrap, Nat.mod_add_mod,
    show 2 ^ w + a - b + c = a + c - b + 2 ^ w by omega, Nat.add_mod_right]
  exact Nat.mod_eq_of_lt hlt

/-- Masking with `2 ^ k - 1` keeps the remainder. -/
theorem and_mask_eq_mod (n k : ℕ) : n &&& (2 ^ k - 1) = n % 2 ^ k :=
  Nat.and_two_pow_sub_one_eq_mod n k

/-- Masking with the complement of `2 ^ k - 1` rounds down to a multiple of
`2 ^ k`. -/
theorem and_not_mask_eq {w n k : ℕ} (hn : n < 2 ^ w) :
    n &&& (2 ^ w - (2 ^ k - 1 + 1)) = n / 2 ^ k * 2 ^ k := by
  apply Nat.eq_of_testBit_eq
  intro i
  by_cases hk : k ≤ w
  · have hlt : 2 ^ k - 1 < 2 ^ w := by
      have := Nat.pow_le_pow_right (n := 2) (by omega) hk
      have := Nat.two_pow_pos k
      omega
    rw [Nat.testBit_and, Nat.testBit_two_pow_sub_succ hlt, Nat.testBit_two_pow_sub_one,
      Nat.testBit_mul_two_pow, Nat.testBit_div_two_pow]
    by_cases hi : i < w
    · by_cases hik : i < k
      · simp [hi, hik, show ¬ k ≤ i by omega]
      · simp [hi, hik, show k ≤ i by omega]
    · have hhigh : n.testBit i = false :=
        Nat.testBit_lt_two_pow (lt_of_lt_of_le hn (Nat.pow_le_pow_right (by omega) (by omega)))
      by_cases hik : k ≤ i
      · simp [hhigh, hik]
      · simp [hhigh, hik]
  · have hzero : n / 2 ^ k = 0 :=
      Nat.div_eq_of_lt (lt_of_lt_of_le hn (Nat.pow_le_pow_right (by omega) (by omega)))
    have hsub : 2 ^ w - (2 ^ k - 1 + 1) = 0 := by
      have := Nat.pow_le_pow_right (n := 2) (by omega) (Nat.le_of_lt (Nat.lt_of_not_le hk))
      omega
    rw [hzero, hsub]
    simp

/-! ### Rounding up -/

/-- The least multiple of `chunk` that is not below `n`. -/
def roundUp (n chunk : ℕ) : ℕ := (n + chunk - 1) / chunk * chunk

theorem dvd_roundUp (n chunk : ℕ) : chunk ∣ roundUp n chunk :=
  Nat.dvd_mul_left _ _

theorem le_roundUp (n : ℕ) {chunk : ℕ} (hpos : 0 < chunk) : n ≤ roundUp n chunk := by
  have h := Nat.div_add_mod' (n + chunk - 1) chunk
  have hmod := Nat.mod_lt (n + chunk - 1) hpos
  unfold roundUp
  omega

theorem roundUp_lt (n : ℕ) {chunk : ℕ} (hpos : 0 < chunk) : roundUp n chunk < n + chunk := by
  have h := Nat.div_mul_le_self (n + chunk - 1) chunk
  unfold roundUp
  omega

theorem roundUp_of_dvd {n chunk : ℕ} (h : chunk ∣ n) : roundUp n chunk = n := by
  obtain ⟨k, rfl⟩ := h
  rcases Nat.eq_zero_or_pos chunk with rfl | hpos
  · simp [roundUp]
  · rw [roundUp, Nat.add_sub_assoc hpos, Nat.mul_add_div hpos,
      Nat.div_eq_of_lt (Nat.sub_lt hpos Nat.one_pos), Nat.add_zero, Nat.mul_comm]

/-- Rounding up what is not a multiple goes to the next one. -/
theorem roundUp_of_not_dvd {n chunk : ℕ} (hpos : 0 < chunk) (h : ¬ chunk ∣ n) :
    roundUp n chunk = (n / chunk + 1) * chunk := by
  have hmod : 0 < n % chunk := Nat.pos_of_ne_zero fun hz => h (Nat.dvd_of_mod_eq_zero hz)
  have hlt := Nat.mod_lt n hpos
  have hsplit : n + chunk - 1 = (n / chunk + 1) * chunk + (n % chunk - 1) := by
    have := Nat.div_add_mod' n chunk
    rw [Nat.add_mul, Nat.one_mul]
    omega
  rw [roundUp, hsplit, Nat.add_comm, Nat.add_mul_div_right _ _ hpos,
    Nat.div_eq_of_lt (by omega), Nat.zero_add]

end Tklb.Foundation
