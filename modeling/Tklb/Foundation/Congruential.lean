import Mathlib.Algebra.Ring.GeomSum
import Mathlib.Data.Fintype.EquivFin
import Mathlib.Data.Int.ModEq
import Mathlib.Data.Nat.ModEq
import Mathlib.Data.Nat.Prime.Basic
import Mathlib.RingTheory.Coprime.Lemmas
import Mathlib.Tactic.LinearCombination
import Mathlib.Tactic.Ring

/-!
# Linear congruential maps modulo a power of two

`congruential M a c` is the map `x ↦ a * x + c` modulo `M`.  After `n` steps it is again of
this form, with the multiplier `a ^ n` and the geometric sum `1 + a + … + a ^ (n - 1)` times
`c` as increment (`iterate_modEq`).  Modulo `2 ^ k`, if `a` leaves the remainder 1 modulo 4,
such a sum of `n` terms is divisible by `2 ^ k` exactly when `n` is
(`two_pow_dvd_geomSum`): doubling `n` doubles the sum, up to an odd factor.

If moreover `c` is odd, two positions of an orbit agree exactly if `2 ^ k` divides their
distance (`iterate_eq_iff`), and the orbit goes through all `2 ^ k` values before the first
one returns (`existsUnique_iterate`).

### What is load-bearing

`two_pow_dvd_geomSum` carries everything.  It is proved by taking out one factor of two at a
time: a sum of `2 * n` terms is the sum of `n` terms times `1 + a ^ n`, and that factor is even,
but not divisible by four.  The condition on `a` is used only there, and that on `c` only in
`iterate_modEq_iff`, where the distance of two neighbours has to be odd.

The results are about positions of an orbit and not about values.  So they hold from every
starting value, and two orbits of one map are the same orbit at another position.
-/

namespace Tklb.Foundation

open Finset

/-- `x ↦ a * x + c` modulo `M`. -/
def congruential (M a c x : ℕ) : ℕ := (a * x + c) % M

namespace Congruential

variable {M a c k m n x : ℕ}

theorem congruential_lt (hM : 0 < M) (x : ℕ) : congruential M a c x < M := Nat.mod_lt _ hM

/-- Several steps are one step of another congruential map. -/
theorem iterate_modEq (n x : ℕ) :
    (congruential M a c)^[n] x ≡ a ^ n * x + c * ∑ i ∈ range n, a ^ i [MOD M] := by
  induction n with
  | zero => simp [Nat.ModEq.refl]
  | succ n ih =>
      rw [Function.iterate_succ_apply']
      calc congruential M a c ((congruential M a c)^[n] x)
          ≡ a * (congruential M a c)^[n] x + c [MOD M] := Nat.mod_modEq _ _
        _ ≡ a * (a ^ n * x + c * ∑ i ∈ range n, a ^ i) + c [MOD M] :=
            (ih.mul_left a).add_right c
        _ = a ^ (n + 1) * x + c * ∑ i ∈ range (n + 1), a ^ i := by
            simp only [sum_range_succ', pow_succ, ← sum_mul]
            ring

/-! ### Geometric sums -/

theorem geomSum_two_mul (a m : ℕ) :
    ∑ i ∈ range (2 * m), a ^ i = (∑ i ∈ range m, a ^ i) * (1 + a ^ m) := by
  rw [two_mul, sum_range_add, mul_add, mul_one, sum_mul]
  congr 1
  apply sum_congr rfl
  intro i _
  rw [pow_add, mul_comm]

/-- With an odd ratio a sum is as odd as the number of its terms. -/
theorem geomSum_mod_two (ha : a % 2 = 1) (n : ℕ) : (∑ i ∈ range n, a ^ i) % 2 = n % 2 := by
  induction n with
  | zero => rfl
  | succ n ih =>
      have hpow : a ^ n % 2 = 1 := by simp [Nat.pow_mod, ha]
      rw [sum_range_succ]
      omega

/-- **The divisibility of a geometric sum** is the one of the number of its terms. -/
theorem two_pow_dvd_geomSum (ha : a % 4 = 1) (k n : ℕ) :
    2 ^ k ∣ ∑ i ∈ range n, a ^ i ↔ 2 ^ k ∣ n := by
  induction k generalizing n with
  | zero => simp
  | succ k ih =>
      rcases Nat.even_or_odd' n with ⟨m, rfl | rfl⟩
      · have hpow : a ^ m % 4 = 1 := by simp [Nat.pow_mod, ha]
        obtain ⟨q, hq⟩ : ∃ q, 1 + a ^ m = 2 * (2 * q + 1) := ⟨a ^ m / 4, by omega⟩
        have hodd : Nat.Coprime (2 ^ k) (2 * q + 1) :=
          Nat.Coprime.pow_left k (Nat.coprime_two_left.mpr ⟨q, rfl⟩)
        rw [geomSum_two_mul, hq, pow_succ', mul_left_comm,
          Nat.mul_dvd_mul_iff_left Nat.two_pos, Nat.mul_dvd_mul_iff_left Nat.two_pos,
          hodd.dvd_mul_right, ih]
      · -- both are odd
        have hsum := geomSum_mod_two (a := a) (by omega) (2 * m + 1)
        have htwo : 2 ∣ 2 ^ (k + 1) := Dvd.intro_left _ rfl
        refine iff_of_false (fun hdvd => ?_) (fun hdvd => ?_)
        · have := htwo.trans hdvd
          omega
        · have := htwo.trans hdvd
          omega

/-! ### The period -/

/-- The distance of two positions of an orbit. -/
theorem iterate_add_sub (i d x : ℕ) :
    ((a ^ (i + d) * x + c * ∑ j ∈ range (i + d), a ^ j : ℕ) : ℤ) -
      (a ^ i * x + c * ∑ j ∈ range i, a ^ j : ℕ) =
      a ^ i * ((∑ j ∈ range d, a ^ j : ℕ) * ((a - 1) * x + c)) := by
  have hgeom := geom_sum_mul (a : ℤ) d
  have hsplit : (∑ j ∈ range (i + d), (a : ℤ) ^ j) =
      ∑ j ∈ range i, (a : ℤ) ^ j + a ^ i * ∑ j ∈ range d, (a : ℤ) ^ j := by
    rw [sum_range_add, mul_sum]
    simp only [pow_add]
  push_cast
  rw [hsplit, pow_add]
  linear_combination -(a : ℤ) ^ i * x * hgeom

/-- **Two positions of an orbit** agree exactly if `2 ^ k` divides their distance. -/
theorem iterate_modEq_iff (ha : a % 4 = 1) (hc : c % 2 = 1) (i d x : ℕ) :
    (congruential (2 ^ k) a c)^[i + d] x ≡ (congruential (2 ^ k) a c)^[i] x [MOD 2 ^ k] ↔
      2 ^ k ∣ d := by
  have hcoprime : ∀ z : ℤ, z % 2 = 1 → IsCoprime ((2 ^ k : ℕ) : ℤ) z := by
    intro z hz
    rw [Nat.cast_pow]
    apply IsCoprime.pow_left
    exact ⟨-(z / 2), 1, by rw [Nat.cast_ofNat]; omega⟩
  have hpow : IsCoprime ((2 ^ k : ℕ) : ℤ) (a ^ i) := by
    apply IsCoprime.pow_right
    exact hcoprime a (by omega)
  have hstart : IsCoprime ((2 ^ k : ℕ) : ℤ) ((a - 1) * x + c) := by
    apply hcoprime
    obtain ⟨q, hq⟩ : ∃ q : ℤ, (a : ℤ) - 1 = 2 * q := ⟨a / 2, by omega⟩
    rw [hq, mul_assoc]
    omega
  calc (congruential (2 ^ k) a c)^[i + d] x ≡ (congruential (2 ^ k) a c)^[i] x [MOD 2 ^ k]
      ↔ a ^ i * x + c * ∑ j ∈ range i, a ^ j ≡
          a ^ (i + d) * x + c * ∑ j ∈ range (i + d), a ^ j [MOD 2 ^ k] :=
        ⟨fun h => ((iterate_modEq _ _).symm.trans (h.symm.trans (iterate_modEq _ _))),
          fun h => (iterate_modEq _ _).trans (h.symm.trans (iterate_modEq _ _).symm)⟩
    _ ↔ ((2 ^ k : ℕ) : ℤ) ∣
          a ^ i * ((∑ j ∈ range d, a ^ j : ℕ) * ((a - 1) * x + c)) := by
        rw [Nat.modEq_iff_dvd, iterate_add_sub]
    _ ↔ 2 ^ k ∣ ∑ j ∈ range d, a ^ j := by
        rw [← Int.natCast_dvd_natCast]
        exact ⟨fun h => hstart.dvd_of_dvd_mul_right (hpow.dvd_of_dvd_mul_left h),
          fun h => (h.mul_right _).mul_left _⟩
    _ ↔ 2 ^ k ∣ d := two_pow_dvd_geomSum ha k d

/-- An orbit that starts below `2 ^ k` stays there. -/
theorem iterate_lt (hx : x < 2 ^ k) (n : ℕ) : (congruential (2 ^ k) a c)^[n] x < 2 ^ k := by
  cases n with
  | zero => exact hx
  | succ n =>
      rw [Function.iterate_succ_apply']
      exact congruential_lt (Nat.two_pow_pos k) _

theorem iterate_eq_iff (ha : a % 4 = 1) (hc : c % 2 = 1) (hx : x < 2 ^ k) (i d : ℕ) :
    (congruential (2 ^ k) a c)^[i + d] x = (congruential (2 ^ k) a c)^[i] x ↔ 2 ^ k ∣ d := by
  rw [← iterate_modEq_iff ha hc i d x]
  exact ⟨fun h => by rw [h], fun h => h.eq_of_lt_of_lt (iterate_lt hx _) (iterate_lt hx _)⟩

/-- Positions of an orbit that are less than a period apart. -/
theorem iterate_injective (ha : a % 4 = 1) (hc : c % 2 = 1) (hx : x < 2 ^ k) {i j : ℕ}
    (hlt : i < j + 2 ^ k) (hlt' : j < i + 2 ^ k)
    (h : (congruential (2 ^ k) a c)^[i] x = (congruential (2 ^ k) a c)^[j] x) : i = j := by
  rcases Nat.le_total i j with hle | hle
  · obtain ⟨d, rfl⟩ := Nat.exists_eq_add_of_le hle
    have hdvd := (iterate_eq_iff ha hc hx i d).mp h.symm
    have := Nat.eq_zero_of_dvd_of_lt hdvd (by omega)
    omega
  · obtain ⟨d, rfl⟩ := Nat.exists_eq_add_of_le hle
    have hdvd := (iterate_eq_iff ha hc hx j d).mp h
    have := Nat.eq_zero_of_dvd_of_lt hdvd (by omega)
    omega

/-- **The full period.**  Every value comes once in `2 ^ k` steps. -/
theorem existsUnique_iterate (ha : a % 4 = 1) (hc : c % 2 = 1) (hx : x < 2 ^ k) {v : ℕ}
    (hv : v < 2 ^ k) : ∃! i, i < 2 ^ k ∧ (congruential (2 ^ k) a c)^[i] x = v := by
  let visit : Fin (2 ^ k) → Fin (2 ^ k) := fun i =>
    ⟨(congruential (2 ^ k) a c)^[i.val] x, iterate_lt hx _⟩
  have hinj : Function.Injective visit := by
    intro i j h
    apply Fin.ext
    exact iterate_injective ha hc hx (by omega) (by omega) (congrArg Fin.val h)
  obtain ⟨i, hi⟩ := Finite.surjective_of_injective hinj ⟨v, hv⟩
  refine ⟨i.val, ⟨i.isLt, congrArg Fin.val hi⟩, ?_⟩
  rintro j ⟨hj, hjv⟩
  have heq : visit ⟨j, hj⟩ = visit i := by
    rw [hi]
    exact Fin.ext hjv
  exact congrArg Fin.val (hinj heq)

end Congruential

end Tklb.Foundation
