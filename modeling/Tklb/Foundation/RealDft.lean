import Mathlib.Analysis.Fourier.ZMod

/-!
# The discrete Fourier transform of real sequences

`realDft N x k` is bin `k` of the transform of `x 0, …, x (N - 1)`.  It is the transform of
Mathlib on `ZMod N` (`realDft_eq_dft`), stated for sequences of real numbers.

Two facts make it useful for convolving:

* the transform of a circular convolution is the product of the transforms
  (`realDft_circularConv`), and the circular convolution of two sequences that are zero in
  their second half is, in the first half, the linear one (`circularConv_of_padded`);
* a real sequence is determined by the bins `0, …, N / 2` (`realIdft_realDft`), so those are
  all that has to be stored.

### What is load-bearing

Mathlib has the transform on `ZMod N`, with its inverse and the transform of a convolution.
What is added here is the step from there to sequences of real numbers indexed by naturals, in
the form in which programs keep them: `period` cuts one period out of a sequence, `allBins`
completes half of the bins by conjugation.  Both results go back to those of Mathlib by
`realDft_eq_dft`.
-/

namespace Tklb.Foundation

open Finset
open scoped ZMod

/-- Bin `k` of the discrete Fourier transform of length `N`. -/
noncomputable def realDft (N : ℕ) (x : ℕ → ℝ) (k : ℕ) : ℂ :=
  ∑ n ∈ range N, (x n : ℂ) * Complex.exp (-(2 * Real.pi * Complex.I * (n * k) / N))

/-- The circular convolution of two sequences of period `N`. -/
def circularConv {α : Type*} [AddCommMonoid α] [Mul α] (N : ℕ) (x y : ℕ → α) (n : ℕ) : α :=
  ∑ i ∈ range N, x i * y ((n + (N - i)) % N)

/-! ### Linear and circular convolution -/

/-- Zeros in the second half keep what wraps around out of the first one. -/
theorem circularConv_of_padded {α : Type*} [NonUnitalNonAssocSemiring α] {N half n : ℕ}
    {x y : ℕ → α} (hN : N = 2 * half) (hx : ∀ i, half ≤ i → i < N → x i = 0)
    (hy : ∀ i, half ≤ i → i < N → y i = 0) (hn : n < half) :
    circularConv N x y n = ∑ i ∈ range (n + 1), x i * y (n - i) := by
  have hle : n + 1 ≤ N := by omega
  rw [circularConv, ← sum_subset (range_subset_range.mpr hle) ?_]
  · refine sum_congr rfl fun i hi => ?_
    rw [mem_range] at hi
    rw [show n + (N - i) = n - i + N by omega, Nat.add_mod_right, Nat.mod_eq_of_lt (by omega)]
  · intro i hi hni
    rw [mem_range] at hi hni
    by_cases hhalf : half ≤ i
    · rw [hx i hhalf hi, zero_mul]
    · -- the index wraps around into the zeros
      rw [Nat.mod_eq_of_lt (by omega), hy _ (by omega) (by omega), mul_zero]

/-! ### The transform on `ZMod` -/

section ZMod

variable {N : ℕ} [NeZero N]

/-- One period of a sequence. -/
def period (N : ℕ) (x : ℕ → ℝ) (j : ZMod N) : ℂ := x j.val

theorem sum_range_eq_sum_zmod {M : Type*} [AddCommMonoid M] (f : ℕ → M) :
    ∑ n ∈ range N, f n = ∑ j : ZMod N, f j.val := by
  refine (sum_nbij' (fun j : ZMod N => j.val) (fun n => (n : ZMod N)) ?_ ?_ ?_ ?_ ?_).symm
  · exact fun j _ => mem_range.mpr (ZMod.val_lt j)
  · exact fun n _ => mem_univ _
  · exact fun j _ => ZMod.natCast_zmod_val j
  · exact fun n hn => ZMod.val_cast_of_lt (mem_range.mp hn)
  · exact fun j _ => rfl

theorem realDft_eq_dft (x : ℕ → ℝ) (k : ℕ) :
    realDft N x k = ZMod.dft (period N x) (k : ZMod N) := by
  rw [realDft, sum_range_eq_sum_zmod, ZMod.dft_apply]
  refine sum_congr rfl fun j _ => ?_
  have hcast : -(j * (k : ZMod N)) = ((-(j.val * k : ℕ) : ℤ) : ZMod N) := by
    push_cast
    rw [ZMod.natCast_zmod_val]
  rw [hcast, ZMod.stdAddChar_coe, smul_eq_mul, mul_comm, period]
  congr 2
  push_cast
  ring

/-- **The convolution theorem.**  It is stated on `ZMod N`, where indices wrap around as they do in
a circular convolution. -/
theorem dft_convolution (Φ Ψ : ZMod N → ℂ) (k : ZMod N) :
    ZMod.dft (fun j => ∑ i, Φ i * Ψ (j - i)) k = ZMod.dft Φ k * ZMod.dft Ψ k := by
  rw [ZMod.dft_apply, ZMod.dft_apply, ZMod.dft_apply, sum_mul_sum]
  simp only [smul_eq_mul, mul_sum]
  rw [sum_comm]
  refine sum_congr rfl fun i _ => ?_
  refine Fintype.sum_equiv (Equiv.subRight i) _ _ fun j => ?_
  have hsplit : -(j * k) = -((j - i) * k) + -(i * k) := by ring
  rw [hsplit, AddChar.map_add_eq_mul, Equiv.subRight_apply]
  ring

theorem period_circularConv (x y : ℕ → ℝ) :
    period N (circularConv N x y) = fun j => ∑ i, period N x i * period N y (j - i) := by
  funext j
  rw [period, circularConv, sum_range_eq_sum_zmod]
  push_cast
  refine sum_congr rfl fun i _ => ?_
  have hindex : (j - i).val = (j.val + (N - i.val)) % N := by
    have hcast : ((j.val + (N - i.val) : ℕ) : ZMod N) = j - i := by
      rw [Nat.cast_add, Nat.cast_sub (ZMod.val_lt i).le, ZMod.natCast_zmod_val,
        ZMod.natCast_zmod_val, ZMod.natCast_self, zero_sub, sub_eq_add_neg]
    rw [← hcast, ZMod.val_natCast]
  rw [period, period, hindex]

/-- **The transform of a circular convolution** is the product of the transforms. -/
theorem realDft_circularConv (x y : ℕ → ℝ) (k : ℕ) :
    realDft N (circularConv N x y) k = realDft N x k * realDft N y k := by
  rw [realDft_eq_dft, period_circularConv, dft_convolution, ← realDft_eq_dft, ← realDft_eq_dft]

/-- The bins of a real sequence come in conjugate pairs. -/
theorem dft_period_neg (x : ℕ → ℝ) (k : ZMod N) :
    ZMod.dft (period N x) (-k) = starRingEnd ℂ (ZMod.dft (period N x) k) := by
  rw [ZMod.dft_apply, ZMod.dft_apply, map_sum]
  refine sum_congr rfl fun j _ => ?_
  rw [smul_eq_mul, smul_eq_mul, map_mul, mul_neg, ← AddChar.map_neg_eq_conj, period,
    Complex.conj_ofReal]

/-- The bins of a real sequence whose bins `0, …, N / 2` are given. -/
noncomputable def allBins (N : ℕ) (X : ℕ → ℂ) (k : ZMod N) : ℂ :=
  if k.val ≤ N / 2 then X k.val else starRingEnd ℂ (X (-k).val)

/-- The real sequence with the given bins. -/
noncomputable def realIdft (N : ℕ) [NeZero N] (X : ℕ → ℂ) (n : ℕ) : ℝ :=
  (ZMod.dft.symm (allBins N X) (n : ZMod N)).re

theorem allBins_congr {X Y : ℕ → ℂ} (h : ∀ k ≤ N / 2, X k = Y k) : allBins N X = allBins N Y := by
  funext k
  unfold allBins
  by_cases hk : k.val ≤ N / 2
  · rw [if_pos hk, if_pos hk, h _ hk]
  · -- the conjugate bin is in the first half
    have hne : k ≠ 0 := by
      rintro rfl
      rw [ZMod.val_zero] at hk
      omega
    have hneg : (-k).val ≤ N / 2 := by
      rw [ZMod.neg_val, if_neg hne]
      omega
    rw [if_neg hk, if_neg hk, h _ hneg]

/-- **A real sequence is determined by its bins up to half the length.** -/
theorem realIdft_realDft (x : ℕ → ℝ) {n : ℕ} (hn : n < N) : realIdft N (realDft N x) n = x n := by
  have hbins : allBins N (realDft N x) = ZMod.dft (period N x) := by
    funext k
    rw [allBins, realDft_eq_dft, realDft_eq_dft, ZMod.natCast_zmod_val, ZMod.natCast_zmod_val,
      dft_period_neg, Complex.conj_conj, ite_self]
  rw [realIdft, hbins, LinearEquiv.symm_apply_apply, period, ZMod.val_cast_of_lt hn,
    Complex.ofReal_re]

end ZMod

theorem realDft_sum {ι : Type*} (N : ℕ) (s : Finset ι) (x : ι → ℕ → ℝ) (k : ℕ) :
    realDft N (fun n => ∑ i ∈ s, x i n) k = ∑ i ∈ s, realDft N (x i) k := by
  simp only [realDft, Complex.ofReal_sum, sum_mul]
  exact sum_comm

/-- Only one period of the sequence matters. -/
theorem realDft_congr {N : ℕ} {x y : ℕ → ℝ} (h : ∀ n < N, x n = y n) (k : ℕ) :
    realDft N x k = realDft N y k := by
  refine sum_congr rfl fun n hn => ?_
  rw [h n (mem_range.mp hn)]

end Tklb.Foundation
