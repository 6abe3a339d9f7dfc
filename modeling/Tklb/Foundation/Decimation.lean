import Mathlib.Algebra.BigOperators.Group.Finset.Basic
import Mathlib.Algebra.BigOperators.Ring.Finset
import Mathlib.Algebra.Ring.GeomSum
import Mathlib.RingTheory.RootsOfUnity.PrimitiveRoots
import Tklb.Foundation.BitReversal

/-!
# The fast Fourier transform by decimation

`dftSum N ω x k` is bin `k` of the transform of `x 0, …, x (N - 1)` with the root of unity
`ω`.  The samples `n, n + s, …` contribute `strided ω x s L n k` to it; this is one sample at
first and all of the bin in the end.  `strided_mul` combines `R` neighbouring contributions
into `R` bins, up to a factor that depends on the residue `n` only.

In memory the contributions are kept in blocks, the bins of one residue in each, and the
blocks in bit-reversed order (`Arranged`).  Then the `R` contributions to combine are next to
one another, and the combined ones fit in their place (`RadixPass`, `Arranged.pass`), so a
transform is a sequence of passes over a memory that starts in bit-reversed order and ends in
the natural one.  The transform with the inverse root goes back (`dftSum_dftSum_inv`).

### What is load-bearing

`Arranged` is the invariant of a transform in place: after each pass it holds with longer
blocks. Its two ends are the reordering before the first pass and the natural order after the
last one, and `Arranged.pass` is the step.  The radix is a parameter, and a pass may combine
two, four or eight contributions, or as many as it likes, as long as it is a power of two; a
transform that mixes passes of different radix is verified with the same theorem.

Nothing is said about which root is used, so a transform and its inverse are two instances.  The
ring is arbitrary as well, and is a field where the way back divides by the length.
-/

namespace Tklb.Foundation

open Finset

variable {R : Type*} [CommRing R]

/-- Bin `k` of the transform of length `N` with the root `ω`. -/
def dftSum (N : ℕ) (ω : R) (x : ℕ → R) (k : ℕ) : R := ∑ n ∈ range N, x n * ω ^ (n * k)

/-- What `L` samples, `s` apart, contribute to bin `r`. -/
def strided (ω : R) (x : ℕ → R) (s L n r : ℕ) : R :=
  ∑ t ∈ range L, x (n + s * t) * ω ^ ((n + s * t) * r)

theorem strided_one (ω : R) (x : ℕ → R) (s n : ℕ) : strided ω x s 1 n 0 = x n := by
  rw [strided, sum_range_one, Nat.mul_zero, Nat.mul_zero, pow_zero, mul_one, Nat.add_zero]

theorem strided_all (ω : R) (x : ℕ → R) (N r : ℕ) : strided ω x 1 N 0 r = dftSum N ω x r := by
  refine sum_congr rfl fun t _ => ?_
  rw [Nat.zero_add, Nat.one_mul]

/-- A sum over the quotients and remainders. -/
theorem sum_range_mul {M : Type*} [AddCommMonoid M] (f : ℕ → M) (p L : ℕ) :
    ∑ t ∈ range (p * L), f t = ∑ u ∈ range p, ∑ t ∈ range L, f (u + p * t) := by
  induction L with
  | zero => simp only [Nat.mul_zero, sum_range_zero, sum_const_zero]
  | succ L ih =>
      rw [Nat.mul_succ, sum_range_add, ih]
      simp only [sum_range_succ, sum_add_distrib, Nat.add_comm]

/-- **Combining contributions.**  Bin `r + L * q` of the larger transform is a transform of length
`p` across the smaller ones, up to the factors that the larger root contributes. -/
theorem strided_mul {ω : R} {s p L : ℕ} (hω : ω ^ (s * (p * L)) = 1) (x : ℕ → R) (n r q : ℕ) :
    strided ω x s (p * L) n (r + L * q) =
      (ω ^ (n * L)) ^ q *
        ∑ u ∈ range p, (ω ^ (s * L)) ^ (u * q) * strided ω x (p * s) L (n + s * u) r := by
  rw [strided, sum_range_mul, mul_sum]
  refine sum_congr rfl fun u _ => ?_
  rw [strided, mul_sum, mul_sum]
  refine sum_congr rfl fun t _ => ?_
  have hindex : n + s * (u + p * t) = n + s * u + p * s * t := by ring
  have hexponent : (n + s * u + p * s * t) * (r + L * q) =
      n * L * q + (s * L * (u * q) + (n + s * u + p * s * t) * r) + s * (p * L) * (t * q) := by
    ring
  rw [hindex, hexponent, pow_add, pow_mul ω (s * (p * L)), hω, one_pow, mul_one, pow_add, pow_add,
    pow_mul, pow_mul]
  ring

/-! ### Passes -/

/-- The contributions, in blocks of `L` bins.  The blocks are in bit-reversed order: block `b`
belongs to the residue with the bits of `b` reversed. -/
def Arranged (ω : R) (x : ℕ → R) (k L : ℕ) (z : ℕ → R) : Prop :=
  ∀ b < 2 ^ k, ∀ r < L, z (b * L + r) = strided ω x (2 ^ k) L (reverseBits k b) r

/-- What a pass makes of the memory `z`: `2 ^ e` blocks at a time become one, `ι` is a root of
unity of order `2 ^ e` and `τ b` the factor of block `b`. -/
def RadixPass (ι : R) (τ : ℕ → R) (e k L : ℕ) (z z' : ℕ → R) : Prop :=
  ∀ b < 2 ^ k, ∀ q < 2 ^ e, ∀ r < L, z' (b * (2 ^ e * L) + (r + L * q)) =
    τ b ^ q * ∑ u ∈ range (2 ^ e), ι ^ (u * q) * z ((b * 2 ^ e + reverseBits e u) * L + r)

/-- Samples in bit-reversed order. -/
theorem arranged_of_reversed {ω : R} {x z : ℕ → R} {p : ℕ}
    (h : ∀ b < 2 ^ p, z b = x (reverseBits p b)) : Arranged ω x p 1 z := by
  intro b hb r hr
  obtain rfl : r = 0 := Nat.lt_one_iff.mp hr
  rw [Nat.mul_one, Nat.add_zero, h b hb, strided_one]

/-- **A pass.**  The factors are powers of `ω`, in bit-reversed order as well. -/
theorem Arranged.pass {ω ι : R} {τ : ℕ → R} {x z z' : ℕ → R} {e k L : ℕ}
    (hω : ω ^ (2 ^ k * (2 ^ e * L)) = 1) (hι : ι = ω ^ (2 ^ k * L))
    (hτ : ∀ b < 2 ^ k, τ b = ω ^ (reverseBits k b * L)) (hz : Arranged ω x (e + k) L z)
    (hpass : RadixPass ι τ e k L z z') : Arranged ω x k (2 ^ e * L) z' := by
  intro b hb p hp
  have hL : 0 < L := Nat.pos_of_mul_pos_left (Nat.zero_lt_of_lt hp)
  have hq : p / L < 2 ^ e := (Nat.div_lt_iff_lt_mul hL).mpr hp
  have hr : p % L < L := Nat.mod_lt p hL
  rw [← Nat.mod_add_div p L, hpass b hb _ hq _ hr, strided_mul hω, hτ b hb, hι]
  congr 1
  refine sum_congr rfl fun u hu => ?_
  rw [mem_range] at hu
  have hblock : b * 2 ^ e + reverseBits e u < 2 ^ (e + k) := by
    have hrow : (b + 1) * 2 ^ e ≤ 2 ^ k * 2 ^ e := Nat.mul_le_mul_right _ hb
    have hlow := reverseBits_lt e u
    rw [Nat.succ_mul] at hrow
    rw [Nat.add_comm e k, Nat.pow_add]
    omega
  have hreverse : reverseBits (e + k) (b * 2 ^ e + reverseBits e u) =
      reverseBits k b + 2 ^ k * u := by
    rw [Nat.add_comm (b * 2 ^ e), Nat.mul_comm b, reverseBits_add k (reverseBits_lt e u),
      reverseBits_reverseBits hu, Nat.add_comm, Nat.mul_comm u]
  rw [hz _ hblock _ hr, hreverse, ← Nat.pow_add]

/-- **The memory after the last pass** is the transform.  Then there is one residue and one block,
and its bins are in the natural order. -/
theorem Arranged.eq_dftSum {ω : R} {x z : ℕ → R} {N : ℕ} (h : Arranged ω x 0 N z) {k : ℕ}
    (hk : k < N) : z k = dftSum N ω x k := by
  have hbin := h 0 Nat.one_pos k hk
  rwa [Nat.zero_mul, Nat.zero_add, Nat.pow_zero, reverseBits_zero, strided_all] at hbin

/-! ### The inverse -/

section Inverse

variable {K : Type*} [Field K] {ω : K} {N : ℕ}

/-- The powers of a root of unity sum up to zero, unless it is one. -/
theorem sum_root_pow (hω : IsPrimitiveRoot ω N) {t i : ℕ} (ht : t < N) (hi : i < N) :
    ∑ k ∈ range N, (ω ^ t * ω⁻¹ ^ i) ^ k = if t = i then (N : K) else 0 := by
  have hunit : ω ≠ 0 := hω.ne_zero (Nat.ne_of_gt (Nat.zero_lt_of_lt ht))
  split
  · next heq =>
      rw [heq, ← mul_pow, mul_inv_cancel₀ hunit]
      simp
  · next hne =>
      have hpow : (ω ^ t * ω⁻¹ ^ i) ^ N = 1 := by
        rw [mul_pow, ← pow_mul, ← pow_mul, Nat.mul_comm t, Nat.mul_comm i, pow_mul, pow_mul,
          inv_pow, hω.pow_eq_one, inv_one, one_pow, one_pow, one_mul]
      have hdistinct : 1 - ω ^ t * ω⁻¹ ^ i ≠ 0 := by
        intro hzero
        rw [inv_pow, sub_eq_zero, eq_comm, mul_inv_eq_one₀ (pow_ne_zero i hunit)] at hzero
        exact hne (hω.pow_inj ht hi hzero)
      have hgeom := mul_neg_geom_sum (ω ^ t * ω⁻¹ ^ i) N
      rw [hpow, sub_self] at hgeom
      exact (mul_eq_zero.mp hgeom).resolve_left hdistinct

/-- **The transform with the inverse root** undoes the one with the root, up to the length. -/
theorem dftSum_dftSum_inv (hω : IsPrimitiveRoot ω N) (x : ℕ → K) {i : ℕ} (hi : i < N) :
    dftSum N ω⁻¹ (dftSum N ω x) i = N * x i := by
  calc dftSum N ω⁻¹ (dftSum N ω x) i
      = ∑ t ∈ range N, x t * ∑ k ∈ range N, (ω ^ t * ω⁻¹ ^ i) ^ k := by
        simp only [dftSum, sum_mul, mul_sum]
        rw [sum_comm]
        refine sum_congr rfl fun t _ => sum_congr rfl fun k _ => ?_
        rw [mul_pow, ← pow_mul, ← pow_mul, Nat.mul_comm i k]
        ring
    _ = ∑ t ∈ range N, x t * (if t = i then (N : K) else 0) := by
        refine sum_congr rfl fun t ht => ?_
        rw [sum_root_pow hω (mem_range.mp ht) hi]
    _ = N * x i := by
        rw [sum_eq_single i, if_pos rfl, mul_comm]
        · intro t _ hne
          rw [if_neg hne, mul_zero]
        · intro hnot
          exact absurd (mem_range.mpr hi) hnot

end Inverse

end Tklb.Foundation
