import Mathlib.Algebra.Order.Ring.Nat
import Mathlib.Tactic.Ring

/-!
# Reversing bits

`reverseBits p i` reads the `p` low bits of `i` from the other end.  The low bits of a number
become the high ones (`reverseBits_add`), so reversing twice changes nothing
(`reverseBits_reverseBits`).  In a number of three parts, the outer ones of one length,
reversing exchanges the outer parts (`reversal_threeParts`).

### What is load-bearing

A program that brings an array into bit-reversed order does not reverse the bits of every index.
It counts through the outer parts and keeps the middle, or the other way round, so what it needs
is the effect of reversing on numbers put together from parts.  `reversal_threeParts` is that,
for parts of any length.  The induction is in `reverseBits_add`, the case of two parts.
-/

namespace Tklb.Foundation

/-- The number whose `p` bits are the `p` low bits of `i`, in the opposite order. -/
def reverseBits : ℕ → ℕ → ℕ
  | 0, _ => 0
  | p + 1, i => i % 2 * 2 ^ p + reverseBits p (i / 2)

theorem reverseBits_lt (p i : ℕ) : reverseBits p i < 2 ^ p := by
  induction p generalizing i with
  | zero => exact Nat.one_pos
  | succ p ih =>
      have hbit : i % 2 * 2 ^ p ≤ 1 * 2 ^ p :=
        Nat.mul_le_mul_right _ (Nat.le_of_lt_succ (Nat.mod_lt i Nat.two_pos))
      have hrest := ih (i / 2)
      rw [reverseBits, Nat.pow_succ]
      omega

@[simp] theorem reverseBits_zero (p : ℕ) : reverseBits p 0 = 0 := by
  induction p with
  | zero => rfl
  | succ p ih => rw [reverseBits, Nat.zero_mod, Nat.zero_div, Nat.zero_mul, ih]

theorem reverseBits_one_of_lt {i : ℕ} (hi : i < 2) : reverseBits 1 i = i := by
  rw [reverseBits, reverseBits, Nat.mod_eq_of_lt hi, Nat.pow_zero, Nat.mul_one, Nat.add_zero]

/-- **The low bits become the high ones.**  A number of `p + q` bits is taken apart, and the two
parts, reversed on their own, change places. -/
theorem reverseBits_add (q : ℕ) {p u : ℕ} (hu : u < 2 ^ p) (v : ℕ) :
    reverseBits (p + q) (u + 2 ^ p * v) = reverseBits p u * 2 ^ q + reverseBits q v := by
  induction p generalizing u with
  | zero =>
      obtain rfl : u = 0 := Nat.lt_one_iff.mp hu
      rw [Nat.zero_add, Nat.zero_add, Nat.pow_zero, Nat.one_mul, reverseBits, Nat.zero_mul,
        Nat.zero_add]
  | succ p ih =>
      have hhalf : u / 2 < 2 ^ p := by
        rw [Nat.pow_succ] at hu
        omega
      have hlow : (u + 2 ^ (p + 1) * v) % 2 = u % 2 := by
        rw [Nat.pow_succ, Nat.mul_assoc, Nat.mul_left_comm, Nat.add_mul_mod_self_left]
      have hhigh : (u + 2 ^ (p + 1) * v) / 2 = u / 2 + 2 ^ p * v := by
        rw [Nat.pow_succ, Nat.mul_assoc, Nat.mul_left_comm, Nat.add_mul_div_left _ _ Nat.two_pos]
      rw [Nat.add_right_comm, reverseBits, hlow, hhigh, ih hhalf, reverseBits]
      ring

/-- Leading zeros become trailing ones. -/
theorem reverseBits_of_lt (q : ℕ) {p u : ℕ} (hu : u < 2 ^ p) :
    reverseBits (p + q) u = reverseBits p u * 2 ^ q := by
  have hsplit := reverseBits_add q hu 0
  rwa [Nat.mul_zero, Nat.add_zero, reverseBits_zero, Nat.add_zero] at hsplit

/-- **Reversing twice changes nothing.**  So reversing is a permutation of the numbers with `p`
bits, and exchanging each with its reversal is well defined. -/
theorem reverseBits_reverseBits {p i : ℕ} (hi : i < 2 ^ p) :
    reverseBits p (reverseBits p i) = i := by
  induction p generalizing i with
  | zero => exact (Nat.lt_one_iff.mp hi).symm
  | succ p ih =>
      -- the bit that comes out last goes in first
      have htop : i / 2 ^ p < 2 := by
        rw [Nat.div_lt_iff_lt_mul (Nat.two_pow_pos p), Nat.mul_comm]
        exact hi
      have hlow : i % 2 ^ p < 2 ^ p := Nat.mod_lt _ (Nat.two_pow_pos p)
      have hreverse : reverseBits (p + 1) i = reverseBits p (i % 2 ^ p) * 2 + i / 2 ^ p := by
        conv_lhs => rw [← Nat.mod_add_div i (2 ^ p)]
        rw [reverseBits_add 1 hlow, reverseBits_one_of_lt htop, Nat.pow_one]
      rw [hreverse, reverseBits, Nat.mul_comm _ 2, Nat.mul_add_mod, Nat.mod_eq_of_lt htop,
        Nat.mul_add_div Nat.two_pos, Nat.div_eq_of_lt htop, Nat.add_zero, ih hlow, Nat.mul_comm,
        Nat.add_comm, Nat.mod_add_div]

theorem reverseBits_injective {p i j : ℕ} (hi : i < 2 ^ p) (hj : j < 2 ^ p)
    (h : reverseBits p i = reverseBits p j) : i = j := by
  rw [← reverseBits_reverseBits hi, h, reverseBits_reverseBits hj]

/-- The reversal of the numbers with `p` bits; the others stay. -/
def reversal (p i : ℕ) : ℕ := if i < 2 ^ p then reverseBits p i else i

theorem reversal_of_lt {p i : ℕ} (hi : i < 2 ^ p) : reversal p i = reverseBits p i := if_pos hi

theorem reversal_of_le {p i : ℕ} (hi : 2 ^ p ≤ i) : reversal p i = i := if_neg hi.not_gt

theorem reversal_reversal (p i : ℕ) : reversal p (reversal p i) = i := by
  rcases Nat.lt_or_ge i (2 ^ p) with hi | hi
  · rw [reversal_of_lt hi, reversal_of_lt (reverseBits_lt p i), reverseBits_reverseBits hi]
  · rw [reversal_of_le hi, reversal_of_le hi]

/-! ### Numbers in three parts -/

/-- The number with the bits of `j` at the low end, those of `t` in the middle, and those of `k`
in the opposite order at the high end. -/
def threeParts (s q j t k : ℕ) : ℕ := j + 2 ^ s * (t + 2 ^ q * reverseBits s k)

section ThreeParts

variable {s q j t k : ℕ}

theorem threeParts_middle (s q j t k : ℕ) :
    threeParts s q j t k = threeParts s q j 0 k + t * 2 ^ s := by
  rw [threeParts, threeParts]
  ring

theorem threeParts_lt (hj : j < 2 ^ s) (ht : t < 2 ^ q) :
    threeParts s q j t k < 2 ^ (s + (q + s)) := by
  have hk := reverseBits_lt s k
  have hhigh : t + 2 ^ q * reverseBits s k < 2 ^ (q + s) := by
    have hrow : 2 ^ q * (reverseBits s k + 1) ≤ 2 ^ q * 2 ^ s := Nat.mul_le_mul_left _ hk
    rw [Nat.mul_succ] at hrow
    rw [Nat.pow_add]
    omega
  have hrow : 2 ^ s * (t + 2 ^ q * reverseBits s k + 1) ≤ 2 ^ s * 2 ^ (q + s) :=
    Nat.mul_le_mul_left _ hhigh
  rw [Nat.mul_succ] at hrow
  rw [Nat.pow_add 2 s, threeParts]
  omega

/-- **Reversing exchanges the outer parts.**  The outer parts are not reversed themselves, since the
high one is given in the opposite order already. -/
theorem reversal_threeParts (hj : j < 2 ^ s) (ht : t < 2 ^ q) (hk : k < 2 ^ s) :
    reversal (s + (q + s)) (threeParts s q j t k) = threeParts s q k (reverseBits q t) j := by
  rw [reversal_of_lt (threeParts_lt hj ht), threeParts, reverseBits_add _ hj,
    reverseBits_add _ ht, reverseBits_reverseBits hk, threeParts]
  ring

theorem threeParts_injective {j' t' k' : ℕ} (hj : j < 2 ^ s) (ht : t < 2 ^ q) (hk : k < 2 ^ s)
    (hj' : j' < 2 ^ s) (ht' : t' < 2 ^ q) (hk' : k' < 2 ^ s)
    (h : threeParts s q j t k = threeParts s q j' t' k') : j = j' ∧ t = t' ∧ k = k' := by
  have hlow : j = j' := by
    have hmod := congrArg (· % 2 ^ s) h
    simpa only [threeParts, Nat.add_mul_mod_self_left, Nat.mod_eq_of_lt hj,
      Nat.mod_eq_of_lt hj'] using hmod
  have hrest : t + 2 ^ q * reverseBits s k = t' + 2 ^ q * reverseBits s k' := by
    rw [threeParts, threeParts, hlow, Nat.add_left_cancel_iff] at h
    exact Nat.eq_of_mul_eq_mul_left (Nat.two_pow_pos s) h
  have hmiddle : t = t' := by
    have hmod := congrArg (· % 2 ^ q) hrest
    simpa only [Nat.add_mul_mod_self_left, Nat.mod_eq_of_lt ht, Nat.mod_eq_of_lt ht'] using hmod
  refine ⟨hlow, hmiddle, reverseBits_injective hk hk' ?_⟩
  rw [hmiddle, Nat.add_left_cancel_iff] at hrest
  exact Nat.eq_of_mul_eq_mul_left (Nat.two_pow_pos q) hrest

/-- Every number has three parts. -/
theorem exists_threeParts {i : ℕ} (hi : i < 2 ^ (s + (q + s))) :
    ∃ j t k, j < 2 ^ s ∧ t < 2 ^ q ∧ k < 2 ^ s ∧ i = threeParts s q j t k := by
  refine ⟨i % 2 ^ s, i / 2 ^ s % 2 ^ q, reverseBits s (i / 2 ^ s / 2 ^ q),
    Nat.mod_lt _ (Nat.two_pow_pos s), Nat.mod_lt _ (Nat.two_pow_pos q), reverseBits_lt s _, ?_⟩
  have hhigh : i / 2 ^ s / 2 ^ q < 2 ^ s := by
    rw [Nat.div_div_eq_div_mul, ← Nat.pow_add, Nat.div_lt_iff_lt_mul (Nat.two_pow_pos _),
      ← Nat.pow_add]
    rwa [Nat.add_comm s q]
  rw [threeParts, reverseBits_reverseBits hhigh, Nat.mod_add_div, Nat.mod_add_div]

end ThreeParts

end Tklb.Foundation
