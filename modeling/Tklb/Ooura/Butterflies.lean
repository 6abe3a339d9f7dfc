import Mathlib.Data.Complex.Basic
import Mathlib.Tactic.LinearCombination
import Mathlib.Tactic.Linarith
import Tklb.Foundation.Decimation
import Tklb.Ooura.Tables

/-!
# Combining complex numbers

`combine`, `combineEighth`, `combineEven` and `combineOdd` do the same to the complex numbers
they work on: `radixFour τ`, with a different way of multiplying by the powers of `τ` in each
(`number_combine`, …).  A pass of `cftmdl` goes through the blocks, every block with the factor
that is in the table under its number (`number_cftmdl`), so it is a pass in the sense of
`RadixPass` (`radixPass_fourPass`).  `cft1st` is `cftmdl` for the distance `2`, written out
(`cft1st_eq_cftmdl`).

### What is load-bearing

* `number_combine` and its siblings are the only lemmas about the arithmetic of single blocks:
  real and imaginary parts are put together, and `radixFour` comes out.  The factors `τ`, `τ ^
  2` and `τ ^ 3` have different tables in the source, and the third one is computed from the others.
* `Twiddles` is what a pass needs of the table, no more: the factors of as many blocks as there
  are.  `Ooura.Complex` derives it from what the constructor leaves.
* `radixPass_fourPass` hands the pass over to `Foundation.Decimation`; from there on nothing is
  about four numbers any more.
-/

namespace Tklb

open Foundation

namespace Ooura

theorem number_store (x : ℕ) (re im : ℝ) (a : ℕ → ℝ) :
    number (store (2 * x) re im a) = Function.update (number a) x ⟨re, im⟩ := by
  have hpair := pair_store x re im a
  funext i
  have hi := congrFun hpair i
  by_cases hx : i = x
  · subst hx
    rw [Function.update_self] at hi
    obtain ⟨hre, him⟩ := Prod.mk.inj hi
    rw [Function.update_self, number, hre, him]
  · rw [Function.update_of_ne hx] at hi
    rw [Function.update_of_ne hx]
    exact number_eq_iff.mpr hi

/-! ### Four numbers -/

section Four

variable (L c : ℕ)

/-- Four numbers at a distance of `L` are replaced, in the order of the source. -/
def setFour (v₀ v₁ v₂ v₃ : ℂ) (z : ℕ → ℂ) : ℕ → ℂ :=
  Function.update (Function.update (Function.update (Function.update z c v₀) (c + 2 * L) v₂)
    (c + L) v₁) (c + 3 * L) v₃

/-- What is made of four numbers. -/
def radixFour (τ : ℂ) (z : ℕ → ℂ) : ℕ → ℂ :=
  setFour L c (z c + z (c + L) + (z (c + 2 * L) + z (c + 3 * L)))
    (τ * (z c - z (c + L) + Complex.I * (z (c + 2 * L) - z (c + 3 * L))))
    (τ ^ 2 * (z c + z (c + L) - (z (c + 2 * L) + z (c + 3 * L))))
    (τ ^ 3 * (z c - z (c + L) - Complex.I * (z (c + 2 * L) - z (c + 3 * L)))) z

/-- The four stores of the source. -/
theorem number_stores (r₀ i₀ r₁ i₁ r₂ i₂ r₃ i₃ : ℝ) (a : ℕ → ℝ) :
    number (store (2 * c + 2 * L + 2 * L + 2 * L) r₃ i₃ (store (2 * c + 2 * L) r₁ i₁
      (store (2 * c + 2 * L + 2 * L) r₂ i₂ (store (2 * c) r₀ i₀ a)))) =
      setFour L c ⟨r₀, i₀⟩ ⟨r₁, i₁⟩ ⟨r₂, i₂⟩ ⟨r₃, i₃⟩ (number a) := by
  have h₁ : 2 * c + 2 * L = 2 * (c + L) := by ring
  have h₂ : 2 * (c + L) + 2 * L = 2 * (c + 2 * L) := by ring
  have h₃ : 2 * (c + 2 * L) + 2 * L = 2 * (c + 3 * L) := by ring
  rw [h₁, h₂, h₃, number_store, number_store, number_store, number_store, setFour]

theorem number_reads (a : ℕ → ℝ) : number a (c + L) =
      ⟨a (2 * c + 2 * L), a (2 * c + 2 * L + 1)⟩ ∧
    number a (c + 2 * L) = ⟨a (2 * c + 2 * L + 2 * L), a (2 * c + 2 * L + 2 * L + 1)⟩ ∧
    number a (c + 3 * L) =
      ⟨a (2 * c + 2 * L + 2 * L + 2 * L), a (2 * c + 2 * L + 2 * L + 2 * L + 1)⟩ := by
  have h₁ : 2 * c + 2 * L = 2 * (c + L) := by ring
  have h₂ : 2 * (c + L) + 2 * L = 2 * (c + 2 * L) := by ring
  have h₃ : 2 * (c + 2 * L) + 2 * L = 2 * (c + 3 * L) := by ring
  rw [h₁, h₂, h₃]
  exact ⟨rfl, rfl, rfl⟩

variable {L c}

theorem setFour_congr {v₀ v₁ v₂ v₃ v₀' v₁' v₂' v₃' : ℂ} (h₀ : v₀ = v₀') (h₁ : v₁ = v₁')
    (h₂ : v₂ = v₂') (h₃ : v₃ = v₃') (z : ℕ → ℂ) :
    setFour L c v₀ v₁ v₂ v₃ z = setFour L c v₀' v₁' v₂' v₃' z := by
  rw [h₀, h₁, h₂, h₃]

/-- In the first block the factor is `1`. -/
theorem number_combine (a : ℕ → ℝ) :
    number (combine (2 * L) (2 * c) a) = radixFour L c 1 (number a) := by
  obtain ⟨h₁, h₂, h₃⟩ := number_reads L c a
  rw [combine]
  dsimp only [butterfly]
  rw [number_stores, radixFour, h₁, h₂, h₃, one_pow, one_pow]
  refine setFour_congr ?_ ?_ ?_ ?_ _
  all_goals
    apply Complex.ext <;>
    simp only [number, Complex.add_re, Complex.add_im, Complex.sub_re, Complex.sub_im,
      Complex.mul_re, Complex.mul_im, Complex.I_re, Complex.I_im, Complex.one_re,
      Complex.one_im] <;>
    ring

/-- In the second one it is on the diagonal. -/
theorem number_combineEighth {τ : ℂ} {wk1r : ℝ} (h₁ : τ = ⟨wk1r, wk1r⟩)
    (h₂ : τ ^ 2 = Complex.I) (a : ℕ → ℝ) :
    number (combineEighth (2 * L) wk1r (2 * c) a) = radixFour L c τ (number a) := by
  obtain ⟨hr₁, hr₂, hr₃⟩ := number_reads L c a
  rw [combineEighth]
  dsimp only [butterfly]
  rw [number_stores, radixFour, hr₁, hr₂, hr₃, pow_succ τ 2, h₂, h₁]
  refine setFour_congr ?_ ?_ ?_ ?_ _
  all_goals
    apply Complex.ext <;>
    simp only [number, Complex.add_re, Complex.add_im, Complex.sub_re, Complex.sub_im,
      Complex.mul_re, Complex.mul_im, Complex.I_re, Complex.I_im] <;>
    ring

/-- In the others it is any number, whose square and cube are passed as well. -/
theorem number_combineEven {τ : ℂ} {wk1r wk1i wk2r wk2i wk3r wk3i : ℝ} (h₁ : τ = ⟨wk1r, wk1i⟩)
    (h₂ : τ ^ 2 = ⟨wk2r, wk2i⟩) (h₃ : τ ^ 3 = ⟨wk3r, wk3i⟩) (a : ℕ → ℝ) :
    number (combineEven (2 * L) wk1r wk1i wk2r wk2i wk3r wk3i (2 * c) a) =
      radixFour L c τ (number a) := by
  obtain ⟨hr₁, hr₂, hr₃⟩ := number_reads L c a
  rw [combineEven]
  dsimp only [butterfly]
  rw [number_stores, radixFour, hr₁, hr₂, hr₃, h₂, h₃, h₁]
  refine setFour_congr ?_ ?_ ?_ ?_ _
  all_goals
    apply Complex.ext <;>
    simp only [number, Complex.add_re, Complex.add_im, Complex.sub_re, Complex.sub_im,
      Complex.mul_re, Complex.mul_im, Complex.I_re, Complex.I_im] <;>
    ring

/-- The second block of a pair does what the first one does, with its square turned by a right
angle. -/
theorem combineOdd_eq (l : ℕ) (wk1r wk1i wk2r wk2i wk3r wk3i : ℝ) :
    combineOdd l wk1r wk1i wk2r wk2i wk3r wk3i =
      combineEven l wk1r wk1i (-wk2i) wk2r wk3r wk3i := rfl

end Four

/-! ### Cells -/

section Cells

variable {L c : ℕ}

/-- The places of four numbers. -/
def fourCells (L c : ℕ) : Set ℕ := {i | ∃ q < 4, i = c + q * L}

theorem setFour_of_mem (hL : 0 < L) (v : ℕ → ℂ) (z : ℕ → ℂ) {q : ℕ} (hq : q < 4) :
    setFour L c (v 0) (v 1) (v 2) (v 3) z (c + q * L) = v q := by
  rw [setFour]
  interval_cases q
  · rw [Nat.zero_mul, Nat.add_zero, Function.update_of_ne (by omega),
      Function.update_of_ne (by omega), Function.update_of_ne (by omega), Function.update_self]
  · rw [Nat.one_mul, Function.update_of_ne (by omega), Function.update_self]
  · rw [Function.update_of_ne (by omega), Function.update_of_ne (by omega),
      Function.update_self]
  · rw [Function.update_self]

theorem setFour_of_notMem {i : ℕ} (hi : i ∉ fourCells L c) (v₀ v₁ v₂ v₃ : ℂ) (z : ℕ → ℂ) :
    setFour L c v₀ v₁ v₂ v₃ z i = z i := by
  have hne : ∀ q < 4, i ≠ c + q * L := fun q hq h => hi ⟨q, hq, h⟩
  have hzero := hne 0 (by decide)
  have hone := hne 1 (by decide)
  rw [Nat.zero_mul, Nat.add_zero] at hzero
  rw [Nat.one_mul] at hone
  rw [setFour, Function.update_of_ne (hne 3 (by decide)), Function.update_of_ne hone,
    Function.update_of_ne (hne 2 (by decide)), Function.update_of_ne hzero]

/-- Replacing four numbers by something that is computed from them. -/
theorem actsOn_setFour (hL : 0 < L) {v : (ℕ → ℂ) → ℕ → ℂ}
    (hv : ∀ z z', (∀ q < 4, z (c + q * L) = z' (c + q * L)) → v z = v z') :
    ActsOn (fourCells L c) fun z => setFour L c (v z 0) (v z 1) (v z 2) (v z 3) z where
  kept z i hi := setFour_of_notMem hi _ _ _ _ z
  determined := by
    rintro z z' hsame i ⟨q, hq, rfl⟩
    rw [setFour_of_mem hL (v z) z hq, setFour_of_mem hL (v z') z' hq,
      hv z z' fun q hq => hsame _ ⟨q, hq, rfl⟩]

/-- The four results, before they are stored. -/
def fourSums (L c : ℕ) (τ : ℂ) (z : ℕ → ℂ) (q : ℕ) : ℂ :=
  τ ^ q * ∑ u ∈ Finset.range 4, Complex.I ^ (u * q) * z (c + reverseBits 2 u * L)

theorem fourSums_eq (L c : ℕ) (τ : ℂ) (z : ℕ → ℂ) (q : ℕ) : fourSums L c τ z q =
    τ ^ q * (z c + Complex.I ^ q * z (c + 2 * L) + Complex.I ^ (2 * q) * z (c + L) +
      Complex.I ^ (3 * q) * z (c + 3 * L)) := by
  have hreversed : reverseBits 2 0 = 0 ∧ reverseBits 2 1 = 2 ∧ reverseBits 2 2 = 1 ∧
      reverseBits 2 3 = 3 := by decide
  obtain ⟨h₀, h₁, h₂, h₃⟩ := hreversed
  rw [fourSums, Finset.sum_range_succ, Finset.sum_range_succ, Finset.sum_range_succ,
    Finset.sum_range_one, h₀, h₁, h₂, h₃, Nat.zero_mul, Nat.zero_mul, Nat.add_zero, pow_zero,
    one_mul, Nat.one_mul, Nat.one_mul]

theorem radixFour_eq (L c : ℕ) (τ : ℂ) (z : ℕ → ℂ) : radixFour L c τ z =
    setFour L c (fourSums L c τ z 0) (fourSums L c τ z 1) (fourSums L c τ z 2)
      (fourSums L c τ z 3) z := by
  rw [radixFour, fourSums_eq, fourSums_eq, fourSums_eq, fourSums_eq]
  refine setFour_congr ?_ ?_ ?_ ?_ z
  · ring
  · linear_combination -τ * (z (c + L) + Complex.I * z (c + 3 * L)) * Complex.I_sq
  · linear_combination τ ^ 2 * (z (c + L) * (1 - Complex.I ^ 2) - z (c + 2 * L) -
      z (c + 3 * L) * (1 - Complex.I ^ 2 + Complex.I ^ 4)) * Complex.I_sq
  · linear_combination τ ^ 3 * (-z (c + L) * (1 - Complex.I ^ 2 + Complex.I ^ 4) -
      Complex.I * z (c + 2 * L) + Complex.I * z (c + 3 * L) * (1 - Complex.I ^ 2) *
        (1 + Complex.I ^ 4)) * Complex.I_sq

theorem actsOn_radixFour (hL : 0 < L) (τ : ℂ) :
    ActsOn (fourCells L c) (radixFour L c τ) := by
  rw [show radixFour L c τ = _ from funext (radixFour_eq L c τ)]
  refine actsOn_setFour hL fun z z' hsame => funext fun q => ?_
  rw [fourSums, fourSums]
  congr 1
  refine Finset.sum_congr rfl fun u _ => ?_
  rw [hsame _ (reverseBits_lt 2 u)]

end Cells

/-! ### Passes -/

section Passes

variable {L B : ℕ}

/-- The numbers of a pass in their order: block, then quarter, then place. -/
theorem fourCells_unique {b b' r r' i : ℕ} (hr : r < L) (hr' : r' < L)
    (h : i ∈ fourCells L (b * (4 * L) + r)) (h' : i ∈ fourCells L (b' * (4 * L) + r')) :
    b = b' ∧ r = r' := by
  obtain ⟨q, hq, rfl⟩ := h
  obtain ⟨q', hq', heq⟩ := h'
  have hinside : ∀ q < 4, ∀ r < L, q * L + r < 4 * L := by
    intro q hq r hr
    have hrow : (q + 1) * L ≤ 4 * L := Nat.mul_le_mul_right L hq
    rw [Nat.succ_mul] at hrow
    omega
  have hcell : b * (4 * L) + (q * L + r) = b' * (4 * L) + (q' * L + r') := by omega
  obtain ⟨hb, hrest⟩ := stride_injective (hinside q hq r hr) (hinside q' hq' r' hr') hcell
  exact ⟨hb, (stride_injective hr hr' hrest).2⟩

/-- Going through blocks of fours, whatever is done to each four. -/
theorem fourLoop_of_mem (part : ℕ → ℕ → (ℕ → ℂ) → ℕ → ℂ)
    (h : ∀ b r, ActsOn (fourCells L (b * (4 * L) + r)) (part b r)) {b r i : ℕ} (hb : b < B)
    (hr : r < L) (hi : i ∈ fourCells L (b * (4 * L) + r)) (z : ℕ → ℂ) :
    countUp B (fun b => countUp L (part b)) z i = part b r z i := by
  have hrows : ∀ b, ∀ r < L, ∀ r' < L, r ≠ r' →
      ∀ c ∈ fourCells L (b * (4 * L) + r), c ∉ fourCells L (b * (4 * L) + r') :=
    fun b r hr r' hr' hne c hc hc' => hne (fourCells_unique hr hr' hc hc').2
  have hblocks : ∀ b < B, ActsOn {c | ∃ r < L, c ∈ fourCells L (b * (4 * L) + r)}
      (countUp L (part b)) := fun b _ => ActsOn.countUp (fun r _ => h b r) (hrows b)
  rw [countUp_of_mem hblocks ?_ hb ⟨r, hr, hi⟩, countUp_of_mem (fun r _ => h b r) (hrows b) hr hi]
  rintro b - b' - hne c ⟨r, hr, hc⟩ ⟨r', hr', hc'⟩
  exact hne (fourCells_unique hr hr' hc hc').1

/-- What is behind the last block stays. -/
theorem fourLoop_of_le (part : ℕ → ℕ → (ℕ → ℂ) → ℕ → ℂ)
    (h : ∀ b r, ActsOn (fourCells L (b * (4 * L) + r)) (part b r)) {i : ℕ}
    (hi : B * (4 * L) ≤ i) (z : ℕ → ℂ) : countUp B (fun b => countUp L (part b)) z i = z i := by
  refine countUp_invariant (fun _ (z' : ℕ → ℂ) => z' i = z i) rfl fun b hb z' hz' => ?_
  rw [← hz']
  refine countUp_of_notMem (fun r _ => h b r) (fun r hr hmem => ?_) z'
  obtain ⟨q, hq, rfl⟩ := hmem
  have hrow : (b + 1) * (4 * L) ≤ B * (4 * L) := Nat.mul_le_mul_right _ hb
  have hquarter : (q + 1) * L ≤ 4 * L := Nat.mul_le_mul_right L hq
  rw [Nat.succ_mul] at hrow hquarter
  omega

/-- One block of a pass. -/
def blockPass (τ : ℂ) (L b : ℕ) (z : ℕ → ℂ) : ℕ → ℂ :=
  countUp L (fun r => radixFour L (b * (4 * L) + r) τ) z

/-- A pass over `B` blocks. -/
def fourPass (τ : ℕ → ℂ) (L B : ℕ) (z : ℕ → ℂ) : ℕ → ℂ :=
  countUp B (fun b => blockPass (τ b) L b) z

/-- **A pass over blocks of fours is a pass of the transform.** -/
theorem radixPass_fourPass (hL : 0 < L) (τ : ℕ → ℂ) (k : ℕ) (z : ℕ → ℂ) :
    RadixPass Complex.I τ 2 k L z (fourPass τ L (2 ^ k) z) := by
  intro b hb q hq r hr
  have hindex : b * (2 ^ 2 * L) + (r + L * q) = b * (4 * L) + r + q * L := by ring
  have hpart := fourLoop_of_mem (fun b r => radixFour L (b * (4 * L) + r) (τ b))
    (fun b r => actsOn_radixFour hL (τ b)) hb hr ⟨q, hq, rfl⟩ z
  rw [hindex]
  refine hpart.trans ?_
  rw [radixFour_eq, setFour_of_mem hL (fourSums L _ (τ b) z) z hq, fourSums]
  congr 1
  refine Finset.sum_congr rfl fun u _ => ?_
  have hcell : (b * 2 ^ 2 + reverseBits 2 u) * L + r =
      b * (4 * L) + r + reverseBits 2 u * L := by ring
  rw [hcell]

theorem fourPass_of_le (hL : 0 < L) (τ : ℕ → ℂ) {i : ℕ} (hi : B * (4 * L) ≤ i) (z : ℕ → ℂ) :
    fourPass τ L B z i = z i :=
  fourLoop_of_le _ (fun b _ => actsOn_radixFour hL (τ b)) hi z

end Passes

/-! ### `cftmdl` and `cft1st` -/

section Cftmdl

/-- The factors of the first `B` blocks, which the table holds.  The squares are what the code
relies on when it computes one factor from another; that the first two factors are simple is used
where the code leaves out a multiplication. -/
structure Twiddles (B : ℕ) (τ : ℕ → ℂ) (w : ℕ → ℝ) : Prop where
  first : τ 0 = 1
  diagonal : 1 < B → (τ 1).re = (τ 1).im
  unit : ∀ b < B, (τ b).re ^ 2 + (τ b).im ^ 2 = 1
  even : ∀ κ, 2 * κ < B → τ (2 * κ) ^ 2 = τ κ
  odd : ∀ κ, 2 * κ + 1 < B → τ (2 * κ + 1) ^ 2 = Complex.I * τ κ
  table : ∀ b < B, number w b = τ b

/-- The third power of a point of the unit circle, as the source computes it. -/
theorem pow_three_of_unit {τ : ℂ} (hunit : τ.re ^ 2 + τ.im ^ 2 = 1) {v : ℝ}
    (hv : (τ ^ 2).im = v) :
    τ ^ 3 = ⟨τ.re - (2 : ℕ) * v * τ.im, (2 : ℕ) * v * τ.re - τ.im⟩ := by
  rw [sq, Complex.mul_im] at hv
  rw [pow_succ, sq, ← hv]
  apply Complex.ext
  · simp only [Complex.mul_re, Complex.mul_im, Nat.cast_ofNat]
    linear_combination τ.re * hunit
  · simp only [Complex.mul_re, Complex.mul_im, Nat.cast_ofNat]
    linear_combination -τ.im * hunit

/-- A loop over the numbers of a block. -/
theorem number_countBy {body : ℕ → (ℕ → ℝ) → ℕ → ℝ} (part : ℕ → (ℕ → ℂ) → ℕ → ℂ)
    (h : ∀ c a, number (body (2 * c) a) = part c (number a)) (c L : ℕ) (a : ℕ → ℝ) :
    number (countBy (2 * c) (2 * L + 2 * c) 2 body a) =
      countUp L (fun r => part (c + r)) (number a) := by
  rw [countBy_eq_countUp Nat.two_pos (n := L) (by ring)]
  refine (countUp_hom number (fun r _ a => ?_) a).symm
  rw [← h, Nat.mul_add, Nat.mul_comm r]

variable {L B : ℕ} {τ : ℕ → ℂ} {w : ℕ → ℝ}

/-- The two blocks of an iteration have the factors with their numbers. -/
theorem number_combinePair (hτ : Twiddles B τ w) {κ : ℕ} (hκ : 2 * κ + 1 < B) (a : ℕ → ℝ) :
    number (combinePair (2 * L) w (2 * κ) (2 * (2 * κ * (4 * L))) (2 * (4 * L)) a) =
      blockPass (τ (2 * κ + 1)) L (2 * κ + 1) (blockPass (τ (2 * κ)) L (2 * κ) (number a)) := by
  have hsame := hτ.table κ (by omega)
  have heven := hτ.table (2 * κ) (by omega)
  have hodd := hτ.table (2 * κ + 1) hκ
  have hsecond : 2 * (2 * κ * (4 * L)) + 2 * (4 * L) = 2 * ((2 * κ + 1) * (4 * L)) := by ring
  have hevenSq : τ (2 * κ) ^ 2 = ⟨w (2 * κ), w (2 * κ + 1)⟩ := by
    rw [hτ.even κ (by omega), ← hsame, number]
  have hoddSq : τ (2 * κ + 1) ^ 2 = ⟨-w (2 * κ + 1), w (2 * κ)⟩ := by
    rw [hτ.odd κ hκ, ← hsame, number]
    apply Complex.ext <;> simp
  have hevenCube := pow_three_of_unit (hτ.unit _ (by omega)) (congrArg Complex.im hevenSq)
  have hoddCube := pow_three_of_unit (hτ.unit _ hκ) (congrArg Complex.im hoddSq)
  rw [← heven, number] at hevenCube hevenSq
  rw [← hodd, number] at hoddCube hoddSq
  rw [combinePair]
  dsimp only at hevenCube hoddCube ⊢
  rw [hsecond, number_countBy (fun c => radixFour L c (τ (2 * κ + 1))),
    number_countBy (fun c => radixFour L c (τ (2 * κ)))]
  · rfl
  · exact fun c a => number_combineEven (by rw [← heven, number]) (by rw [← heven]; exact hevenSq)
      (by rw [← heven]; exact hevenCube) a
  · intro c a
    rw [combineOdd_eq]
    exact number_combineEven (by rw [← hodd, number]; rfl) (by rw [← hodd]; exact hoddSq)
      (by rw [← hodd]; exact hoddCube) a

/-- The first block, and a last pass of a single block. -/
theorem number_countBy_combine (L : ℕ) (a : ℕ → ℝ) :
    number (countBy 0 (2 * L) 2 (combine (2 * L)) a) = blockPass 1 L 0 (number a) := by
  have hloop := number_countBy (fun c => radixFour L c 1) (fun c a => number_combine a) 0 L a
  rw [Nat.mul_zero, Nat.add_zero] at hloop
  rw [hloop, blockPass, Nat.zero_mul]

/-- The second block. -/
theorem number_countBy_combineEighth (hτ : Twiddles B τ w) (hB : 1 < B) (a : ℕ → ℝ) :
    number (countBy (2 * (4 * L)) (2 * L + 2 * (4 * L)) 2 (combineEighth (2 * L) (w 2)) a) =
      blockPass (τ 1) L 1 (number a) := by
  have htable := hτ.table 1 hB
  have hre : w 2 = (τ 1).re := by rw [← htable, number]
  have hone : τ 1 = ⟨w 2, w 2⟩ := by
    apply Complex.ext
    · exact hre.symm
    · rw [← hτ.diagonal hB]
      exact hre.symm
  have hsq : τ 1 ^ 2 = Complex.I := by rw [hτ.odd 0 hB, hτ.first, mul_one]
  rw [number_countBy (fun c => radixFour L c (τ 1)) fun c a =>
    number_combineEighth hone hsq a, blockPass, Nat.one_mul]

theorem countUp_pairs {S : Type} (K : ℕ) (body : ℕ → S → S) (s : S) :
    countUp (2 * K) body s = countUp K (fun i s => body (2 * i + 1) (body (2 * i) s)) s := by
  induction K with
  | zero => rfl
  | succ K ih => rw [Nat.mul_succ, countUp_succ, countUp_succ, ih, countUp_succ]

/-- **A pass of `cftmdl`** over an even number of blocks.  All blocks are combined with the factor
of their number; the first two have code of their own in the source, since their factors are simple.
-/
theorem number_cftmdl {K n : ℕ} (hK : 0 < K) (hL : 0 < L) (hn : n = 2 * (2 * K * (4 * L)))
    (hτ : Twiddles (2 * K) τ w) (a : ℕ → ℝ) :
    number (cftmdl n (2 * L) a w) = fourPass τ L (2 * K) (number a) := by
  obtain ⟨J, rfl⟩ : ∃ J, K = J + 1 := ⟨K - 1, by omega⟩
  have hshift : (2 * L) <<< 2 = 2 * (4 * L) := by
    rw [Nat.shiftLeft_eq]
    ring
  have hcounter : ∀ (body : ℕ → ℕ → (ℕ → ℝ) → ℕ → ℝ) (a : ℕ → ℝ),
      (countUp J (fun i (s : ℕ × (ℕ → ℝ)) => (s.1 + 2, body i (s.1 + 2) s.2)) (0, a)).2 =
        countUp J (fun i => body i (2 * i + 2)) a := by
    intro body a
    exact congrArg Prod.snd
      (countUp_counter (· + 2) (2 * ·) (fun _ => rfl) (fun i k1 => body i (k1 + 2)) a)
  rw [cftmdl, hshift]
  dsimp only
  rw [countBy_eq_countUp (n := J) (by omega) (by rw [hn]; ring),
    hcounter fun i k1 => combinePair (2 * L) w k1 (2 * (2 * (4 * L)) + i * (2 * (2 * (4 * L))))
      (2 * (4 * L)), fourPass, countUp_pairs, countUp_succ_first]
  have hfirst :
      blockPass (τ (2 * 0 + 1)) L (2 * 0 + 1) (blockPass (τ (2 * 0)) L (2 * 0) (number a)) =
      number (countBy (2 * (4 * L)) (2 * L + 2 * (4 * L)) 2 (combineEighth (2 * L) (w 2))
        (countBy 0 (2 * L) 2 (combine (2 * L)) a)) := by
    rw [number_countBy_combineEighth hτ (by omega), number_countBy_combine, Nat.mul_zero, hτ.first]
  rw [hfirst]
  refine (countUp_hom number (fun i hi a => ?_) _).symm
  have hstart : 2 * (2 * (4 * L)) + i * (2 * (2 * (4 * L))) =
      2 * (2 * (i + 1) * (4 * L)) := by ring
  rw [hstart, ← Nat.mul_succ 2 i, number_combinePair hτ (by omega)]

/-- **`cft1st` is `cftmdl`** with the four numbers next to each other.  The source has the two
functions side by side, the first being the second with the distance put in and without the
innermost loop, which would run once; so only one of them has to be verified. -/
theorem cft1st_eq_cftmdl {α : Type} [CommRing α] (n : ℕ) (a w : ℕ → α) :
    cft1st n a w = cftmdl n 2 a w := by
  have hsingle : ∀ (k : ℕ) (body : ℕ → (ℕ → α) → ℕ → α) (a : ℕ → α),
      countBy k (2 + k) 2 body a = body k a := by
    intro k body a
    rw [countBy_eq_countUp Nat.two_pos (n := 1) (by ring), countUp_succ, countUp_zero,
      Nat.zero_mul, Nat.add_zero]
  have hpair : ∀ k1 k a, combinePair 2 w k1 k 8 a = firstPair w k1 k a := by
    intro k1 k a
    rw [combinePair, hsingle, hsingle, firstPair]
  rw [cft1st, cftmdl]
  dsimp only
  rw [show (2 : ℕ) <<< 2 = 8 from rfl, show 2 * 8 = 16 from rfl, hsingle 0, hsingle 8]
  simp only [hpair]

end Cftmdl

end Ooura

end Tklb
