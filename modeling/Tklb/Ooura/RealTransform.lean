import Mathlib.RingTheory.RootsOfUnity.Complex
import Tklb.Ooura.Complex

/-!
# `rdft`

The transform of `n` real numbers is computed from the transform of the `n / 2` complex numbers
they are made of: `rftfsub` separates the spectra of the real and the imaginary parts and puts
them together (`split`), `rftbsub` undoes that (`merge`).  So `rdft` leaves the spectrum of its
input, packed into the array (`rdft_forward_spec`), and backwards it leaves the input, times
`n / 2`.

### Main results

* `merge_split` — for one pair of bins, each step undoes the other.
* `split_pairSpectrum` — the separation of the spectra is the right one: from the transform of
  `n / 2` complex numbers to the transform of `n` real ones.
* `rdft_forward` and `rdft_backward` — the two directions of `rdft`, for every exponent.
* `backward_forward` and `forward_backward` — one after the other, in both orders.

### What is load-bearing

The bins of a real sequence come in conjugate pairs, so half of them are stored, and two of
these are real and share one place (`Packed`).  Every array is the packed spectrum of some
sequence, and that is why the second order needs no hypothesis about the array.

`TablesKept` says what `rdft` leaves of the tables.  The indices that `bitrv2` writes there are
not part of it, since they differ from call to call.
-/

namespace Tklb

open Foundation

namespace Ooura

/-! ### From one spectrum to the other -/

section Spectra

variable (p : ℕ)

/-- `wkr` and `wki` for bin `k`. -/
noncomputable def weight (k : ℕ) : ℂ :=
  (1 + Complex.I * root (2 ^ (p + 1)) ^ k) / (2 : ℕ)

theorem weight_eq_div (p k : ℕ) :
    weight p k = (1 + Complex.I * root (2 ^ (p + 1)) ^ k) / 2 := by
  rw [weight, Nat.cast_ofNat]

/-- What `rftfsub` makes of bin `k`. -/
noncomputable def split (z : ℕ → ℂ) (k : ℕ) : ℂ :=
  z k - weight p k * (z k - starRingEnd ℂ (z (2 ^ p - k)))

/-- What `rftbsub` makes of bin `k`, up to conjugation. -/
noncomputable def merge (z : ℕ → ℂ) (k : ℕ) : ℂ :=
  z k - starRingEnd ℂ (weight p k) * (z k - starRingEnd ℂ (z (2 ^ p - k)))

variable {p}

theorem conj_root_pow (N m : ℕ) : starRingEnd ℂ (root N ^ m) * root N ^ m = 1 := by
  have hcircle := Real.cos_sq_add_sin_sq (2 * Real.pi * m / N)
  rw [root_pow]
  apply Complex.ext
  · simp only [wheel_eq, Complex.mul_re, Complex.conj_re, Complex.conj_im, Complex.one_re]
    linear_combination hcircle
  · simp only [wheel_eq, Complex.mul_im, Complex.conj_re, Complex.conj_im, Complex.one_im]
    ring

theorem root_pow_two_pow (p : ℕ) : root (2 ^ (p + 1)) ^ 2 ^ p = -1 := by
  rw [Nat.add_comm]
  exact root_pow_half p

/-- The weights of bins opposite each other are conjugates. -/
theorem conj_weight {k : ℕ} (hk : k ≤ 2 ^ p) :
    starRingEnd ℂ (weight p (2 ^ p - k)) = weight p k := by
  have hopposite : starRingEnd ℂ (root (2 ^ (p + 1)) ^ (2 ^ p - k)) =
      -root (2 ^ (p + 1)) ^ k := by
    have hunit := conj_root_pow (2 ^ (p + 1)) (2 ^ p - k)
    have hturn : root (2 ^ (p + 1)) ^ (2 ^ p - k) * root (2 ^ (p + 1)) ^ k = -1 := by
      rw [← pow_add, Nat.sub_add_cancel hk, root_pow_two_pow]
    linear_combination -root (2 ^ (p + 1)) ^ k * hunit +
      starRingEnd ℂ (root (2 ^ (p + 1)) ^ (2 ^ p - k)) * hturn
  simp only [weight_eq_div, map_div₀, map_add, map_mul, map_one, Complex.conj_I, hopposite]
  rw [map_ofNat]
  ring

/-- A weight is on the circle around `1 / 2` through `0`. -/
theorem weight_add_conj (p k : ℕ) :
    weight p k + starRingEnd ℂ (weight p k) = 2 * (weight p k * starRingEnd ℂ (weight p k)) := by
  have hunit := conj_root_pow (2 ^ (p + 1)) k
  simp only [weight_eq_div, map_div₀, map_add, map_mul, map_one, Complex.conj_I]
  rw [map_ofNat]
  linear_combination (1 / 2 : ℂ) * Complex.I ^ 2 * hunit + (1 / 2 : ℂ) * Complex.I_sq

/-- **Each step undoes the other.**  Both combine a bin with the conjugate of its mirror image, and
with the same weight; so it is enough to look at one such pair. -/
theorem merge_split {z : ℕ → ℂ} {k : ℕ} (hk : k ≤ 2 ^ p) : merge p (split p z) k = z k := by
  have hweight := conj_weight hk
  have hcircle := weight_add_conj p k
  simp only [merge, split, map_sub, map_mul, Complex.conj_conj, hweight, Nat.sub_sub_self hk]
  linear_combination -(z k - starRingEnd ℂ (z (2 ^ p - k))) * hcircle

theorem split_merge {z : ℕ → ℂ} {k : ℕ} (hk : k ≤ 2 ^ p) : split p (merge p z) k = z k := by
  have hweight := conj_weight hk
  have hcircle := weight_add_conj p k
  simp only [merge, split, map_sub, map_mul, Complex.conj_conj, hweight, Nat.sub_sub_self hk]
  linear_combination -(z k - starRingEnd ℂ (z (2 ^ p - k))) * hcircle

end Spectra

/-! ### `rftfsub` and `rftbsub` -/

section Bins

/-- Rewriting the bins opposite each other, pair by pair. -/
theorem countUp_opposite {H : ℕ} (hH : 0 < H) (u v : ℕ → ℂ → ℂ → ℂ) (z : ℕ → ℂ) :
    (∀ k, 0 < k → k < H →
      countUp (H - 1) (fun i => rewriteTwo (i + 1) (2 * H - (i + 1)) (u (i + 1)) (v (i + 1))) z k =
          u k (z k) (z (2 * H - k)) ∧
        countUp (H - 1) (fun i => rewriteTwo (i + 1) (2 * H - (i + 1)) (u (i + 1)) (v (i + 1))) z
          (2 * H - k) = v k (z k) (z (2 * H - k))) ∧
    ∀ k, (k = 0 ∨ k = H ∨ 2 * H ≤ k) →
      countUp (H - 1) (fun i => rewriteTwo (i + 1) (2 * H - (i + 1)) (u (i + 1)) (v (i + 1))) z k =
        z k := by
  have hparts : ∀ i < H - 1, ActsOn {c | c = i + 1 ∨ c = 2 * H - (i + 1)}
      (rewriteTwo (i + 1) (2 * H - (i + 1)) (u (i + 1)) (v (i + 1))) :=
    fun i hi => actsOn_rewriteTwo _ _ (by omega)
  have hapart : ∀ i < H - 1, ∀ j < H - 1, i ≠ j → ∀ c ∈ {c | c = i + 1 ∨ c = 2 * H - (i + 1)},
      c ∉ {c | c = j + 1 ∨ c = 2 * H - (j + 1)} := by
    rintro i hi j hj hne c (rfl | rfl) (h | h) <;> omega
  refine ⟨fun k hpos hk => ?_, fun k hk => ?_⟩
  · obtain ⟨i, rfl⟩ : ∃ i, k = i + 1 := ⟨k - 1, by omega⟩
    have hi : i < H - 1 := by omega
    rw [countUp_of_mem hparts hapart hi (Or.inl rfl), countUp_of_mem hparts hapart hi (Or.inr rfl)]
    exact ⟨rewriteTwo_left _ _ (by omega) z, rewriteTwo_right _ _ _ _ z⟩
  · refine countUp_of_notMem hparts (fun i hi hmem => ?_) z
    rcases hmem with h | h <;> omega

variable {H j nc kk : ℕ} {c : ℕ → ℝ}

/-- The stores of `splitBins` and `mergeBins` do not meet. -/
theorem splitBins_eq {n : ℕ} (hjk : j + 1 < n - j) (a : ℕ → ℝ) : splitBins n nc kk c j a =
    let xr := a j - a (n - j)
    let xi := a (j + 1) + a (n - j + 1)
    let yr := (1 / (2 : ℕ) - c (nc - kk)) * xr - c kk * xi
    let yi := (1 / (2 : ℕ) - c (nc - kk)) * xi + c kk * xr
    store (n - j) (a (n - j) + yr) (a (n - j + 1) - yi)
      (store j (a j - yr) (a (j + 1) - yi) a) := by
  have hj : j + 1 ≠ j := Nat.succ_ne_self j
  have hk : n - j + 1 ≠ n - j := Nat.succ_ne_self _
  rw [splitBins, Function.update_of_ne hj, Function.update_of_ne hk,
    Function.update_of_ne (show n - j ≠ j + 1 by omega),
    Function.update_of_ne (show n - j ≠ j by omega),
    Function.update_of_ne (show n - j + 1 ≠ j + 1 by omega),
    Function.update_of_ne (show n - j + 1 ≠ j by omega)]
  rfl

theorem mergeBins_eq {n : ℕ} (hjk : j + 1 < n - j) (a : ℕ → ℝ) : mergeBins n nc kk c j a =
    let xr := a j - a (n - j)
    let xi := a (j + 1) + a (n - j + 1)
    let yr := (1 / (2 : ℕ) - c (nc - kk)) * xr + c kk * xi
    let yi := (1 / (2 : ℕ) - c (nc - kk)) * xi - c kk * xr
    store (n - j) (a (n - j) + yr) (yi - a (n - j + 1))
      (store j (a j - yr) (yi - a (j + 1)) a) := by
  have hj : j + 1 ≠ j := Nat.succ_ne_self j
  have hk : n - j + 1 ≠ n - j := Nat.succ_ne_self _
  rw [mergeBins, Function.update_of_ne hj, Function.update_of_ne hk,
    Function.update_of_ne (show n - j ≠ j + 1 by omega),
    Function.update_of_ne (show n - j ≠ j by omega),
    Function.update_of_ne (show n - j + 1 ≠ j + 1 by omega),
    Function.update_of_ne (show n - j + 1 ≠ j by omega)]
  rfl

/-- One iteration of `rftfsub`. -/
theorem number_splitBins {k : ℕ} {W : ℂ} (hk : k < H) (hW : W = ⟨1 / 2 - c (nc - kk), c kk⟩)
    (a : ℕ → ℝ) : number (splitBins (2 * (2 * H)) nc kk c (2 * k) a) =
      rewriteTwo k (2 * H - k) (fun x y => x - W * (x - starRingEnd ℂ y))
        (fun x y => y + starRingEnd ℂ (W * (x - starRingEnd ℂ y))) (number a) := by
  have hindex : 2 * (2 * H) - 2 * k = 2 * (2 * H - k) := by omega
  rw [splitBins_eq (by omega), hindex]
  dsimp only
  rw [number_store, number_store, rewriteTwo, hW]
  congr 1
  · congr 1
    apply Complex.ext <;> simp [number]
  · apply Complex.ext <;> simp [number] <;> ring

/-- One iteration of `rftbsub`. -/
theorem number_mergeBins {k : ℕ} {W : ℂ} (hk : k < H) (hW : W = ⟨1 / 2 - c (nc - kk), c kk⟩)
    (a : ℕ → ℝ) : number (mergeBins (2 * (2 * H)) nc kk c (2 * k) a) =
      rewriteTwo k (2 * H - k)
        (fun x y => starRingEnd ℂ (x - starRingEnd ℂ W * (x - starRingEnd ℂ y)))
        (fun x y => starRingEnd ℂ y + starRingEnd ℂ W * (x - starRingEnd ℂ y)) (number a) := by
  have hindex : 2 * (2 * H) - 2 * k = 2 * (2 * H - k) := by omega
  rw [mergeBins_eq (by omega), hindex]
  dsimp only
  rw [number_store, number_store, rewriteTwo, hW]
  congr 1
  · congr 1
    apply Complex.ext <;> simp [number] <;> ring
  · apply Complex.ext <;> simp [number]
    ring

end Bins

/-! ### Bins of the tables -/

section Tables

variable {q : ℕ} {ip : ℕ → ℕ} {w : ℕ → ℝ}

/-- The weights that are read from the table. -/
theorem Prepared.weight_eq (h : Prepared (q + 1) ip w) {k : ℕ} (hpos : 0 < k) (hk : k < 2 ^ q) :
    weight (q + 1) k =
      ⟨1 / 2 - behind (2 ^ q) w (2 ^ q - k), behind (2 ^ q) w k⟩ := by
  have hquarter : 2 ^ (q + 1 + 1) / 4 = 2 ^ q := two_pow_div_four q
  have hcos := h.cosines k hpos (by rwa [hquarter])
  have hsin := h.cosines (2 ^ q - k) (by omega) (by omega)
  have hangle : 2 * Real.pi * ((2 ^ q - k : ℕ) : ℝ) / (2 ^ (q + 1 + 1) : ℕ) =
      Real.pi / 2 - 2 * Real.pi * k / (2 ^ (q + 1 + 1) : ℕ) := by
    rw [Nat.cast_sub hk.le]
    push_cast
    field_simp
    ring
  rw [hquarter] at hcos hsin
  rw [hangle, Real.cos_pi_div_two_sub] at hsin
  rw [behind, behind, hcos, hsin, weight_eq_div, root_pow, wheel_eq]
  apply Complex.ext
  · simp
    ring
  · simp

/-- The bin in the middle stays. -/
theorem weight_middle (q : ℕ) : weight (q + 1) (2 ^ q) = 0 := by
  rw [weight_eq_div, root_pow_quarter, Complex.I_mul_I]
  norm_num

/-- The loop counter of `rftfsub` and `rftbsub`. -/
theorem countUp_bins (J : ℕ) (body : ℕ → ℕ → (ℕ → ℝ) → ℕ → ℝ) (a : ℕ → ℝ) :
    (countUp J (fun i (s : ℕ × (ℕ → ℝ)) => (s.1 + 1, body i (s.1 + 1) s.2)) (0, a)).2 =
      countUp J (fun i => body i (i + 1)) a :=
  congrArg Prod.snd (countUp_counter (· + 1) (fun i => i) (fun _ => rfl)
    (fun i kk => body i (kk + 1)) a)

/-- **`rftfsub`**.  All bins but the first and those behind the array are split; a bin and its
mirror image are read and written in one iteration, and the middle one, which the loop leaves out,
is what it should be already. -/
theorem number_rftfsub (h : Prepared (q + 1) ip w) (a : ℕ → ℝ) (k : ℕ) :
    number (rftfsub (2 ^ (q + 1 + 1)) a (2 ^ q) (behind (2 ^ q) w)) k =
      if 0 < k ∧ k < 2 ^ (q + 1) then split (q + 1) (number a) k else number a k := by
  have hpos := Nat.two_pow_pos q
  have hwhole : 2 ^ (q + 1) = 2 * 2 ^ q := Nat.pow_succ'
  have hlength : 2 ^ (q + 1 + 1) = 2 * (2 * 2 ^ q) := by rw [Nat.pow_succ', hwhole]
  have hhalf : (2 * (2 * 2 ^ q)) >>> 1 = 2 * 2 ^ q := by
    rw [Nat.shiftRight_eq_div_pow, Nat.pow_one, Nat.mul_div_cancel_left _ Nat.two_pos]
  have hloop : number (rftfsub (2 ^ (q + 1 + 1)) a (2 ^ q) (behind (2 ^ q) w)) =
      countUp (2 ^ q - 1) (fun i => rewriteTwo (i + 1) (2 * 2 ^ q - (i + 1))
        (fun x y => x - weight (q + 1) (i + 1) * (x - starRingEnd ℂ y))
        (fun x y => y + starRingEnd ℂ (weight (q + 1) (i + 1) * (x - starRingEnd ℂ y))))
        (number a) := by
    rw [rftfsub, hlength]
    dsimp only
    rw [hhalf, Nat.div_self (by omega), countBy_eq_countUp Nat.two_pos (n := 2 ^ q - 1) (by omega),
      countUp_bins _ fun i kk =>
        splitBins (2 * (2 * 2 ^ q)) (2 ^ q) kk (behind (2 ^ q) w) (2 + i * 2)]
    refine (countUp_hom number (fun i hi a => ?_) a).symm
    have hindex : 2 + i * 2 = 2 * (i + 1) := by ring
    rw [hindex, number_splitBins (by omega) (h.weight_eq (by omega) (by omega))]
  obtain ⟨hpairs, hothers⟩ := countUp_opposite hpos
    (fun k x y => x - weight (q + 1) k * (x - starRingEnd ℂ y))
    (fun k x y => y + starRingEnd ℂ (weight (q + 1) k * (x - starRingEnd ℂ y))) (number a)
  rw [hloop, hwhole]
  split
  · next hk =>
      rcases lt_trichotomy k (2 ^ q) with hlow | rfl | hhigh
      · rw [(hpairs k hk.1 hlow).1, Ooura.split, hwhole]
      · rw [hothers _ (Or.inr (Or.inl rfl)), Ooura.split, weight_middle, zero_mul, sub_zero]
      · obtain ⟨j, hj, rfl⟩ : ∃ j, j < 2 ^ q ∧ k = 2 * 2 ^ q - j :=
          ⟨2 * 2 ^ q - k, by omega, by omega⟩
        have hweight := conj_weight (p := q + 1) (k := 2 ^ (q + 1) - j) (by omega)
        rw [Nat.sub_sub_self (by omega), hwhole] at hweight
        rw [(hpairs j (by omega) hj).2, Ooura.split, hwhole, Nat.sub_sub_self (by omega), ← hweight]
        simp only [map_mul, map_sub, Complex.conj_conj]
        ring
  · next hk => rw [hothers k (by omega)]

/-- Turning the sign of an imaginary part. -/
theorem number_update_neg (a : ℕ → ℝ) (k : ℕ) :
    number (Function.update a (2 * k + 1) (-a (2 * k + 1))) =
      Function.update (number a) k (starRingEnd ℂ (number a k)) := by
  funext i
  by_cases hi : i = k
  · subst hi
    rw [Function.update_self, number, Function.update_self, Function.update_of_ne (by omega)]
    rfl
  · rw [Function.update_of_ne hi, number, Function.update_of_ne (by omega),
      Function.update_of_ne (by omega), number]

/-- **`rftbsub`**.  The bins are merged and conjugated, as the transform that follows expects them;
the first one is conjugated only. -/
theorem number_rftbsub (h : Prepared (q + 1) ip w) (a : ℕ → ℝ) (k : ℕ) :
    number (rftbsub (2 ^ (q + 1 + 1)) a (2 ^ q) (behind (2 ^ q) w)) k =
      if k = 0 then starRingEnd ℂ (number a 0)
      else if k < 2 ^ (q + 1) then starRingEnd ℂ (merge (q + 1) (number a) k)
      else number a k := by
  have hpos := Nat.two_pow_pos q
  have hwhole : 2 ^ (q + 1) = 2 * 2 ^ q := Nat.pow_succ'
  have hlength : 2 ^ (q + 1 + 1) = 2 * (2 * 2 ^ q) := by rw [Nat.pow_succ', hwhole]
  have hhalf : (2 * (2 * 2 ^ q)) >>> 1 = 2 * 2 ^ q := by
    rw [Nat.shiftRight_eq_div_pow, Nat.pow_one, Nat.mul_div_cancel_left _ Nat.two_pos]
  have hloop : number (rftbsub (2 ^ (q + 1 + 1)) a (2 ^ q) (behind (2 ^ q) w)) =
      let z := countUp (2 ^ q - 1) (fun i => rewriteTwo (i + 1) (2 * 2 ^ q - (i + 1))
        (fun x y => starRingEnd ℂ
          (x - starRingEnd ℂ (weight (q + 1) (i + 1)) * (x - starRingEnd ℂ y)))
        (fun x y => starRingEnd ℂ y +
          starRingEnd ℂ (weight (q + 1) (i + 1)) * (x - starRingEnd ℂ y)))
        (Function.update (number a) 0 (starRingEnd ℂ (number a 0)))
      Function.update z (2 ^ q) (starRingEnd ℂ (z (2 ^ q))) := by
    rw [rftbsub, hlength]
    dsimp only
    rw [hhalf, Nat.div_self (by omega), countBy_eq_countUp Nat.two_pos (n := 2 ^ q - 1) (by omega),
      countUp_bins _ fun i kk =>
        mergeBins (2 * (2 * 2 ^ q)) (2 ^ q) kk (behind (2 ^ q) w) (2 + i * 2),
      number_update_neg, ← number_update_neg a 0, ← countUp_hom number]
    intro i hi a
    have hindex : 2 + i * 2 = 2 * (i + 1) := by ring
    rw [hindex, number_mergeBins (by omega) (h.weight_eq (by omega) (by omega))]
  obtain ⟨hpairs, hothers⟩ := countUp_opposite hpos
    (fun k x y => starRingEnd ℂ (x - starRingEnd ℂ (weight (q + 1) k) * (x - starRingEnd ℂ y)))
    (fun k x y => starRingEnd ℂ y + starRingEnd ℂ (weight (q + 1) k) * (x - starRingEnd ℂ y))
    (Function.update (number a) 0 (starRingEnd ℂ (number a 0)))
  rw [hloop]
  dsimp only
  rw [hwhole]
  by_cases hzero : k = 0
  · subst hzero
    rw [if_pos rfl, Function.update_of_ne hpos.ne, hothers 0 (Or.inl rfl), Function.update_self]
  rw [if_neg hzero]
  split
  · next hk =>
      rcases lt_trichotomy k (2 ^ q) with hlow | rfl | hhigh
      · rw [Function.update_of_ne hlow.ne, (hpairs k (by omega) hlow).1,
          Function.update_of_ne hzero, Function.update_of_ne (by omega), merge, hwhole]
      · rw [Function.update_self, hothers _ (Or.inr (Or.inl rfl)), Function.update_of_ne hzero,
          merge, weight_middle, map_zero, zero_mul, sub_zero]
      · obtain ⟨j, hpos, hj, rfl⟩ : ∃ j, 0 < j ∧ j < 2 ^ q ∧ k = 2 * 2 ^ q - j :=
          ⟨2 * 2 ^ q - k, by omega, by omega, by omega⟩
        have hweight := conj_weight (p := q + 1) (k := j) (by omega)
        rw [hwhole] at hweight
        rw [Function.update_of_ne (by omega), (hpairs j hpos hj).2,
          Function.update_of_ne (by omega), Function.update_of_ne (by omega), merge, hwhole,
          Nat.sub_sub_self (by omega), hweight]
        simp only [map_mul, map_sub, Complex.conj_conj]
        ring
  · next hk =>
      rw [Function.update_of_ne (by omega), hothers k (by omega), Function.update_of_ne hzero]

end Tables

/-! ### The transform of real numbers -/

section Real

variable {p : ℕ}

/-- The transform of `2 ^ (p + 1)` real numbers, with the root of unity of the source. -/
noncomputable def realSpectrum (p : ℕ) (a : ℕ → ℝ) (k : ℕ) : ℂ :=
  dftSum (2 ^ (p + 1)) (root (2 ^ (p + 1))) (fun j => (a j : ℂ)) k

/-- The transform of the complex numbers they are made of. -/
noncomputable def pairSpectrum (p : ℕ) (a : ℕ → ℝ) (k : ℕ) : ℂ :=
  dftSum (2 ^ p) (root (2 ^ p)) (number a) k

theorem root_sq (p : ℕ) : root (2 ^ (p + 1)) ^ 2 = root (2 ^ p) := by
  rw [root_eq, root_eq, ← Complex.exp_nat_mul]
  congr 1
  push_cast
  field_simp
  ring

/-- The even and the odd samples. -/
theorem realSpectrum_eq (p : ℕ) (a : ℕ → ℝ) (k : ℕ) : realSpectrum p a k =
    dftSum (2 ^ p) (root (2 ^ p)) (fun i => (a (2 * i) : ℂ)) k +
      root (2 ^ (p + 1)) ^ k *
        dftSum (2 ^ p) (root (2 ^ p)) (fun i => (a (2 * i + 1) : ℂ)) k := by
  rw [realSpectrum, dftSum, Nat.pow_succ', sum_range_mul, Finset.sum_range_succ,
    Finset.sum_range_one, dftSum, dftSum, Finset.mul_sum, ← Nat.pow_succ']
  congr 1
  · refine Finset.sum_congr rfl fun t _ => ?_
    rw [← root_sq p, ← pow_mul, Nat.zero_add, Nat.mul_assoc]
  · refine Finset.sum_congr rfl fun t _ => ?_
    have hexponent : (1 + 2 * t) * k = k + 2 * (t * k) := by ring
    rw [← root_sq p, ← pow_mul, hexponent, pow_add (root _) k, Nat.add_comm 1]
    ring

theorem pairSpectrum_eq (p : ℕ) (a : ℕ → ℝ) (k : ℕ) : pairSpectrum p a k =
    dftSum (2 ^ p) (root (2 ^ p)) (fun i => (a (2 * i) : ℂ)) k +
      Complex.I * dftSum (2 ^ p) (root (2 ^ p)) (fun i => (a (2 * i + 1) : ℂ)) k := by
  rw [pairSpectrum, dftSum, dftSum, dftSum, Finset.mul_sum, ← Finset.sum_add_distrib]
  refine Finset.sum_congr rfl fun t _ => ?_
  have hnumber : number a t = a (2 * t) + Complex.I * a (2 * t + 1) := by
    apply Complex.ext <;> simp [number]
  rw [hnumber]
  ring

/-- Bins opposite each other. -/
theorem conj_dftSum {N k : ℕ} (hN : N ≠ 0) (hk : k ≤ N) (x : ℕ → ℝ) :
    starRingEnd ℂ (dftSum N (root N) (fun i => (x i : ℂ)) (N - k)) =
      dftSum N (root N) (fun i => (x i : ℂ)) k := by
  rw [dftSum, dftSum, map_sum]
  refine Finset.sum_congr rfl fun t _ => ?_
  have hunit := conj_root_pow N (t * (N - k))
  have hturn : root N ^ (t * (N - k)) * root N ^ (t * k) = 1 := by
    rw [← pow_add, ← Nat.mul_add, Nat.sub_add_cancel hk, Nat.mul_comm, pow_mul, root_pow_self hN,
      one_pow]
  rw [map_mul, Complex.conj_ofReal]
  linear_combination (x t : ℂ) * (root N ^ (t * k) * hunit -
    starRingEnd ℂ (root N ^ (t * (N - k))) * hturn)

/-- **`rftfsub` finds the spectrum of the real numbers.**  Even samples are the real parts of the
complex numbers and odd ones the imaginary parts; the weight is what shifting the odd ones by one
sample costs. -/
theorem split_pairSpectrum (a : ℕ → ℝ) {k : ℕ} (hk : k ≤ 2 ^ p) :
    split p (pairSpectrum p a) k = realSpectrum p a k := by
  have heven := conj_dftSum (Nat.two_pow_pos p).ne' hk fun i => a (2 * i)
  have hodd := conj_dftSum (Nat.two_pow_pos p).ne' hk fun i => a (2 * i + 1)
  rw [split, realSpectrum_eq, pairSpectrum_eq, pairSpectrum_eq, map_add, map_mul, heven, hodd,
    Complex.conj_I, weight_eq_div]
  linear_combination -root (2 ^ (p + 1)) ^ k *
    dftSum (2 ^ p) (root (2 ^ p)) (fun i => (a (2 * i + 1) : ℂ)) k * Complex.I_sq

end Real

/-! ### `rdft` -/

section Rdft

variable {p : ℕ} {ip : ℕ → ℕ} {w : ℕ → ℝ}

/-- What the transforms leave in `mIp`.  The entries between them are those of `bitrv2`, and are
different after each call. -/
structure TablesKept (p : ℕ) (ip ip' : ℕ → ℕ) : Prop where
  nw : ip' 0 = ip 0
  nc : ip' 1 = ip 1
  behind : ∀ k, 2 + Nat.sqrt (2 ^ (p + 1)) ≤ k → ip' k = ip k

theorem TablesKept.refl (p : ℕ) (ip : ℕ → ℕ) : TablesKept p ip ip := ⟨rfl, rfl, fun _ _ => rfl⟩

/-- The tables can be used again. -/
theorem Prepared.kept {ip' : ℕ → ℕ} (h : Prepared p ip w) (hkept : TablesKept p ip ip') :
    Prepared p ip' w :=
  ⟨hkept.nw.trans h.nw, hkept.nc.trans h.nc, h.twiddles, h.cosines⟩

theorem tablesKept_bitrv2 (hp : 1 ≤ p) (ip : ℕ → ℕ) (a : ℕ → ℝ) :
    TablesKept p ip (replaceBehind 2 ip (bitrv2 (2 ^ (p + 1)) (behind 2 ip) a).1) where
  nw := replaceBehind_of_lt Nat.two_pos _ _
  nc := replaceBehind_of_lt Nat.one_lt_two _ _
  behind k hk := by
    rw [replaceBehind_of_le (by omega), bitrv2_ip_of_le hp _ _ (by omega), Ooura.behind,
      Nat.add_sub_cancel' (by omega)]

/-- The first part of the forward transform, in the source's cases. -/
theorem forward_bins (hprep : Prepared p ip w) (a : ℕ → ℝ) :
    let s := if 4 < 2 ^ (p + 1) then
        (replaceBehind 2 ip (bitrv2 (2 ^ (p + 1)) (behind 2 ip) a).1,
          rftfsub (2 ^ (p + 1)) (cftfsub (2 ^ (p + 1)) (bitrv2 (2 ^ (p + 1)) (behind 2 ip) a).2 w)
            (ip 1) (behind (ip 0) w))
      else if 2 ^ (p + 1) = 4 then (ip, cftfsub (2 ^ (p + 1)) a w) else (ip, a)
    TablesKept p ip s.1 ∧ ∀ k, number s.2 k =
      if k = 0 then pairSpectrum p a 0 else if k < 2 ^ p then split p (pairSpectrum p a) k
      else number a k := by
  dsimp only
  obtain rfl | rfl | ⟨q, hq, rfl⟩ : p = 0 ∨ p = 1 ∨ ∃ q, 1 ≤ q ∧ p = q + 1 := by
    rcases Nat.lt_or_ge p 2 with hsmall | hlarge
    · omega
    · exact Or.inr (Or.inr ⟨p - 1, by omega, by omega⟩)
  · -- two numbers
    refine ⟨TablesKept.refl 0 ip, fun k => ?_⟩
    show number a k = _
    split
    · next hk =>
        subst hk
        rw [pairSpectrum, dftSum, Nat.pow_zero, Finset.sum_range_one, Nat.zero_mul, pow_zero,
          mul_one]
    · next hk => rw [if_neg (by rw [Nat.pow_zero]; omega)]
  · -- four numbers
    refine ⟨TablesKept.refl 1 ip, fun k => ?_⟩
    show number (cftfsub (2 ^ (1 + 1)) a w) k = _
    have harranged : Arranged (root (2 ^ 1)) (number a) 1 1 (number a) :=
      arranged_of_reversed fun b hb => by rw [reverseBits_one_of_lt hb]
    rw [number_cftfsub le_rfl hprep harranged]
    by_cases hzero : k = 0
    · subst hzero
      rw [if_pos rfl, if_pos (by decide), pairSpectrum]
    · rw [if_neg hzero]
      split
      · next hk =>
          obtain rfl : k = 2 ^ 0 := by
            rw [Nat.pow_one] at hk
            omega
          rw [Ooura.split, weight_middle, zero_mul, sub_zero, pairSpectrum]
      · rfl
  · -- more of them
    have hquarter : 2 ^ (q + 1 + 1) / 4 = 2 ^ q := two_pow_div_four q
    have hmany : 4 < 2 ^ (q + 1 + 1) := by
      calc 4 = 2 ^ 2 := rfl
        _ < 2 ^ (q + 1 + 1) := Nat.pow_lt_pow_right Nat.one_lt_two (by omega)
    rw [if_pos hmany]
    refine ⟨tablesKept_bitrv2 (by omega) ip a, fun k => ?_⟩
    have hnc := hprep.nc
    have hnw := hprep.nw
    rw [hquarter] at hnc hnw
    have hcft := number_cftfsub (by omega) hprep
      (arranged_bitrv2 (p := q + 1) (by omega) (behind 2 ip) a)
    have hbin : ∀ k < 2 ^ (q + 1), number (cftfsub (2 ^ (q + 1 + 1))
        (bitrv2 (2 ^ (q + 1 + 1)) (behind 2 ip) a).2 w) k = pairSpectrum (q + 1) a k := by
      intro k hk
      rw [hcft, if_pos hk, pairSpectrum]
    rw [hnc, hnw, number_rftfsub hprep]
    by_cases hzero : k = 0
    · subst hzero
      rw [if_neg (by omega), if_pos rfl, hbin 0 (Nat.two_pow_pos _)]
    · rw [if_neg hzero]
      by_cases hk : k < 2 ^ (q + 1)
      · rw [if_pos ⟨by omega, hk⟩, if_pos hk, Ooura.split, Ooura.split, hbin k hk,
          hbin _ (by omega)]
      · rw [if_neg (by omega), if_neg hk, hcft, if_neg hk, number_eq_iff,
          pair_bitrv2 (by omega), reversal_of_le (by omega)]

/-- `b` holds the spectrum of `a`, packed: the two real bins are next to each other.  Each has an
imaginary part of zero, so both fit in one place; the bins above the middle are the conjugates of
those below and are not stored. -/
structure Packed (p : ℕ) (a b : ℕ → ℝ) : Prop where
  first : (b 0 : ℂ) = realSpectrum p a 0
  last : (b 1 : ℂ) = realSpectrum p a (2 ^ p)
  bins : ∀ k, 0 < k → k < 2 ^ p → number b k = realSpectrum p a k
  kept : ∀ i, 2 ^ (p + 1) ≤ i → b i = a i

theorem realSpectrum_ends (p : ℕ) (a : ℕ → ℝ) :
    ((pairSpectrum p a 0).re + (pairSpectrum p a 0).im : ℂ) = realSpectrum p a 0 ∧
      ((pairSpectrum p a 0).re - (pairSpectrum p a 0).im : ℂ) = realSpectrum p a (2 ^ p) := by
  have hone : root (2 ^ p) ^ 2 ^ p = 1 := root_pow_self (Nat.two_pow_pos p).ne'
  have hsum : ∀ (x : ℕ → ℝ) k, k = 0 ∨ k = 2 ^ p → dftSum (2 ^ p) (root (2 ^ p))
      (fun i => (x i : ℂ)) k = ((∑ i ∈ Finset.range (2 ^ p), x i : ℝ) : ℂ) := by
    intro x k hk
    rw [dftSum, Complex.ofReal_sum]
    refine Finset.sum_congr rfl fun i _ => ?_
    rcases hk with rfl | rfl
    · rw [Nat.mul_zero, pow_zero, mul_one]
    · rw [Nat.mul_comm, pow_mul, hone, one_pow, mul_one]
  rw [realSpectrum_eq, realSpectrum_eq, pairSpectrum_eq, hsum _ 0 (Or.inl rfl),
    hsum _ 0 (Or.inl rfl), hsum _ _ (Or.inr rfl), hsum _ _ (Or.inr rfl), root_pow_two_pow, pow_zero]
  simp only [Complex.add_re, Complex.add_im, Complex.mul_re, Complex.mul_im, Complex.ofReal_re,
    Complex.ofReal_im, Complex.I_re, Complex.I_im]
  push_cast
  exact ⟨by ring, by ring⟩

/-- The last step of the forward transform. -/
theorem packed_of_bins {a b : ℕ → ℝ} (hbins : ∀ k, number b k =
      if k = 0 then pairSpectrum p a 0 else if k < 2 ^ p then split p (pairSpectrum p a) k
      else number a k) :
    Packed p a (Function.update (Function.update b 0 (b 0 + b 1)) 1 (b 0 - b 1)) := by
  have hpos := Nat.two_pow_pos p
  obtain ⟨hfirst, hlast⟩ := realSpectrum_ends p a
  have hzero := hbins 0
  rw [if_pos rfl] at hzero
  have hre : b 0 = (pairSpectrum p a 0).re := congrArg Complex.re hzero
  have him : b 1 = (pairSpectrum p a 0).im := congrArg Complex.im hzero
  have hrest : ∀ k, 0 < k →
      number (Function.update (Function.update b 0 (b 0 + b 1)) 1 (b 0 - b 1)) k = number b k := by
    intro k hk
    rw [number, Function.update_of_ne (by omega), Function.update_of_ne (by omega),
      Function.update_of_ne (by omega), Function.update_of_ne (by omega), number]
  refine ⟨?_, ?_, fun k hk hlt => ?_, fun i hi => ?_⟩
  · rw [Function.update_of_ne Nat.zero_ne_one, Function.update_self, hre, him, ← hfirst,
      Complex.ofReal_add]
  · rw [Function.update_self, hre, him, ← hlast, Complex.ofReal_sub]
  · rw [hrest k hk, hbins, if_neg hk.ne', if_pos hlt, split_pairSpectrum a hlt.le]
  · rw [Nat.pow_succ] at hi
    have hnumber := hrest (i / 2) (by omega)
    rw [hbins, if_neg (by omega), if_neg (by omega), number_eq_iff] at hnumber
    have hcell := eq_of_pair hnumber (Nat.mod_lt i Nat.two_pos)
    rwa [Nat.div_add_mod] at hcell

/-- **The forward transform.**  The bins of the spectrum are packed into the array that held the
samples, and the tables are still good for the next transform, in either direction. -/
theorem rdft_forward (hprep : Prepared p ip w) {isgn : ℤ} (hisgn : 0 ≤ isgn) (a : ℕ → ℝ) :
    TablesKept p ip (rdft (2 ^ (p + 1)) isgn a ip w).1 ∧
      Packed p a (rdft (2 ^ (p + 1)) isgn a ip w).2 := by
  obtain ⟨htables, hbins⟩ := forward_bins hprep a
  rw [rdft, if_pos hisgn]
  exact ⟨htables, packed_of_bins hbins⟩

/-! ### Backwards -/

/-- The spectrum of the complex numbers, from the packed one. -/
noncomputable def unpacked (p : ℕ) (a : ℕ → ℝ) (k : ℕ) : ℂ :=
  if k = 0 then ⟨(a 0 + a 1) / (2 : ℕ), (a 0 - a 1) / (2 : ℕ)⟩ else merge p (number a) k

theorem unpacked_def (p : ℕ) (a : ℕ → ℝ) (k : ℕ) : unpacked p a k =
    if k = 0 then ⟨(a 0 + a 1) / 2, (a 0 - a 1) / 2⟩ else merge p (number a) k := by
  rw [unpacked, Nat.cast_ofNat]

/-- The transform with the conjugate root. -/
noncomputable def backSum (p : ℕ) (z : ℕ → ℂ) (i : ℕ) : ℂ :=
  starRingEnd ℂ (dftSum (2 ^ p) (root (2 ^ p)) (fun k => starRingEnd ℂ (z k)) i)

/-- The first step of the backward transform. -/
theorem number_unpack (a : ℕ → ℝ) (k : ℕ) :
    number (Function.update (Function.update a 1 (1 / (2 : ℕ) * (a 0 - a 1))) 0
      (Function.update a 1 (1 / (2 : ℕ) * (a 0 - a 1)) 0 -
        Function.update a 1 (1 / (2 : ℕ) * (a 0 - a 1)) 1)) k =
      if k = 0 then ⟨(a 0 + a 1) / 2, (a 0 - a 1) / 2⟩ else number a k := by
  rw [Function.update_of_ne Nat.zero_ne_one, Function.update_self, Nat.cast_ofNat]
  split
  · next hk =>
      subst hk
      rw [number, Function.update_self, Function.update_of_ne (by omega), Function.update_self]
      apply Complex.ext
      · dsimp only
        ring
      · dsimp only
        ring
  · next hk =>
      rw [number, Function.update_of_ne (by omega), Function.update_of_ne (by omega),
        Function.update_of_ne (by omega), Function.update_of_ne (by omega), number]

/-- What is transformed backwards. -/
theorem unpacked_eq {a b : ℕ → ℝ} (hb : ∀ k, number b k =
      if k = 0 then ⟨(a 0 + a 1) / 2, (a 0 - a 1) / 2⟩ else number a k) {k : ℕ} (hk : k < 2 ^ p) :
    unpacked p a k = if k = 0 then number b 0 else merge p (number b) k := by
  rw [unpacked_def]
  split
  · rw [hb, if_pos rfl]
  · next hzero => rw [merge, merge, hb, hb, if_neg hzero, if_neg (by omega)]

theorem backSum_congr {z z' : ℕ → ℂ} (h : ∀ k < 2 ^ p, z k = z' k) (i : ℕ) :
    backSum p z i = backSum p z' i := by
  rw [backSum, backSum, dftSum, dftSum]
  congr 1
  refine Finset.sum_congr rfl fun k hk => ?_
  rw [h k (Finset.mem_range.mp hk)]

/-- **The backward transform.**  The bins are unpacked, merged and transformed with the conjugate
root; the result is not divided by the length, and the tables are still good. -/
theorem rdft_backward (hprep : Prepared p ip w) {isgn : ℤ} (hisgn : isgn < 0) (a : ℕ → ℝ) :
    TablesKept p ip (rdft (2 ^ (p + 1)) isgn a ip w).1 ∧
      ∀ i, number (rdft (2 ^ (p + 1)) isgn a ip w).2 i =
        if i < 2 ^ p then backSum p (unpacked p a) i else number a i := by
  have hunpack := number_unpack a
  rw [rdft, if_neg hisgn.not_ge]
  dsimp only
  generalize Function.update (Function.update a 1 (1 / (2 : ℕ) * (a 0 - a 1))) 0
    (Function.update a 1 (1 / (2 : ℕ) * (a 0 - a 1)) 0 -
      Function.update a 1 (1 / (2 : ℕ) * (a 0 - a 1)) 1) = b at hunpack ⊢
  have hbehind : ∀ i, 2 ^ p ≤ i → number b i = number a i := by
    intro i hi
    have hpos := Nat.two_pow_pos p
    rw [hunpack, if_neg (by omega)]
  obtain rfl | rfl | ⟨q, hq, rfl⟩ : p = 0 ∨ p = 1 ∨ ∃ q, 1 ≤ q ∧ p = q + 1 := by
    rcases Nat.lt_or_ge p 2 with hsmall | hlarge
    · omega
    · exact Or.inr (Or.inr ⟨p - 1, by omega, by omega⟩)
  · -- two numbers
    refine ⟨TablesKept.refl 0 ip, fun i => ?_⟩
    show number b i = _
    split
    · next hi =>
        obtain rfl : i = 0 := Nat.lt_one_iff.mp hi
        rw [backSum, dftSum, Nat.pow_zero, Finset.sum_range_one, Nat.zero_mul, pow_zero, mul_one,
          Complex.conj_conj, unpacked_eq hunpack hi, if_pos rfl]
    · next hi => exact hbehind i (by omega)
  · -- four numbers: the root of unity is `-1`, so it does not matter which transform it is
    refine ⟨TablesKept.refl 1 ip, fun i => ?_⟩
    show number (cftfsub (2 ^ (1 + 1)) b w) i = _
    have harranged : Arranged (root (2 ^ 1)) (number b) 1 1 (number b) :=
      arranged_of_reversed fun b hb => by rw [reverseBits_one_of_lt hb]
    have hroot : root (2 ^ 1) = -1 := by
      have hhalf := root_pow_half 0
      rwa [Nat.pow_zero, pow_one] at hhalf
    rw [number_cftfsub le_rfl hprep harranged]
    split
    · have hsame : ∀ k < 2 ^ 1, unpacked 1 a k = number b k := by
        intro k hk
        rw [unpacked_eq hunpack hk]
        split
        · next hzero => rw [hzero]
        · next hzero =>
            obtain rfl : k = 2 ^ 0 := by
              rw [Nat.pow_one] at hk
              omega
            rw [merge, weight_middle, map_zero, zero_mul, sub_zero]
      rw [backSum_congr hsame, backSum, dftSum, dftSum, map_sum, hroot]
      refine Finset.sum_congr rfl fun k _ => ?_
      rw [map_mul, Complex.conj_conj, map_pow, map_neg, map_one]
    · next hi => exact hbehind i (by omega)
  · -- more of them
    have hquarter : 2 ^ (q + 1 + 1) / 4 = 2 ^ q := two_pow_div_four q
    have hmany : 4 < 2 ^ (q + 1 + 1) := by
      calc 4 = 2 ^ 2 := rfl
        _ < 2 ^ (q + 1 + 1) := Nat.pow_lt_pow_right Nat.one_lt_two (by omega)
    have hnc := hprep.nc
    have hnw := hprep.nw
    rw [hquarter] at hnc hnw
    rw [if_pos hmany, hnc, hnw]
    refine ⟨tablesKept_bitrv2 (by omega) ip _, fun i => ?_⟩
    rw [number_cftbsub (by omega) hprep (arranged_bitrv2 (by omega) _ _)]
    split
    · rw [backSum, dftSum, dftSum]
      congr 1
      refine Finset.sum_congr rfl fun k hk => ?_
      have hlt := Finset.mem_range.mp hk
      rw [number_rftbsub hprep, unpacked_eq hunpack hlt]
      split <;> rfl
    · next hi =>
        have hmoved : number (bitrv2 (2 ^ (q + 1 + 1)) (behind 2 ip)
            (rftbsub (2 ^ (q + 1 + 1)) b (2 ^ q) (behind (2 ^ q) w))).2 i =
            number (rftbsub (2 ^ (q + 1 + 1)) b (2 ^ q) (behind (2 ^ q) w)) i := by
          rw [number_eq_iff, pair_bitrv2 (by omega), reversal_of_le (by omega)]
        have hpos := Nat.two_pow_pos (q + 1)
        rw [hmoved, number_rftbsub hprep, if_neg (by omega), if_neg hi, hbehind i (by omega)]

/-! ### There and back -/

theorem conj_root (N : ℕ) : starRingEnd ℂ (root N) = (root N)⁻¹ := by
  have hunit := conj_root_pow N 1
  rw [pow_one] at hunit
  exact eq_inv_of_mul_eq_one_left hunit

theorem backSum_eq (z : ℕ → ℂ) (i : ℕ) :
    backSum p z i = dftSum (2 ^ p) (root (2 ^ p))⁻¹ z i := by
  rw [backSum, dftSum, dftSum, map_sum]
  refine Finset.sum_congr rfl fun k _ => ?_
  rw [map_mul, map_pow, Complex.conj_conj, conj_root]

theorem isPrimitiveRoot_root (p : ℕ) : IsPrimitiveRoot (root (2 ^ p)) (2 ^ p) := by
  have hprimitive := Complex.isPrimitiveRoot_exp (2 ^ p) (Nat.two_pow_pos p).ne'
  rwa [root_eq]

/-- The two real bins, from the complex one. -/
theorem Packed.ends {a b : ℕ → ℝ} (h : Packed p a b) :
    b 0 = (pairSpectrum p a 0).re + (pairSpectrum p a 0).im ∧
      b 1 = (pairSpectrum p a 0).re - (pairSpectrum p a 0).im := by
  obtain ⟨hfirst, hlast⟩ := realSpectrum_ends p a
  have hzero := h.first.trans hfirst.symm
  have hone := h.last.trans hlast.symm
  exact ⟨by exact_mod_cast hzero, by exact_mod_cast hone⟩

theorem Packed.unpacked_eq {a b : ℕ → ℝ} (h : Packed p a b) {k : ℕ} (hk : k < 2 ^ p) :
    unpacked p b k = pairSpectrum p a k := by
  rw [unpacked_def]
  split
  · next hzero =>
      rw [hzero, h.ends.1, h.ends.2]
      apply Complex.ext
      · dsimp only
        ring
      · dsimp only
        ring
  · next hzero =>
      have hsplit : ∀ k, 0 < k → k < 2 ^ p → number b k = split p (pairSpectrum p a) k := by
        intro k hpos hk
        rw [h.bins k hpos hk, split_pairSpectrum a hk.le]
      rw [← merge_split (z := pairSpectrum p a) hk.le, merge, merge, hsplit k (by omega) hk,
        hsplit _ (by omega) (by omega)]

theorem number_mul (c : ℝ) (a : ℕ → ℝ) (i : ℕ) :
    number (fun i => c * a i) i = c * number a i := by
  apply Complex.ext
  · rw [Complex.re_ofReal_mul]
    rfl
  · rw [Complex.im_ofReal_mul]
    rfl

/-- **Backwards after forwards.**  The second transform may find in `mIp` what others have left
there. -/
theorem backward_forward {ip' : ℕ → ℕ} (hprep : Prepared p ip w) (hprep' : Prepared p ip' w)
    {f b : ℤ} (hf : 0 ≤ f) (hb : b < 0) (a : ℕ → ℝ) {i : ℕ} (hi : i < 2 ^ (p + 1)) :
    (rdft (2 ^ (p + 1)) b (rdft (2 ^ (p + 1)) f a ip w).2 ip' w).2 i = (2 ^ p : ℕ) * a i := by
  obtain ⟨-, hpacked⟩ := rdft_forward hprep hf a
  obtain ⟨-, hback⟩ := rdft_backward hprep' hb (rdft (2 ^ (p + 1)) f a ip w).2
  have hlt : i / 2 < 2 ^ p := by
    rw [Nat.pow_succ] at hi
    omega
  have hnumber := hback (i / 2)
  rw [if_pos hlt, backSum_congr fun k hk => hpacked.unpacked_eq hk, backSum_eq] at hnumber
  have hscaled : number (rdft (2 ^ (p + 1)) b (rdft (2 ^ (p + 1)) f a ip w).2 ip' w).2 (i / 2) =
      number (fun i => (2 ^ p : ℕ) * a i) (i / 2) := by
    rw [number_mul, Complex.ofReal_natCast]
    exact hnumber.trans (dftSum_dftSum_inv (isPrimitiveRoot_root p) (number a) hlt)
  have hcell := eq_of_pair (number_eq_iff.mp hscaled) (Nat.mod_lt i Nat.two_pos)
  rwa [Nat.div_add_mod] at hcell

/-- **Forwards after backwards.**  Every array is a packed spectrum.  So transforming back an array
of numbers that never was a spectrum and forward again gives the array, times half its length. -/
theorem forward_backward {ip' : ℕ → ℕ} (hprep : Prepared p ip w) (hprep' : Prepared p ip' w)
    {f b : ℤ} (hf : 0 ≤ f) (hb : b < 0) (a : ℕ → ℝ) {i : ℕ} (hi : i < 2 ^ (p + 1)) :
    (rdft (2 ^ (p + 1)) f (rdft (2 ^ (p + 1)) b a ip w).2 ip' w).2 i = (2 ^ p : ℕ) * a i := by
  obtain ⟨-, hback⟩ := rdft_backward hprep hb a
  obtain ⟨-, hpacked⟩ := rdft_forward hprep' hf (rdft (2 ^ (p + 1)) b a ip w).2
  have hpos := Nat.two_pow_pos p
  have hspectrum : ∀ k < 2 ^ p, pairSpectrum p (rdft (2 ^ (p + 1)) b a ip w).2 k =
      (2 ^ p : ℕ) * unpacked p a k := by
    intro k hk
    have hinverse := dftSum_dftSum_inv (isPrimitiveRoot_root p).inv (unpacked p a) hk
    rw [inv_inv] at hinverse
    rw [← hinverse, pairSpectrum, dftSum, dftSum]
    refine Finset.sum_congr rfl fun i hi => ?_
    rw [hback, if_pos (Finset.mem_range.mp hi), backSum_eq]
  have hlt : i / 2 < 2 ^ p := by
    rw [Nat.pow_succ] at hi
    omega
  by_cases hzero : i / 2 = 0
  · obtain ⟨hfirst, hlast⟩ := hpacked.ends
    have hsum := hspectrum 0 hpos
    rw [unpacked_def, if_pos rfl, ← Complex.ofReal_natCast] at hsum
    rw [hsum, Complex.re_ofReal_mul, Complex.im_ofReal_mul] at hfirst hlast
    have hends : i = 0 ∨ i = 1 := by omega
    rcases hends with rfl | rfl
    · rw [hfirst]
      ring
    · rw [hlast]
      ring
  · have hbin := hpacked.bins (i / 2) (by omega) hlt
    have hscaled : number (rdft (2 ^ (p + 1)) f (rdft (2 ^ (p + 1)) b a ip w).2 ip' w).2 (i / 2) =
        number (fun i => (2 ^ p : ℕ) * a i) (i / 2) := by
      rw [hbin, ← split_pairSpectrum _ hlt.le, split, hspectrum _ hlt, hspectrum _ (by omega),
        number_mul, Complex.ofReal_natCast, ← split_merge (z := number a) hlt.le, split,
        unpacked_def, unpacked_def, if_neg hzero, if_neg (by omega), map_mul, Complex.conj_natCast]
      ring
    have hcell := eq_of_pair (number_eq_iff.mp hscaled) (Nat.mod_lt i Nat.two_pos)
    rwa [Nat.div_add_mod] at hcell

end Rdft

end Ooura

end Tklb
