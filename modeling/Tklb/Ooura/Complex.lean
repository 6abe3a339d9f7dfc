import Tklb.Ooura.Butterflies

/-!
# The complex transform

`bitrv2` and `cftfsub` together are the discrete Fourier transform (`number_cftfsub`): every
pass makes blocks of four times the length, until one or two passes' worth of blocks are left
for the last loop.  `cftbsub` differs in the last loop, which takes the conjugates of what it
stores (`number_cftbsub`).

### What is load-bearing

`Remaining` is the state between the two halves of the transform.  The loop over the middle
passes ends with two or with four blocks, depending on the parity of the exponent, and the last
loop is over twos or over fours.  `number_lastLoop` covers both, and forwards and backwards at
the same time: the two differ in a function `f` of the results, the identity or the conjugate.

`complex_transforms` is the statement a user would want.  It is about the array before `bitrv2`,
and about the tables as the constructor has left them; and it says that the two functions write
to the array alone.
-/

namespace Tklb

open Foundation

namespace Ooura

/-! ### The factors -/

section Factors

variable {B : ℕ} {τ : ℕ → ℂ} {w : ℕ → ℝ}

theorem Twiddles.restrict (h : Twiddles B τ w) {B' : ℕ} (hle : B' ≤ B) : Twiddles B' τ w where
  first := h.first
  diagonal hB := h.diagonal (hB.trans_le hle)
  unit b hb := h.unit b (hb.trans_le hle)
  even κ hκ := h.even κ (hκ.trans_le hle)
  odd κ hκ := h.odd κ (hκ.trans_le hle)
  table b hb := h.table b (hb.trans_le hle)

theorem root_pow_self {N : ℕ} (hN : N ≠ 0) : root N ^ N = 1 := by
  have hne : (N : ℂ) ≠ 0 := Nat.cast_ne_zero.mpr hN
  rw [root_eq, ← Complex.exp_nat_mul, mul_div_cancel₀ _ hne, Complex.exp_two_pi_mul_I]

/-- A quarter of the circle. -/
theorem root_pow_quarter (t : ℕ) : root (2 ^ (t + 2)) ^ 2 ^ t = Complex.I := by
  have hangle : 2 * Real.pi * ((2 ^ t : ℕ) : ℝ) / (2 ^ (t + 2) : ℕ) = Real.pi / 2 := by
    push_cast
    field_simp
    ring
  rw [root_pow, wheel_eq, hangle, Real.cos_pi_div_two, Real.sin_pi_div_two]
  rfl

theorem root_pow_half (m : ℕ) : root (2 ^ (1 + m)) ^ 2 ^ m = -1 := by
  have hangle : 2 * Real.pi * ((2 ^ m : ℕ) : ℝ) / (2 ^ (1 + m) : ℕ) = Real.pi := by
    push_cast
    rw [pow_add]
    field_simp
  rw [root_pow, wheel_eq, hangle, Real.cos_pi, Real.sin_pi]
  apply Complex.ext <;> simp

/-- **The table of `makewt`** holds the factors.  Block `b` has the root of unity to the power of
`b` reversed; this is why the table is kept in bit-reversed order, since consecutive blocks then
have consecutive entries. -/
theorem Prepared.twiddles_spec {t : ℕ} {ip : ℕ → ℕ} (h : Prepared (t + 2) ip w) (ht : 1 ≤ t) :
    Twiddles (2 ^ t) (fun b => root (2 ^ (t + 2)) ^ reverseBits t b) w := by
  obtain ⟨u, rfl⟩ : ∃ u, t = u + 1 := ⟨t - 1, by omega⟩
  refine ⟨?_, fun _ => ?_, fun b _ => ?_, fun κ hκ => ?_, fun κ hκ => ?_, fun b hb =>
    h.twiddles _ ht rfl b hb⟩
  · rw [reverseBits_zero, pow_zero]
  · -- half of a quarter
    have hreverse : reverseBits (u + 1) 1 = 2 ^ u := by
      rw [reverseBits, Nat.div_eq_of_lt Nat.one_lt_two, reverseBits_zero, Nat.add_zero,
        Nat.mod_eq_of_lt Nat.one_lt_two, Nat.one_mul]
    have hmiddle := wheel_middle u
    rw [hreverse, root_pow]
    rw [show 2 ^ (u + 1 + 2) = 2 ^ (u + 3) from rfl, hmiddle]
  · rw [root_pow, wheel_eq]
    exact Real.cos_sq_add_sin_sq _
  · have hlt : κ < 2 ^ u := by
      rw [Nat.pow_succ] at hκ
      omega
    have hdouble : reverseBits (u + 1) (2 * κ) = reverseBits u κ := by
      rw [reverseBits, Nat.mul_mod_right, Nat.zero_mul, Nat.zero_add,
        Nat.mul_div_cancel_left _ Nat.two_pos]
    rw [hdouble, reverseBits_of_lt 1 hlt, ← pow_mul, Nat.pow_one]
  · have hlt : κ < 2 ^ u := by
      rw [Nat.pow_succ] at hκ
      omega
    have hodd : reverseBits (u + 1) (2 * κ + 1) = 2 ^ u + reverseBits u κ := by
      rw [reverseBits, Nat.mul_add_mod, Nat.mod_eq_of_lt Nat.one_lt_two, Nat.one_mul,
        Nat.mul_add_div Nat.two_pos, Nat.div_eq_of_lt Nat.one_lt_two, Nat.add_zero]
    rw [hodd, reverseBits_of_lt 1 hlt, ← pow_mul, Nat.add_mul, Nat.pow_one, pow_add,
      ← Nat.pow_succ, root_pow_quarter]

/-- The factors of a pass are the powers that it needs. -/
theorem factor_eq {k m t : ℕ} (ht : t = k + m) {b : ℕ} (hb : b < 2 ^ k) :
    root (2 ^ (t + 2)) ^ reverseBits t b = root (2 ^ (t + 2)) ^ (reverseBits k b * 2 ^ m) := by
  rw [ht, reverseBits_of_lt m hb]

end Factors

/-! ### The passes -/

section Passes

variable {p : ℕ} {x z₀ : ℕ → ℂ} {w : ℕ → ℝ}

/-- The state before the last loop: two or four blocks are left, and what is behind them has
not been written. -/
def Remaining (p : ℕ) (x z₀ : ℕ → ℂ) (s : ℕ × (ℕ → ℝ)) : Prop :=
  (∃ k m, k + m = p ∧ (k = 1 ∨ k = 2) ∧ s.1 = 2 * 2 ^ m ∧
    Arranged (root (2 ^ p)) x k (2 ^ m) (number s.2)) ∧
  ∀ i, 2 ^ p ≤ i → number s.2 i = z₀ i

/-- One pass. -/
theorem arranged_cftmdl {ip : ℕ → ℕ} (hprep : Prepared p ip w) {k m : ℕ} (hk : 1 ≤ k)
    (hp : k + 2 + m = p) {a : ℕ → ℝ} (ha : Arranged (root (2 ^ p)) x (k + 2) (2 ^ m) (number a)) :
    Arranged (root (2 ^ p)) x k (2 ^ (m + 2))
        (number (cftmdl (2 ^ (p + 1)) (2 * 2 ^ m) a w)) ∧
      ∀ i, 2 ^ p ≤ i → number (cftmdl (2 ^ (p + 1)) (2 * 2 ^ m) a w) i = number a i := by
  obtain ⟨t, rfl⟩ : ∃ t, p = t + 2 := ⟨k + m, by omega⟩
  obtain ⟨j, rfl⟩ : ∃ j, k = j + 1 := ⟨k - 1, by omega⟩
  have htwiddles := (hprep.twiddles_spec (by omega)).restrict
    (Nat.pow_le_pow_right Nat.two_pos (show j + 1 ≤ t by omega))
  have hlength : 2 ^ (m + 2) = 2 ^ 2 * 2 ^ m := by rw [Nat.pow_add, Nat.mul_comm]
  rw [Nat.pow_succ'] at htwiddles
  have hwhole : 2 ^ (t + 2) = 2 * 2 ^ j * (4 * 2 ^ m) := by
    rw [show t + 2 = 1 + j + (2 + m) by omega, Nat.pow_add, Nat.pow_add 2 1 j, Nat.pow_add 2 2 m]
  rw [number_cftmdl (Nat.two_pow_pos j) (Nat.two_pow_pos m) (by rw [← hwhole, Nat.pow_succ'])
    htwiddles]
  refine ⟨?_, fun i hi => fourPass_of_le (Nat.two_pow_pos m) _ (hwhole ▸ hi) _⟩
  rw [← Nat.pow_succ', hlength]
  refine Arranged.pass ?_ ?_ (fun b hb => factor_eq (by omega) hb) ?_
    (radixPass_fourPass (Nat.two_pow_pos m) _ (j + 1) _)
  · rw [← Nat.pow_add, ← Nat.pow_add, show j + 1 + (2 + m) = t + 2 by omega]
    exact root_pow_self (Nat.two_pow_pos _).ne'
  · rw [← Nat.pow_add, show j + 1 + m = t by omega, root_pow_quarter]
  · rwa [Nat.add_comm 2]

/-- **The passes in the middle.**  Each pass quadruples the length of the blocks, and the loop ends
when four of them are left, or fewer. -/
theorem remaining_middlePasses {ip : ℕ → ℕ} (hprep : Prepared p ip w) (k : ℕ) :
    ∀ {m : ℕ} {a : ℕ → ℝ}, 1 ≤ k → k + m = p → Arranged (root (2 ^ p)) x k (2 ^ m) (number a) →
      (∀ i, 2 ^ p ≤ i → number a i = z₀ i) → ∀ (l : ℕ) (hl : 0 < l), l = 2 * 2 ^ m →
        Remaining p x z₀ (middlePasses (2 ^ (p + 1)) w l hl a) := by
  induction k using Nat.strong_induction_on with
  | _ k ih =>
      intro m a hk hp ha hkept l hl hlength
      have hshift : l <<< 2 = 2 * 2 ^ (m + 2) := by
        rw [Nat.shiftLeft_eq, hlength, Nat.pow_add]
        ring
      have hcond : l <<< 2 < 2 ^ (p + 1) ↔ 3 ≤ k := by
        rw [hshift, ← Nat.pow_succ', Nat.pow_lt_pow_iff_right Nat.one_lt_two]
        omega
      rw [middlePasses]
      by_cases hmany : 3 ≤ k
      · rw [if_pos (hcond.mpr hmany)]
        obtain ⟨j, rfl⟩ : ∃ j, k = j + 2 := ⟨k - 2, by omega⟩
        subst hlength
        obtain ⟨hpass, hbehind⟩ := arranged_cftmdl hprep (by omega) hp ha
        exact ih j (by omega) (by omega) (by omega) hpass
          (fun i hi => (hbehind i hi).trans (hkept i hi)) _ _ hshift
      · rw [if_neg (mt hcond.mp hmany)]
        exact ⟨⟨k, m, hp, by omega, hlength, ha⟩, hkept⟩

/-- The passes before the last loop. -/
theorem remaining_passes {ip : ℕ → ℕ} (hprep : Prepared p ip w) (hp : 1 ≤ p) {a : ℕ → ℝ}
    (ha : Arranged (root (2 ^ p)) x p 1 (number a)) :
    Remaining p x (number a) (passes (2 ^ (p + 1)) a w) := by
  have hcond : 8 < 2 ^ (p + 1) ↔ 3 ≤ p := by
    rw [show 8 = 2 ^ 3 from rfl, Nat.pow_lt_pow_iff_right Nat.one_lt_two]
    omega
  rw [passes]
  by_cases hmany : 3 ≤ p
  · rw [if_pos (hcond.mpr hmany), cft1st_eq_cftmdl]
    obtain ⟨j, rfl⟩ : ∃ j, p = j + 2 := ⟨p - 2, by omega⟩
    obtain ⟨hpass, hbehind⟩ := arranged_cftmdl (m := 0) hprep (by omega) rfl ha
    exact remaining_middlePasses hprep j (by omega) rfl hpass hbehind 8 _ rfl
  · rw [if_neg (mt hcond.mp hmany)]
    exact ⟨⟨p, 0, rfl, by omega, rfl, ha⟩, fun _ _ => rfl⟩

end Passes

/-! ### The last loop -/

section LastLoop

variable {L c : ℕ} (f : ℂ → ℂ)

/-- Four numbers in the last loop, which stores `f` of the results. -/
def lastFour (L c : ℕ) (z : ℕ → ℂ) : ℕ → ℂ :=
  setFour L c (f (fourSums L c 1 z 0)) (f (fourSums L c 1 z 1)) (f (fourSums L c 1 z 2))
    (f (fourSums L c 1 z 3)) z

/-- Two numbers in the last loop. -/
def lastTwo (L c : ℕ) : (ℕ → ℂ) → ℕ → ℂ :=
  rewriteTwo c (c + L) (fun x y => f (x + y)) fun x y => f (x - y)

theorem number_combine_eq_lastFour (a : ℕ → ℝ) :
    number (combine (2 * L) (2 * c) a) = lastFour id L c (number a) := by
  rw [number_combine, radixFour_eq]
  rfl

theorem number_combineBack (a : ℕ → ℝ) :
    number (combineBack (2 * L) (2 * c) a) = lastFour (starRingEnd ℂ) L c (number a) := by
  obtain ⟨h₁, h₂, h₃⟩ := number_reads L c a
  rw [combineBack]
  dsimp only [butterfly]
  rw [number_stores, lastFour, fourSums_eq, fourSums_eq, fourSums_eq, fourSums_eq, h₁, h₂, h₃]
  refine setFour_congr ?_ ?_ ?_ ?_ _
  all_goals
    apply Complex.ext <;>
    simp [number, Complex.I_pow_three, Complex.I_pow_four] <;>
    ring

theorem number_combineTwo (a : ℕ → ℝ) :
    number (combineTwo (2 * L) (2 * c) a) = lastTwo id L c (number a) := by
  have h₁ : 2 * c + 2 * L = 2 * (c + L) := by ring
  rw [combineTwo, h₁, number_store, number_store]
  rfl

theorem number_combineTwoBack (a : ℕ → ℝ) :
    number (combineTwoBack (2 * L) (2 * c) a) = lastTwo (starRingEnd ℂ) L c (number a) := by
  have h₁ : 2 * c + 2 * L = 2 * (c + L) := by ring
  rw [combineTwoBack, h₁, number_store, number_store, lastTwo, rewriteTwo]
  congr 1
  · congr 1
    apply Complex.ext <;> simp [number]
    ring
  · apply Complex.ext <;> simp [number]

theorem actsOn_lastFour (hL : 0 < L) : ActsOn (fourCells L c) (lastFour f L c) := by
  refine actsOn_setFour hL (v := fun z q => f (fourSums L c 1 z q)) fun z z' hsame =>
    funext fun q => ?_
  rw [fourSums, fourSums]
  congr 2
  refine Finset.sum_congr rfl fun u _ => ?_
  rw [hsame _ (reverseBits_lt 2 u)]

/-- The last loop over fours stores `f` of what one more pass would store. -/
theorem countUp_lastFour (hL : 0 < L) (z : ℕ → ℂ) {i : ℕ} (hi : i < 4 * L) :
    countUp L (fun r => lastFour f L (0 + r)) z i = f (fourPass (fun _ => 1) L 1 z i) := by
  obtain ⟨r, q, hr, hq, rfl⟩ : ∃ r q, r < L ∧ q < 4 ∧ i = r + q * L :=
    ⟨i % L, i / L, Nat.mod_lt i hL, (Nat.div_lt_iff_lt_mul hL).mpr hi,
      by rw [Nat.mul_comm, Nat.mod_add_div]⟩
  have hmem : r + q * L ∈ fourCells L (0 * (4 * L) + r) :=
    ⟨q, hq, by rw [Nat.zero_mul, Nat.zero_add]⟩
  have hlast := fourLoop_of_mem (B := 1) (fun b r => lastFour f L (b * (4 * L) + r))
    (fun b r => actsOn_lastFour f hL) Nat.one_pos hr hmem z
  have hpass := fourLoop_of_mem (B := 1) (fun b r => radixFour L (b * (4 * L) + r) 1)
    (fun b r => actsOn_radixFour hL 1) Nat.one_pos hr hmem z
  rw [countUp_succ, countUp_zero, Nat.zero_mul] at hlast
  rw [hlast]
  refine Eq.trans ?_ (congrArg f hpass.symm)
  rw [Nat.zero_mul, Nat.zero_add, radixFour_eq, setFour_of_mem hL (fourSums L r 1 z) z hq]
  exact setFour_of_mem hL (fun q => f (fourSums L r 1 z q)) z hq

theorem countUp_lastFour_of_le (hL : 0 < L) (z : ℕ → ℂ) {i : ℕ} (hi : 4 * L ≤ i) :
    countUp L (fun r => lastFour f L (0 + r)) z i = z i := by
  have hlast := fourLoop_of_le (B := 1) (fun b r => lastFour f L (b * (4 * L) + r))
    (fun b r => actsOn_lastFour f hL) (show 1 * (4 * L) ≤ i by omega) z
  rwa [countUp_succ, countUp_zero, Nat.zero_mul] at hlast

/-- **The last loop over twos.**  Each number is combined with the one half the array behind it, and
what is stored is `f` of the sum and of the difference. -/
theorem countUp_lastTwo (hL : 0 < L) (z : ℕ → ℂ) :
    (∀ r < L, countUp L (fun r => lastTwo f L (0 + r)) z r = f (z r + z (r + L)) ∧
      countUp L (fun r => lastTwo f L (0 + r)) z (r + L) = f (z r - z (r + L))) ∧
    ∀ i, 2 * L ≤ i → countUp L (fun r => lastTwo f L (0 + r)) z i = z i := by
  have hparts : ∀ r < L, ActsOn {i | i = 0 + r ∨ i = 0 + r + L} (lastTwo f L (0 + r)) :=
    fun r _ => actsOn_rewriteTwo _ _ (by omega)
  have hapart : ∀ r < L, ∀ r' < L, r ≠ r' → ∀ i ∈ {i | i = 0 + r ∨ i = 0 + r + L},
      i ∉ {i | i = 0 + r' ∨ i = 0 + r' + L} := by
    rintro r hr r' hr' hne i (rfl | rfl) (h | h) <;> omega
  refine ⟨fun r hr => ⟨?_, ?_⟩, fun i hi => ?_⟩
  · rw [countUp_of_mem hparts hapart hr (Or.inl (Nat.zero_add r).symm), Nat.zero_add]
    exact rewriteTwo_left _ _ (by omega) z
  · rw [countUp_of_mem hparts hapart hr (Or.inr (by rw [Nat.zero_add])), Nat.zero_add]
    exact rewriteTwo_right _ _ r (r + L) z
  · refine countUp_of_notMem hparts (fun r hr hmem => ?_) z
    rcases hmem with rfl | rfl <;> omega

/-- One pass over twos. -/
theorem radixPass_lastTwo (hL : 0 < L) (z : ℕ → ℂ) :
    RadixPass (-1) (fun _ => 1) 1 0 L z (countUp L (fun r => lastTwo id L (0 + r)) z) := by
  intro b hb q hq r hr
  obtain rfl : b = 0 := Nat.lt_one_iff.mp hb
  obtain ⟨hfirst, hsecond⟩ := (countUp_lastTwo id hL z).1 r hr
  have hreversed : reverseBits 1 0 = 0 ∧ reverseBits 1 1 = 1 := by decide
  rw [Nat.pow_one] at hq
  rw [Nat.pow_one, Finset.sum_range_succ, Finset.sum_range_one, hreversed.1, hreversed.2]
  interval_cases q
  · simpa [Nat.add_comm L] using hfirst
  · simpa [Nat.add_comm L, sub_eq_add_neg] using hsecond

variable {p : ℕ} {x z₀ : ℕ → ℂ}

/-- **What the last loop leaves**: `f` of the transform, and nothing else. -/
theorem number_lastLoop {four two : ℕ → ℕ → (ℕ → ℝ) → ℕ → ℝ}
    (hfour : ∀ L c a, number (four (2 * L) (2 * c) a) = lastFour f L c (number a))
    (htwo : ∀ L c a, number (two (2 * L) (2 * c) a) = lastTwo f L c (number a))
    {s : ℕ × (ℕ → ℝ)} (hs : Remaining p x z₀ s) (i : ℕ) :
    number (if s.1 <<< 2 = 2 ^ (p + 1) then countBy 0 s.1 2 (four s.1) s.2
        else countBy 0 s.1 2 (two s.1) s.2) i =
      if i < 2 ^ p then f (dftSum (2 ^ p) (root (2 ^ p)) x i) else z₀ i := by
  obtain ⟨⟨k, m, rfl, hk, hlength, harranged⟩, hkept⟩ := hs
  have hL := Nat.two_pow_pos m
  have hshift : s.1 <<< 2 = 2 ^ (m + 3) := by
    rw [Nat.shiftLeft_eq, hlength, Nat.pow_add]
    ring
  have hcond : s.1 <<< 2 = 2 ^ (k + m + 1) ↔ k = 2 := by
    rw [hshift, Nat.pow_right_inj Nat.one_lt_two]
    omega
  have hone : root (2 ^ (k + m)) ^ 2 ^ (k + m) = 1 := root_pow_self (Nat.two_pow_pos _).ne'
  rcases hk with rfl | rfl
  · -- two blocks
    have hwhole : 2 ^ (1 + m) = 2 ^ 1 * 2 ^ m := Nat.pow_add 2 1 m
    have hloop := number_countBy (lastTwo f (2 ^ m)) (htwo (2 ^ m)) 0 (2 ^ m) s.2
    rw [Nat.mul_zero, Nat.add_zero] at hloop
    rw [if_neg (mt hcond.mp (by decide)), hlength, hloop]
    obtain ⟨hcells, hbehind⟩ := countUp_lastTwo f hL (number s.2)
    obtain ⟨hplain, -⟩ := countUp_lastTwo id hL (number s.2)
    split
    · next hi =>
        have hdone : Arranged (root (2 ^ (1 + m))) x 0 (2 ^ 1 * 2 ^ m)
            (countUp (2 ^ m) (fun r => lastTwo id (2 ^ m) (0 + r)) (number s.2)) := by
          refine Arranged.pass ?_ ?_ (fun b hb => ?_) harranged (radixPass_lastTwo hL _)
          · rw [Nat.pow_zero, Nat.one_mul, ← hwhole, hone]
          · rw [Nat.pow_zero, Nat.one_mul, root_pow_half]
          · rw [Nat.lt_one_iff.mp hb, reverseBits_zero, Nat.zero_mul, pow_zero]
        have hbin := hdone.eq_dftSum (hwhole ▸ hi)
        rw [← hwhole] at hbin
        rw [← hbin]
        rcases Nat.lt_or_ge i (2 ^ m) with hlow | hhigh
        · rw [(hcells i hlow).1, (hplain i hlow).1, id]
        · obtain ⟨r, rfl⟩ : ∃ r, i = r + 2 ^ m := ⟨i - 2 ^ m, by omega⟩
          rw [(hcells r (by omega)).2, (hplain r (by omega)).2, id]
    · next hi => rw [hbehind i (by omega), hkept i (by omega)]
  · -- four blocks
    have hwhole : 2 ^ (2 + m) = 2 ^ 2 * 2 ^ m := Nat.pow_add 2 2 m
    have hloop := number_countBy (lastFour f (2 ^ m)) (hfour (2 ^ m)) 0 (2 ^ m) s.2
    rw [Nat.mul_zero, Nat.add_zero] at hloop
    rw [if_pos (hcond.mpr rfl), hlength, hloop]
    split
    · next hi =>
        have hdone : Arranged (root (2 ^ (2 + m))) x 0 (2 ^ 2 * 2 ^ m)
            (fourPass (fun _ => 1) (2 ^ m) (2 ^ 0) (number s.2)) := by
          refine Arranged.pass ?_ ?_ (fun b hb => ?_) harranged (radixPass_fourPass hL _ 0 _)
          · rw [Nat.pow_zero, Nat.one_mul, ← hwhole, hone]
          · rw [Nat.pow_zero, Nat.one_mul, Nat.add_comm 2 m, root_pow_quarter]
          · rw [Nat.lt_one_iff.mp hb, reverseBits_zero, Nat.zero_mul, pow_zero]
        have hbin := hdone.eq_dftSum (hwhole ▸ hi)
        rw [← hwhole, Nat.pow_zero] at hbin
        rw [countUp_lastFour f hL _ (by omega), hbin]
    · next hi => rw [countUp_lastFour_of_le f hL _ (by omega), hkept i (by omega)]

end LastLoop

/-! ### `cftfsub` and `cftbsub` -/

section Transform

variable {p : ℕ} {ip : ℕ → ℕ} {w : ℕ → ℝ}

/-- The numbers that `bitrv2` puts into bit-reversed order. -/
theorem arranged_bitrv2 (hp : 1 ≤ p) (ip : ℕ → ℕ) (a : ℕ → ℝ) :
    Arranged (root (2 ^ p)) (number a) p 1 (number (bitrv2 (2 ^ (p + 1)) ip a).2) := by
  refine arranged_of_reversed fun b hb => ?_
  rw [number_eq_iff, pair_bitrv2 hp, reversal_of_lt hb]

/-- **`cftfsub` of numbers in bit-reversed order is the discrete Fourier transform.**  The array
holds single samples as blocks of one, in bit-reversed order; afterwards it holds the bins in the
natural order, and what is behind them was not written. -/
theorem number_cftfsub (hp : 1 ≤ p) (hprep : Prepared p ip w) {x : ℕ → ℂ} {a : ℕ → ℝ}
    (ha : Arranged (root (2 ^ p)) x p 1 (number a)) (i : ℕ) :
    number (cftfsub (2 ^ (p + 1)) a w) i =
      if i < 2 ^ p then dftSum (2 ^ p) (root (2 ^ p)) x i else number a i :=
  number_lastLoop id (fun _ _ a => number_combine_eq_lastFour a) (fun _ _ a => number_combineTwo a)
    (remaining_passes hprep hp ha) i

/-- **`cftbsub`** gives the conjugates.  It is the same sequence of passes with another last loop,
so it is not the transform with the inverse root but the conjugate of the one above. -/
theorem number_cftbsub (hp : 1 ≤ p) (hprep : Prepared p ip w) {x : ℕ → ℂ} {a : ℕ → ℝ}
    (ha : Arranged (root (2 ^ p)) x p 1 (number a)) (i : ℕ) :
    number (cftbsub (2 ^ (p + 1)) a w) i =
      if i < 2 ^ p then starRingEnd ℂ (dftSum (2 ^ p) (root (2 ^ p)) x i) else number a i :=
  number_lastLoop (starRingEnd ℂ) (fun _ _ a => number_combineBack a)
    (fun _ _ a => number_combineTwoBack a) (remaining_passes hprep hp ha) i

/-- The numbers in an array after `bitrv2` and a complex transform, with the tables of the
constructor. -/
noncomputable def transformed (n : ℕ) (subroutine : ℕ → (ℕ → ℝ) → (ℕ → ℝ) → ℕ → ℝ)
    (ip₀ ip : ℕ → ℕ) (w₀ a : ℕ → ℝ) : ℕ → ℂ :=
  number (subroutine n (bitrv2 n ip a).2 (tables realTrig n ip₀ w₀).2)

/-- **The complex transforms**: `bitrv2` and `cftfsub` make the discrete Fourier transform, `bitrv2`
and `cftbsub` its conjugate, and nothing behind the array is written. -/
theorem complex_transforms (p : ℕ) (ip₀ ip : ℕ → ℕ) (w₀ a : ℕ → ℝ) :
    (∀ k < 2 ^ (p + 1), transformed (2 ^ (p + 2)) cftfsub ip₀ ip w₀ a k =
        dftSum (2 ^ (p + 1)) (root (2 ^ (p + 1))) (number a) k ∧
      transformed (2 ^ (p + 2)) cftbsub ip₀ ip w₀ a k =
        starRingEnd ℂ (dftSum (2 ^ (p + 1)) (root (2 ^ (p + 1))) (number a) k)) ∧
      ∀ k, 2 ^ (p + 1) ≤ k → transformed (2 ^ (p + 2)) cftfsub ip₀ ip w₀ a k = number a k ∧
        transformed (2 ^ (p + 2)) cftbsub ip₀ ip w₀ a k = number a k := by
  have hpos : 1 ≤ p + 1 := Nat.succ_pos p
  have hprep := prepared_tables ip₀ w₀ (p + 1)
  have harranged := arranged_bitrv2 hpos ip a
  unfold transformed
  refine ⟨fun k hk => ?_, fun k hk => ?_⟩
  · rw [number_cftfsub hpos hprep harranged, number_cftbsub hpos hprep harranged, if_pos hk,
      if_pos hk]
    exact ⟨rfl, rfl⟩
  · have hbehind : number (bitrv2 (2 ^ (p + 2)) ip a).2 k = number a k := by
      rw [number_eq_iff, pair_bitrv2 hpos, reversal_of_le hk]
    rw [number_cftfsub hpos hprep harranged, number_cftbsub hpos hprep harranged,
      if_neg (Nat.not_lt.mpr hk), if_neg (Nat.not_lt.mpr hk)]
    exact ⟨hbehind, hbehind⟩

end Transform

end Ooura

end Tklb
