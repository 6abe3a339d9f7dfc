import Mathlib.Analysis.SpecialFunctions.Complex.Arctan
import Mathlib.Tactic.FieldSimp
import Tklb.Ooura.BitReversal

/-!
# The tables

With the real functions, `makewt` leaves the powers of a root of unity of order `n / 2` in the
first quarter of `mW`, in bit-reversed order, and `makect` leaves half the cosines in the
second one (`Prepared`, `prepared_tables`).  The constructor writes to no other cells than
those it has asked for (`tables_kept`).

### What is load-bearing

The tables are filled from both ends: each step of the loops writes a point of the unit circle
and the one opposite to it with respect to the diagonal.  `Filled` and `HalfFilled` are the
invariants, and what is left in the middle is written before the loop.  Whether the numbers in
the table are in bit-reversed order depends on the `bitrv2` at the end of `makewt`, so this file
uses `Ooura.BitReversal`.

The real functions enter here and nowhere else (`realTrig`).  What is used of them is what they
are at `1` and `π / 4`, and how `cos` and `sin` of an angle change places: the results are
exact, and say nothing about rounding.
-/

namespace Tklb

open Foundation

namespace Ooura

/-- The functions of the library, on real numbers. -/
noncomputable def realTrig : Trigonometry ℝ := ⟨Real.cos, Real.sin, Real.arctan⟩

/-- The complex number at `i`. -/
def number (a : ℕ → ℝ) (i : ℕ) : ℂ := ⟨a (2 * i), a (2 * i + 1)⟩

theorem number_eq_iff {a b : ℕ → ℝ} {i j : ℕ} :
    number a i = number b j ↔ pair a i = pair b j := by
  rw [number, number, Complex.mk.injEq, pair, pair, Prod.mk.injEq]

/-- A root of unity of order `N`. -/
noncomputable def root (N : ℕ) : ℂ := Complex.exp ((2 : ℕ) * Real.pi * Complex.I / N)

theorem root_eq (N : ℕ) : root N = Complex.exp (2 * Real.pi * Complex.I / N) := by
  rw [root, Nat.cast_ofNat]

/-- The point at `m / N` of the unit circle. -/
noncomputable def wheel (N m : ℕ) : ℝ × ℝ :=
  (Real.cos ((2 : ℕ) * Real.pi * m / N), Real.sin ((2 : ℕ) * Real.pi * m / N))

theorem wheel_eq (N m : ℕ) :
    wheel N m = (Real.cos (2 * Real.pi * m / N), Real.sin (2 * Real.pi * m / N)) := by
  rw [wheel, Nat.cast_ofNat]

theorem root_pow (N m : ℕ) : root N ^ m = ⟨(wheel N m).1, (wheel N m).2⟩ := by
  have hexponent : (m : ℂ) * (2 * Real.pi * Complex.I / N) =
      ((2 * Real.pi * m / N : ℝ) : ℂ) * Complex.I := by
    push_cast
    ring
  rw [root_eq, ← Complex.exp_nat_mul, hexponent]
  apply Complex.ext
  · rw [Complex.exp_ofReal_mul_I_re, wheel_eq]
  · rw [Complex.exp_ofReal_mul_I_im, wheel_eq]

/-- What the transforms of `2 ^ (p + 1)` samples need of the tables.  The two lengths, the twiddles
in bit-reversed order, and half the cosines; the entries of `mIp` behind the lengths are computed
anew in every call and are not part of it. -/
structure Prepared (p : ℕ) (ip : ℕ → ℕ) (w : ℕ → ℝ) : Prop where
  nw : ip 0 = 2 ^ (p + 1) / 4
  nc : ip 1 = 2 ^ (p + 1) / 4
  twiddles : ∀ t, 1 ≤ t → p = t + 2 → ∀ b < 2 ^ t, number w b = root (2 ^ p) ^ reverseBits t b
  cosines : ∀ k, 0 < k → k < 2 ^ (p + 1) / 4 →
    w (2 ^ (p + 1) / 4 + k) = Real.cos (2 * Real.pi * k / (2 ^ (p + 1) : ℕ)) / 2

/-! ### `makewt` -/

section Makewt

variable {u : ℕ}

/-- The points between the first and the middle one, and those opposite, have been written. -/
def Filled (u i : ℕ) (w w' : ℕ → ℝ) : Prop :=
  (∀ m < 2 ^ (u + 1), m ≤ i ∨ m = 2 ^ u ∨ 2 ^ (u + 1) ≤ m + i →
    pair w' m = wheel (2 ^ (u + 3)) m) ∧
  ∀ m, 2 ^ (u + 1) ≤ m → pair w' m = pair w m

/-- Points opposite each other have the coordinates exchanged. -/
theorem wheel_opposite {m : ℕ} (hm : m ≤ 2 ^ (u + 1)) :
    wheel (2 ^ (u + 3)) (2 ^ (u + 1) - m) =
      ((wheel (2 ^ (u + 3)) m).2, (wheel (2 ^ (u + 3)) m).1) := by
  have hangle : 2 * Real.pi * ((2 ^ (u + 1) - m : ℕ) : ℝ) / (2 ^ (u + 3) : ℕ) =
      Real.pi / 2 - 2 * Real.pi * m / (2 ^ (u + 3) : ℕ) := by
    rw [Nat.cast_sub hm]
    push_cast
    field_simp
    ring
  rw [wheel_eq, hangle, Real.cos_pi_div_two_sub, Real.sin_pi_div_two_sub, wheel_eq]

/-- What `delta` is for. -/
theorem delta_mul (u m : ℕ) : Real.arctan 1 / (2 ^ (u + 1) : ℕ) * (2 * m : ℕ) =
    2 * Real.pi * m / (2 ^ (u + 3) : ℕ) := by
  rw [Real.arctan_one]
  push_cast
  field_simp
  ring

theorem wheel_middle (u : ℕ) : wheel (2 ^ (u + 3)) (2 ^ u) =
    (Real.cos (Real.arctan 1 / (2 ^ (u + 1) : ℕ) * (2 ^ (u + 1) : ℕ)),
      Real.cos (Real.arctan 1 / (2 ^ (u + 1) : ℕ) * (2 ^ (u + 1) : ℕ))) := by
  have hangle : 2 * Real.pi * ((2 ^ u : ℕ) : ℝ) / (2 ^ (u + 3) : ℕ) = Real.pi / 4 := by
    push_cast
    field_simp
    ring
  have hdelta : Real.arctan 1 / ((2 ^ (u + 1) : ℕ) : ℝ) * (2 ^ (u + 1) : ℕ) = Real.pi / 4 := by
    rw [Real.arctan_one]
    exact div_mul_cancel₀ _ (by positivity)
  rw [hdelta, wheel_eq, hangle, Real.cos_pi_div_four, Real.sin_pi_div_four]

theorem filled_start (w : ℕ → ℝ) (c : ℝ)
    (hc : wheel (2 ^ (u + 3)) (2 ^ u) = (c, c)) :
    Filled u 0 w (store (2 * 2 ^ u) c c (store (2 * 0) 1 0 w)) := by
  have hpos := Nat.two_pow_pos u
  rw [Filled, pair_store, pair_store]
  refine ⟨fun m hm hcase => ?_, fun m hm => ?_⟩
  · by_cases hmiddle : m = 2 ^ u
    · rw [hmiddle, Function.update_self, hc]
    · obtain rfl : m = 0 := by omega
      rw [Function.update_of_ne hmiddle, Function.update_self, wheel_eq]
      simp
  · rw [Nat.pow_succ] at hm
    rw [Function.update_of_ne (by omega), Function.update_of_ne (by omega)]

theorem Filled.step {i : ℕ} {w w' : ℕ → ℝ} (hi : i + 1 < 2 ^ u) (h : Filled u i w w') :
    Filled u (i + 1) w
      (store (2 * (2 ^ (u + 1) - (i + 1))) (wheel (2 ^ (u + 3)) (i + 1)).2
        (wheel (2 ^ (u + 3)) (i + 1)).1
        (store (2 * (i + 1)) (wheel (2 ^ (u + 3)) (i + 1)).1
          (wheel (2 ^ (u + 3)) (i + 1)).2 w')) := by
  have hhalf : 2 ^ (u + 1) = 2 * 2 ^ u := Nat.pow_succ'
  rw [Filled, pair_store, pair_store]
  refine ⟨fun m hm hcase => ?_, fun m hm => ?_⟩
  · by_cases hopposite : m = 2 ^ (u + 1) - (i + 1)
    · rw [hopposite, Function.update_self, wheel_opposite (by omega)]
    · rw [Function.update_of_ne hopposite]
      by_cases hfirst : m = i + 1
      · rw [hfirst, Function.update_self]
      · rw [Function.update_of_ne hfirst]
        exact h.1 m hm (by omega)
  · rw [Function.update_of_ne (by omega), Function.update_of_ne (by omega), h.2 m hm]

/-- The table before `bitrv2`. -/
theorem filled_loop {w w' : ℕ → ℝ} (h : Filled u 0 w w') :
    Filled u (2 ^ u - 1) w (countBy 2 (2 ^ (u + 1)) 2 (fun j w =>
      store (2 ^ (u + 2) - j) (Real.sin (Real.arctan 1 / (2 ^ (u + 1) : ℕ) * j))
        (Real.cos (Real.arctan 1 / (2 ^ (u + 1) : ℕ) * j))
        (store j (Real.cos (Real.arctan 1 / (2 ^ (u + 1) : ℕ) * j))
          (Real.sin (Real.arctan 1 / (2 ^ (u + 1) : ℕ) * j)) w)) w') := by
  have hpos := Nat.two_pow_pos u
  have hhalf : 2 ^ (u + 1) = 2 * 2 ^ u := Nat.pow_succ'
  have hwhole : 2 ^ (u + 2) = 2 * 2 ^ (u + 1) := Nat.pow_succ'
  rw [countBy_eq_countUp Nat.two_pos (n := 2 ^ u - 1) (by omega)]
  refine countUp_invariant (fun i w'' => Filled u i w w'') h fun i hi w'' hw'' => ?_
  have hindex : 2 + i * 2 = 2 * (i + 1) := by ring
  have hopposite : 2 ^ (u + 2) - 2 * (i + 1) = 2 * (2 ^ (u + 1) - (i + 1)) := by omega
  rw [hindex, hopposite, delta_mul]
  exact hw''.step (by omega)

/-- What `makewt` leaves in `w`, up to the reversal. -/
theorem makewt_pair (ip : ℕ → ℕ) (w : ℕ → ℝ) (i : ℕ) :
    pair (makewt realTrig (2 ^ (u + 2)) ip w).2 i =
      if i < 2 ^ (u + 1) then wheel (2 ^ (u + 3)) (reverseBits (u + 1) i) else pair w i := by
  have hpos := Nat.two_pow_pos u
  have hhalf : 2 ^ (u + 1) = 2 * 2 ^ u := Nat.pow_succ'
  have hwhole : 2 ^ (u + 2) = 2 * 2 ^ (u + 1) := Nat.pow_succ'
  have hshift : 2 ^ (u + 2) >>> 1 = 2 ^ (u + 1) := by
    rw [Nat.shiftRight_eq_div_pow, Nat.pow_one]
    omega
  have hstart : ∀ c : ℝ, Function.update (Function.update (Function.update (Function.update w 0 1)
      1 0) (2 ^ (u + 1)) c) (2 ^ (u + 1) + 1) (Function.update (Function.update (Function.update w
      0 1) 1 0) (2 ^ (u + 1)) c (2 ^ (u + 1))) =
      store (2 * 2 ^ u) c c (store (2 * 0) 1 0 w) := by
    intro c
    rw [Function.update_self, hhalf]
    rfl
  have hfilled := filled_start w _ (wheel_middle u)
  rw [makewt, if_pos (by omega)]
  dsimp only
  rw [hshift, hstart]
  by_cases hu : u = 0
  · subst hu
    rw [if_neg (by decide)]
    dsimp only
    split
    · next hi =>
        rw [reverseBits_one_of_lt hi]
        exact hfilled.1 i hi (by omega)
    · next hi => exact hfilled.2 i (by omega)
  · have hmany : 2 ≤ 2 ^ u := by
      calc 2 = 2 ^ 1 := rfl
        _ ≤ 2 ^ u := Nat.pow_le_pow_right Nat.two_pos (by omega)
    rw [if_pos (by omega)]
    dsimp only
    rw [pair_bitrv2 (by omega)]
    have hdone := filled_loop hfilled
    split
    · next hi =>
        have hreverse := reverseBits_lt (u + 1) i
        rw [reversal_of_lt hi]
        exact hdone.1 _ hreverse (by omega)
    · next hi =>
        rw [reversal_of_le (by omega)]
        exact hdone.2 i (by omega)

/-- What `makewt` leaves in `ip`. -/
theorem makewt_ip (nw : ℕ) (ip : ℕ → ℕ) (w : ℕ → ℝ) : (makewt realTrig nw ip w).1 0 = nw := by
  have hstart : Function.update (Function.update ip 0 nw) 1 1 0 = nw := by
    rw [Function.update_of_ne Nat.zero_ne_one, Function.update_self]
  rw [makewt]
  dsimp only
  split
  · split
    · exact hstart
    · exact hstart
  · exact hstart

end Makewt

/-! ### `makect` -/

section Makect

variable {nch : ℕ}

/-- The cosines between the first and the middle one, and those opposite, have been written. -/
def HalfFilled (nch : ℕ) (δ : ℝ) (i : ℕ) (c c' : ℕ → ℝ) : Prop :=
  (∀ k, 0 < k → k < 2 * nch → k ≤ i ∨ k = nch ∨ 2 * nch ≤ k + i →
    c' k = 1 / (2 : ℕ) * Real.cos (δ * k)) ∧
  ∀ k, 2 * nch ≤ k → c' k = c k

theorem HalfFilled.step {δ : ℝ} (hδ : δ * (2 * nch : ℕ) = Real.pi / 2) {i : ℕ} {c c' : ℕ → ℝ}
    (hi : i + 1 < nch) (h : HalfFilled nch δ i c c') :
    HalfFilled nch δ (i + 1) c
      (Function.update (Function.update c' (i + 1) (1 / (2 : ℕ) * Real.cos (δ * (i + 1 : ℕ))))
        (2 * nch - (i + 1)) (1 / (2 : ℕ) * Real.sin (δ * (i + 1 : ℕ)))) := by
  refine ⟨fun k hpos hk hcase => ?_, fun k hk => ?_⟩
  · by_cases hopposite : k = 2 * nch - (i + 1)
    · rw [hopposite, Function.update_self, Nat.cast_sub (by omega), mul_sub, hδ,
        Real.cos_pi_div_two_sub]
    · rw [Function.update_of_ne hopposite]
      by_cases hfirst : k = i + 1
      · rw [hfirst, Function.update_self]
      · rw [Function.update_of_ne hfirst]
        exact h.1 k hpos hk (by omega)
  · rw [Function.update_of_ne (by omega), Function.update_of_ne (by omega), h.2 k hk]

/-- What `makect` leaves in `c`. -/
theorem makect_apply (hpos : 0 < nch) (ip : ℕ → ℕ) (c : ℕ → ℝ) :
    (∀ k, 0 < k → k < 2 * nch → (makect realTrig (2 * nch) ip c).2 k =
      1 / 2 * Real.cos (Real.arctan 1 / nch * k)) ∧
    ∀ k, 2 * nch ≤ k → (makect realTrig (2 * nch) ip c).2 k = c k := by
  have hshift : (2 * nch) >>> 1 = nch := by
    rw [Nat.shiftRight_eq_div_pow, Nat.pow_one, Nat.mul_div_cancel_left _ Nat.two_pos]
  have hδ : Real.arctan 1 / nch * (2 * nch : ℕ) = Real.pi / 2 := by
    rw [Real.arctan_one]
    push_cast
    field_simp
    ring
  have hstart : HalfFilled nch (Real.arctan 1 / nch) 0 c
      (Function.update (Function.update c 0 (Real.cos (Real.arctan 1 / nch * nch))) nch
        (1 / (2 : ℕ) * Real.cos (Real.arctan 1 / nch * nch))) := by
    refine ⟨fun k hk hlt hcase => ?_, fun k hk => ?_⟩
    · obtain rfl : k = nch := by omega
      rw [Function.update_self]
    · rw [Function.update_of_ne (by omega), Function.update_of_ne (by omega)]
  have hloop : HalfFilled nch (Real.arctan 1 / nch) (nch - 1) c
      (makect realTrig (2 * nch) ip c).2 := by
    rw [makect, if_pos (by omega)]
    dsimp only
    rw [hshift, Function.update_self,
      countBy_eq_countUp Nat.one_pos (n := nch - 1) (by omega)]
    refine countUp_invariant (fun i c' => HalfFilled nch _ i c c') hstart fun i hi c' hc' => ?_
    rw [Nat.mul_one, Nat.add_comm 1 i]
    exact hc'.step hδ (by omega)
  refine ⟨fun k hk hlt => ?_, hloop.2⟩
  rw [hloop.1 k hk hlt (by omega), Nat.cast_ofNat]

theorem makect_ip (nc : ℕ) (ip : ℕ → ℕ) (c : ℕ → ℝ) :
    (makect realTrig nc ip c).1 = Function.update ip 1 nc := by
  rw [makect]
  dsimp only
  split <;> rfl

end Makect

/-! ### The constructor -/

section Construct

variable (ip : ℕ → ℕ) (w : ℕ → ℝ)

theorem replaceBehind_of_lt {β : Type} {k i : ℕ} (hi : i < k) (p q : ℕ → β) :
    replaceBehind k p q i = p i := if_neg hi.not_ge

theorem replaceBehind_of_le {β : Type} {k i : ℕ} (hi : k ≤ i) (p q : ℕ → β) :
    replaceBehind k p q i = q (i - k) := if_pos hi

theorem replaceBehind_add {β : Type} (k i : ℕ) (p q : ℕ → β) :
    replaceBehind k p q (k + i) = q i := by
  rw [replaceBehind_of_le (Nat.le_add_right k i), Nat.add_sub_cancel_left]

theorem two_pow_div_four (p : ℕ) : 2 ^ (p + 2) / 4 = 2 ^ p := by
  rw [Nat.pow_add]
  exact Nat.mul_div_cancel _ (by decide)

/-- **The tables the constructor computes**, whatever the buffers held before.  That is all the
transforms assume: the lengths in front, the roots of unity in the first quarter and the halved
cosines in the second. -/
theorem prepared_tables (p : ℕ) :
    Prepared p (tables realTrig (2 ^ (p + 1)) ip w).1 (tables realTrig (2 ^ (p + 1)) ip w).2 where
  nw := by
    show (makect realTrig _ _ _).1 0 = _
    rw [makect_ip, Function.update_of_ne Nat.zero_ne_one, makewt_ip]
  nc := by
    show (makect realTrig _ _ _).1 1 = _
    rw [makect_ip, Function.update_self]
  twiddles := by
    intro t ht hp b hb
    obtain ⟨u, rfl⟩ : ∃ u, t = u + 1 := ⟨t - 1, by omega⟩
    subst hp
    have hsize : 2 ^ (u + 1 + 2 + 1) / 4 = 2 ^ (u + 2) := two_pow_div_four (u + 2)
    have hwhole : 2 ^ (u + 2) = 2 * 2 ^ (u + 1) := Nat.pow_succ'
    have hpair := makewt_pair (u := u) ip w b
    rw [if_pos hb] at hpair
    have hsame : number (tables realTrig (2 ^ (u + 1 + 2 + 1)) ip w).2 b =
        number (makewt realTrig (2 ^ (u + 2)) ip w).2 b := by
      rw [number, number, tables, hsize]
      dsimp only
      rw [replaceBehind_of_lt (by omega), replaceBehind_of_lt (by omega)]
    obtain ⟨hre, him⟩ := Prod.mk.inj hpair
    rw [hsame, root_pow, number, hre, him]
    rfl
  cosines := by
    intro k hpos hk
    obtain ⟨v, rfl⟩ : ∃ v, p = v + 2 := by
      refine ⟨p - 2, ?_⟩
      by_contra hne
      have hsmall : p = 0 ∨ p = 1 := by omega
      rcases hsmall with rfl | rfl
      · omega
      · omega
    have hsize : 2 ^ (v + 2 + 1) / 4 = 2 * 2 ^ v := by
      rw [← Nat.pow_succ']
      exact two_pow_div_four (v + 1)
    rw [hsize] at hk
    rw [tables, hsize]
    dsimp only
    rw [replaceBehind_add, (makect_apply (Nat.two_pow_pos v) _ _).1 k hpos hk,
      Real.arctan_one, one_div_mul_eq_div]
    congr 2
    push_cast
    field_simp
    ring

/-- A table for up to two numbers is not needed. -/
theorem makewt_of_le {nw : ℕ} (hnw : nw ≤ 2) :
    makewt realTrig nw ip w = (Function.update (Function.update ip 0 nw) 1 1, w) := by
  rw [makewt]
  exact if_neg (by omega)

/-- `makewt` writes no further than `w[nw - 1]`. -/
theorem makewt_kept (p : ℕ) {k : ℕ} (hk : 2 ^ (p + 1) / 4 ≤ k) :
    (makewt realTrig (2 ^ (p + 1) / 4) ip w).2 k = w k := by
  by_cases hp : p < 3
  · have hsmall : 2 ^ (p + 1) / 4 ≤ 2 := by interval_cases p <;> decide
    rw [makewt_of_le ip w hsmall]
  · obtain ⟨u, rfl⟩ : ∃ u, p = u + 3 := ⟨p - 3, by omega⟩
    rw [two_pow_div_four (u + 2)] at hk ⊢
    have hwhole : 2 ^ (u + 2) = 2 * 2 ^ (u + 1) := Nat.pow_succ'
    have hpair := makewt_pair (u := u) ip w (k / 2)
    rw [if_neg (by omega)] at hpair
    have hcell := eq_of_pair hpair (Nat.mod_lt k Nat.two_pos)
    rwa [Nat.div_add_mod] at hcell

/-- Nor does it write beyond the part of `ip` that `bitrv2` has. -/
theorem makewt_ip_kept (p : ℕ) {k : ℕ} (hk : 2 + Nat.sqrt (2 ^ (p + 1)) ≤ k) :
    (makewt realTrig (2 ^ (p + 1) / 4) ip w).1 k = ip k := by
  have hstart : ∀ nw, Function.update (Function.update ip 0 nw) 1 1 k = ip k := by
    intro nw
    rw [Function.update_of_ne (by omega), Function.update_of_ne (by omega)]
  by_cases hp : p < 3
  · have hsmall : 2 ^ (p + 1) / 4 ≤ 2 := by interval_cases p <;> decide
    rw [makewt_of_le ip w hsmall]
    exact hstart _
  · obtain ⟨u, rfl⟩ : ∃ u, p = u + 3 := ⟨p - 3, by omega⟩
    rw [two_pow_div_four (u + 2), makewt]
    dsimp only
    split
    · split
      · have hroot : Nat.sqrt (2 ^ (u + 1 + 1)) ≤ Nat.sqrt (2 ^ (u + 3 + 1)) :=
          Nat.sqrt_le_sqrt (Nat.pow_le_pow_right Nat.two_pos (by omega))
        show replaceBehind 2 _ (bitrv2 _ _ _).1 k = _
        rw [replaceBehind_of_le (by omega), bitrv2_ip_of_le (by omega) _ _ (by omega), behind,
          Nat.add_sub_cancel' (by omega)]
        exact hstart _
      · exact hstart _
    · exact hstart _

/-- `makect` writes no further than `c[nc - 1]`. -/
theorem makect_kept (p : ℕ) (c : ℕ → ℝ) {k : ℕ} (hk : 2 ^ (p + 1) / 4 ≤ k) :
    (makect realTrig (2 ^ (p + 1) / 4) ip c).2 k = c k := by
  by_cases hp : p < 2
  · have hsmall : 2 ^ (p + 1) / 4 ≤ 1 := by interval_cases p <;> decide
    rw [makect]
    dsimp only
    rw [if_neg (by omega)]
  · obtain ⟨v, rfl⟩ : ∃ v, p = v + 2 := ⟨p - 2, by omega⟩
    have hsize : 2 ^ (v + 2 + 1) / 4 = 2 * 2 ^ v := by
      rw [← Nat.pow_succ']
      exact two_pow_div_four (v + 1)
    rw [hsize] at hk ⊢
    exact (makect_apply (Nat.two_pow_pos v) ip c).2 k hk

/-- **The constructor stays inside** of `mIp` and `mW`.  The first buffer is written up to the root
of the length and two more, the second up to half the length, which are the sizes the class gives
them. -/
theorem tables_kept (p : ℕ) :
    (∀ k, 2 + Nat.sqrt (2 ^ (p + 1)) ≤ k → (tables realTrig (2 ^ (p + 1)) ip w).1 k = ip k) ∧
      ∀ k, 2 ^ (p + 1) / 2 ≤ k → (tables realTrig (2 ^ (p + 1)) ip w).2 k = w k := by
  refine ⟨fun k hk => ?_, fun k hk => ?_⟩
  · show (makect realTrig _ _ _).1 k = _
    rw [makect_ip, Function.update_of_ne (by omega), makewt_ip_kept ip w p hk]
  · show replaceBehind (2 ^ (p + 1) / 4) _ _ k = _
    rw [replaceBehind_of_le (by omega), makect_kept _ p _ (by omega), behind,
      Nat.add_sub_cancel' (by omega), makewt_kept ip w p (by omega)]

/-- **The tables of the constructor**, for every power of two and whatever the buffers held: the
lengths, the twiddles in bit-reversed order and the halved cosines, and nothing outside. -/
theorem tables_exact (p : ℕ) :
    Prepared p (tables realTrig (2 ^ (p + 1)) ip w).1 (tables realTrig (2 ^ (p + 1)) ip w).2 ∧
      (∀ k, 2 + Nat.sqrt (2 ^ (p + 1)) ≤ k → (tables realTrig (2 ^ (p + 1)) ip w).1 k = ip k) ∧
      ∀ k, 2 ^ (p + 1) / 2 ≤ k → (tables realTrig (2 ^ (p + 1)) ip w).2 k = w k :=
  ⟨prepared_tables ip w p, tables_kept ip w p⟩

end Construct

end Ooura

end Tklb
