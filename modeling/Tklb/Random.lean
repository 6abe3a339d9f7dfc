import Tklb.Foundation.Congruential

/-!
# `random`

The generator is a linear congruential map modulo `2 ^ 31`, computed in `unsigned long`,
which has at least 32 bits.  The product may overflow: as `2 ^ 31` divides the modulus of
the type, the remainder is the same (`next_mState`).

The multiplier is 1 modulo 4 and the increment is odd.  So the states after the first call
go through all numbers below `2 ^ 31` before one of them returns (`existsUnique_after`).

### Main results

* `next_mState` — the width of `unsigned long` does not matter, as long as it has 32 bits.
* `after_period`, `existsUnique_after`, `dvd_of_after_eq` — the states after the first call form
  one cycle of `2 ^ 31` numbers, whatever the seed.

The state that the seed sets may be larger than `2 ^ 31`, so it need not be on the cycle; the
first call brings the generator onto it.  The general facts about such maps are in
`Foundation.Congruential`, for any multiplier and increment of the right remainders.
-/

namespace Tklb

open Foundation

/-- `random`; `unsigned long` is `w` bits wide. -/
@[ext]
structure Random (w : ℕ) where
  mState : BitVec w
deriving DecidableEq

namespace Random

variable {w : ℕ}

/-- `next`: the number it returns, and the generator it leaves. -/
def next (r : Random w) : BitVec w × Random w :=
  let mState := (r.mState * 1103515245 + 12345) % 2147483648
  (mState, ⟨mState⟩)

/-- The generator after `n` calls of `next`. -/
def after (n : ℕ) (r : Random w) : Random w := (fun r => (next r).2)^[n] r

@[simp] theorem after_zero (r : Random w) : after 0 r = r := rfl

theorem after_succ (n : ℕ) (r : Random w) : after (n + 1) r = (next (after n r)).2 :=
  Function.iterate_succ_apply' _ n r

theorem after_add (m n : ℕ) (r : Random w) : after (m + n) r = after m (after n r) :=
  Function.iterate_add_apply _ m n r

/-- **One call** is one step of the congruential map, whatever the width of the type. -/
theorem next_mState (hw : 32 ≤ w) (r : Random w) :
    (next r).2.mState.toNat = congruential (2 ^ 31) 1103515245 12345 r.mState.toNat := by
  have hfit : 2 ^ 32 ≤ 2 ^ w := Nat.pow_le_pow_right Nat.two_pos hw
  have hlit : ∀ n < 2 ^ 32, (BitVec.ofNat w n).toNat = n := fun n hn => by
    rw [BitVec.toNat_ofNat, Nat.mod_eq_of_lt (lt_of_lt_of_le hn hfit)]
  have hmod : (2147483648 : ℕ) = 2 ^ 31 := by norm_num
  have hdvd : 2 ^ 31 ∣ 2 ^ w := Nat.pow_dvd_pow 2 (by omega)
  simp only [next, BitVec.ofNat_eq_ofNat, BitVec.toNat_umod, BitVec.toNat_add, BitVec.toNat_mul]
  rw [hlit _ (by norm_num), hlit _ (by norm_num), hlit _ (by norm_num), Nat.mod_add_mod, hmod,
    Nat.mod_mod_of_dvd _ hdvd, Nat.mul_comm, congruential]

theorem after_mState (hw : 32 ≤ w) (n : ℕ) (r : Random w) :
    (after n r).mState.toNat =
      (congruential (2 ^ 31) 1103515245 12345)^[n] r.mState.toNat := by
  induction n with
  | zero => rfl
  | succ n ih => rw [after_succ, next_mState hw, ih, Function.iterate_succ_apply']

/-- A generator is determined by the number in it. -/
theorem eq_of_toNat {r s : Random w} (h : r.mState.toNat = s.mState.toNat) : r = s := by
  ext1
  exact BitVec.eq_of_toNat_eq h

/-- After the first call the state is below `2 ^ 31`. -/
theorem after_lt (hw : 32 ≤ w) {n : ℕ} (hn : 1 ≤ n) (r : Random w) :
    (after n r).mState.toNat < 2 ^ 31 := by
  obtain ⟨n, rfl⟩ := Nat.exists_eq_add_of_le' hn
  rw [after_succ, next_mState hw]
  exact Congruential.congruential_lt (Nat.two_pow_pos 31) _

section Cycle

variable {r : Random w} (hw : 32 ≤ w) (hr : r.mState.toNat < 2 ^ 31)
include hw hr

/-- **The cycle closes** after `2 ^ 31` calls.  Here the state of `r` is below `2 ^ 31`, as it is
after any call of `next`. -/
theorem after_period : after (2 ^ 31) r = r := by
  apply eq_of_toNat
  rw [after_mState hw]
  have hcycle := Congruential.iterate_eq_iff (a := 1103515245) (c := 12345) rfl rfl hr 0 (2 ^ 31)
  rw [Nat.zero_add] at hcycle
  exact hcycle.mpr dvd_rfl

/-- **The cycle goes through everything**: every state below `2 ^ 31` comes exactly once. -/
theorem existsUnique_after {v : ℕ} (hv : v < 2 ^ 31) :
    ∃! i, i < 2 ^ 31 ∧ (after i r).mState.toNat = v := by
  simp only [after_mState hw]
  exact Congruential.existsUnique_iterate rfl rfl hr hv

end Cycle

/-- **A state that returns** does so after a multiple of the period. -/
theorem dvd_of_after_eq (hw : 32 ≤ w) {m d : ℕ} {r : Random w}
    (h : after (m + d) r = after m r) : 2 ^ 31 ∣ d := by
  rcases Nat.eq_zero_or_pos d with rfl | hd
  · exact dvd_zero _
  · -- the state is on the cycle, as it is left by a call
    have hlt := after_lt hw (show 1 ≤ m + d by omega) r
    have hreturn := congrArg (fun r : Random w => r.mState.toNat) h
    simp only [Nat.add_comm m d, after_add d m, after_mState hw d] at hreturn
    rw [h] at hlt
    refine (Congruential.iterate_eq_iff (a := 1103515245) (c := 12345) rfl rfl hlt 0 d).mp ?_
    rw [Nat.zero_add]
    exact hreturn

end Random

end Tklb
