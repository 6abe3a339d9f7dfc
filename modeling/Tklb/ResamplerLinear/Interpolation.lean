import Mathlib.Algebra.Order.Floor.Semifield
import Tklb.Resampler
import Tklb.ResamplerLinear

/-!
# Linear interpolation

The frame at position `p` should lie on the line between the input frames next to `p`, and
the output lags one frame behind: what is mixed are the frames `⌊p⌋ - 1` and `⌊p⌋`, with
silence in front of the input (`interpolation`).  `process` mixes the frame `⌊p⌋` with the
one it read for the output frame before, which is the frame `⌊p⌋ - 1` only if the positions
advance by one input frame.

The weight of the earlier frame is never zero, so the mix is the right one exactly if the
earlier frame is (`interpolation_eq_some_iff`).

### Main result

`interpolates_iff` is about every pair of rates, every input and every size of the output: what
`process` returns is the interpolation of its input if and only if no position lies behind the
input and, from the second frame on, the sample kept is the one in front of the position.

The interpolation is defined with a delay of one frame, since what `process` mixes are the sample
at a position and an earlier one.  So the delay is not held against it.
-/

namespace Tklb

open Foundation

namespace ResamplerLinear

variable {w : ℕ}

/-- The frame in front of frame `k`. -/
def previous (x : ℕ → ℚ) : ℕ → ℚ
  | 0 => 0
  | k + 1 => x k

/-- The interpolation of the first `n` frames of `x` at position `p`, one frame late.  Frame
`n` is not there, so the last position is `n` itself. -/
def interpolation (x : ℕ → ℚ) (n : ℕ) (p : ℚ) : Option ℚ :=
  let k := ⌊p⌋₊
  if k < n then some (previous x k + (p - k) * (x k - previous x k))
  else if p = n then some (previous x k)
  else none

/-- What `process` returns for an input of `n` frames is its interpolation.  Every frame of every
channel, at the position that the two rates give it. -/
def Interpolates (rateIn rateOut : ℕ) (input : AudioBuffer w ℚ)
    (result : ℕ × ResamplerLinear × AudioBuffer w ℚ) : Prop :=
  ∀ c < input.mChannels, ∀ o < result.1,
    interpolation (input.sample c) input.mValidSize (o * rateIn / rateOut) =
      some (result.2.2.sample c o)

/-- A mix with another frame is the interpolation only if this is the frame in front. -/
theorem interpolation_eq_some_iff {x : ℕ → ℚ} {n : ℕ} {p last : ℚ} (hp : 0 ≤ p)
    (hk : ⌊p⌋₊ ≤ n) :
    interpolation x n p = some (last + (p - ⌊p⌋₊) * (x ⌊p⌋₊ - last)) ↔
      p ≤ n ∧ previous x ⌊p⌋₊ = last := by
  have hmix := Nat.lt_floor_add_one p
  rw [interpolation]
  rcases hk.lt_or_eq with hlt | heq
  · have hinside : p ≤ n := ((Nat.floor_lt hp).mp hlt).le
    rw [if_pos hlt, Option.some.injEq, and_iff_right hinside]
    constructor
    · intro h
      have hweight : (1 - (p - ⌊p⌋₊)) * (previous x ⌊p⌋₊ - last) = 0 := by linarith
      rcases mul_eq_zero.mp hweight with hzero | hsame
      · linarith
      · exact sub_eq_zero.mp hsame
    · intro h
      rw [h]
  · rw [if_neg heq.not_lt]
    by_cases hend : p = n
    · rw [if_pos hend, Option.some.injEq, heq, hend, sub_self, zero_mul, add_zero,
        and_iff_right le_rfl]
    · have hle : (n : ℚ) ≤ p := heq ▸ Nat.floor_le hp
      rw [if_neg hend]
      exact iff_of_false nofun fun h => hend (le_antisymm h.1 hle)

section Rates

variable {r : ResamplerLinear} {rateIn rateOut : ℕ} (hrates : r.mFactor = rateIn / rateOut)
include hrates

/-- The position of an output frame, as a fraction of the rates. -/
theorem position_eq (o : ℕ) : (o : ℚ) * r.mFactor = ((o * rateIn : ℕ) : ℚ) / rateOut := by
  rw [hrates, Nat.cast_mul, mul_div_assoc]

theorem floor_position (o : ℕ) : ⌊(o : ℚ) * r.mFactor⌋₊ = o * rateIn / rateOut := by
  rw [position_eq hrates]
  exact Nat.floor_div_eq_div (o * rateIn) rateOut

theorem position_le_iff (hout : 0 < rateOut) {o n : ℕ} :
    (o : ℚ) * r.mFactor ≤ n ↔ o * rateIn ≤ n * rateOut := by
  rw [position_eq hrates, div_le_iff₀ (by positivity)]
  norm_cast

/-- The output frames, in terms of the rates. -/
theorem lt_frameCount_iff (hin : 0 < rateIn) (hout : 0 < rateOut) {n room o : ℕ} :
    o < frameCount r.mFactor n room ↔ o < room ∧ o * rateIn < (n + 1) * rateOut := by
  have hfactor := Resampler.factor_pos hin hout hrates
  rw [frameCount, lt_min_iff, ← floor_le_iff hfactor, floor_position hrates,
    ← Nat.lt_succ_iff, Nat.div_lt_iff_lt_mul hout]

/-- One output frame. -/
theorem interpolation_eq_frameAt_iff (hin : 0 < rateIn) (hout : 0 < rateOut) {x : ℕ → ℚ}
    {last : ℚ} {n room o : ℕ} (ho : o < frameCount r.mFactor n room) :
    interpolation x n (o * rateIn / rateOut) = some (frameAt r.mFactor x last o) ↔
      o * rateIn ≤ n * rateOut ∧
        previous x (o * rateIn / rateOut) = tap r.mFactor x last o := by
  have hposition : (o : ℚ) * rateIn / rateOut = o * r.mFactor := by
    rw [position_eq hrates, Nat.cast_mul]
  have hfactor := Resampler.factor_pos hin hout hrates
  rw [hposition, frameAt, interpolation_eq_some_iff (by positivity)
    (floor_le_of_lt_frameCount hfactor ho), position_le_iff hrates hout, floor_position hrates]

end Rates

/-- **When `process` interpolates.**  Behind the first frame of the output, no position lies
behind the input, and the frame in front of the position is the last one that was read. -/
theorem interpolates_iff (r : ResamplerLinear) {rateIn rateOut : ℕ} (hin : 0 < rateIn)
    (hout : 0 < rateOut) {input out : AudioBuffer w ℚ}
    (hchannels : input.mChannels ≤ out.mChannels) :
    Interpolates rateIn rateOut input ((r.init rateIn rateOut).process input out) ↔
      ∀ c < input.mChannels, ∀ o, o + 1 < out.size →
        (o + 1) * rateIn < (input.mValidSize + 1) * rateOut →
        (o + 1) * rateIn ≤ input.mValidSize * rateOut ∧
          previous (input.sample c) ((o + 1) * rateIn / rateOut) =
            input.sample c (o * rateIn / rateOut) := by
  have hrates : (r.init rateIn rateOut).mFactor = rateIn / rateOut := rfl
  have hfactor := Resampler.factor_pos hin hout hrates
  refine forall₂_congr fun c hc => ?_
  rw [process_count hfactor hchannels (Nat.zero_lt_of_lt hc)]
  constructor
  · intro h o hsize hposition
    have ho := (lt_frameCount_iff hrates hin hout).mpr ⟨hsize, hposition⟩
    have hframe := h (o + 1) ho
    rw [process_sample hfactor hchannels hc ho,
      interpolation_eq_frameAt_iff hrates hin hout ho, tap_succ, floor_position hrates] at hframe
    exact hframe
  · intro h o ho
    rw [process_sample hfactor hchannels hc ho,
      interpolation_eq_frameAt_iff hrates hin hout ho]
    cases o with
    | zero =>
        -- the first frame is the silence in front of the input
        rw [Nat.zero_mul, Nat.zero_div]
        exact ⟨Nat.zero_le _, rfl⟩
    | succ o =>
        rw [tap_succ, floor_position hrates]
        obtain ⟨hsize, hposition⟩ := (lt_frameCount_iff hrates hin hout).mp ho
        exact h o hsize hposition

/-- At equal rates the positions are the input frames, which come out one frame late. -/
theorem interpolates_iff_equal_rates :
    let r : ResamplerLinear := ⟨0, 0, 1, 0, 0⟩
    let input : AudioBuffer 32 ℚ := ⟨Nat.cast, 4, 3, 1, by decide, by decide, by decide, by decide⟩
    let out : AudioBuffer 32 ℚ := ⟨0, 16, 0, 1, by decide, by decide, by decide, by decide⟩
    Interpolates 1 1 input ((r.init 1 1).process input out) := by
  intro r input out
  have hchannels : input.mChannels ≤ out.mChannels := le_rfl
  refine (interpolates_iff r Nat.one_pos Nat.one_pos hchannels).mpr
    fun c _ o _ hposition => ?_
  rw [Nat.mul_one, Nat.mul_one, Nat.mul_one, Nat.div_one, Nat.div_one]
  exact ⟨by omega, rfl⟩

/-- Up to twice the rate, the frame at position `1 / 2` is the first frame of the input and not
half of it. -/
theorem not_interpolates_double :
    let r : ResamplerLinear := ⟨0, 0, 1, 0, 0⟩
    let input : AudioBuffer 32 ℚ := ⟨1, 4, 2, 1, by decide, by decide, by decide, by decide⟩
    let out : AudioBuffer 32 ℚ := ⟨0, 4, 0, 1, by decide, by decide, by decide, by decide⟩
    ¬ Interpolates 1 2 input ((r.init 1 2).process input out) := by
  intro r input out h
  have hrates : (r.init 1 2).mFactor = ((1 : ℕ) : ℚ) / ((2 : ℕ) : ℚ) := rfl
  have hfactor := Resampler.factor_pos Nat.one_pos Nat.two_pos hrates
  have hchannels : input.mChannels ≤ out.mChannels := le_rfl
  have hsome : 0 < input.mChannels := Nat.one_pos
  have hsize : out.size = 4 := by decide
  have ho : 1 < frameCount (r.init 1 2).mFactor 2 out.size :=
    (lt_frameCount_iff hrates Nat.one_pos Nat.two_pos).mpr ⟨by rw [hsize]; decide, by decide⟩
  have hframe := h 0 hsome 1 ((process_count hfactor hchannels hsome).symm ▸ ho)
  rw [process_sample hfactor hchannels hsome ho,
    interpolation_eq_frameAt_iff hrates Nat.one_pos Nat.two_pos ho] at hframe
  exact absurd hframe.2 zero_ne_one

end ResamplerLinear

end Tklb
