import Mathlib.Algebra.Order.Floor.Semiring
import Mathlib.Data.Rat.Floor
import Mathlib.Tactic.FieldSimp
import Mathlib.Tactic.Linarith
import Tklb.AudioBuffer

/-!
# `ResamplerLinear`

The resampler reads its input at the multiples of `mFactor`, the quotient of the two
rates, and mixes the sample there with the sample it read before.  Samples and positions
are exact: `T` and `double` are `ℚ`, and converting a position to `Size` is taking its
integer part.

`process` starts at position `0` in every call; what it keeps is the last sample it has
read in each channel.  It stops when the position is behind the frame *after* the last
one, so the frame behind the input may be read.

`process_count`, `process_last` and `process_sample` say what a call returns, keeps and
writes in terms of `frameCount`, `tap` and `frameAt`.

### How the model is laid out

* The fields are those of the class.  `mLastFrame` has a cell for every channel; the class has
  `MAX_CHANNELS` of them, and asserts that there are no more channels than that.
* `processChannel` and `processChannels` are the two loops, with all that they change as their
  state: the count, the samples that are kept, and the memory of the output.
* `tap`, `frameAt` and `frameCount` are the loop in closed form, for use in the other files.

### What is load-bearing

The position is not kept from one call to the next, and the last sample is.  These two facts
decide the results about single calls (`ResamplerLinear.Interpolation`) and about blocks
(`ResamplerLinear.Splitting`).
-/

namespace Tklb

open Foundation

/-- The fields of a `ResamplerLinear`. -/
structure ResamplerLinear where
  mRateIn : ℕ
  mRateOut : ℕ
  mFactor : ℚ
  /-- Never read. -/
  mOffset : ℚ
  mLastFrame : ℕ → ℚ

namespace ResamplerLinear

variable {w : ℕ}

/-! ### The code -/

/-- `init(rateIn, rateOut)` -/
def init (r : ResamplerLinear) (rateIn rateOut : ℕ) : ResamplerLinear :=
  { r with
    mLastFrame := fun _ => 0
    mRateIn := rateIn
    mRateOut := rateOut
    mFactor := rateIn / rateOut }

/-- `estimateOut(in)`; the argument of `round` is not negative. -/
def estimateOut (r : ResamplerLinear) (input : ℕ) : ℕ :=
  ⌊(input : ℚ) * (r.mRateOut / r.mRateIn) + 1 / 2⌋₊

/-- `calculateBufferSize(in)` -/
def calculateBufferSize (r : ResamplerLinear) (input : ℕ) : ℕ := r.estimateOut input + 10

/-- The loop over the output frames of channel `c`, with `output`, `last` and the memory
of `out`; the first argument is `out.size() - output`. -/
def processChannel (r : ResamplerLinear) (input out : AudioBuffer w ℚ) (c : ℕ) :
    ℕ → ℕ → ℚ → (ℕ → ℚ) → ℕ × ℚ × (ℕ → ℚ)
  | 0, output, last, m => (output, last, m)
  | rest + 1, output, last, m =>
      let position : ℚ := output * r.mFactor
      let lastIndex := ⌊position⌋₊
      let mix := position - lastIndex
      if input.mValidSize < lastIndex then (output, last, m)
      else
        let next := input.sample c lastIndex
        r.processChannel input out c rest (output + 1) next
          (Function.update m (out.get c + output) (last + mix * (next - last)))

/-- The loop of `process` over the channels: `countOut`, `mLastFrame` and the memory of
`out`. -/
def processChannels (r : ResamplerLinear) (input out : AudioBuffer w ℚ) :
    ℕ × (ℕ → ℚ) × (ℕ → ℚ) :=
  countUp input.mChannels
    (fun c s =>
      let p := r.processChannel input out c out.size 0 (s.2.1 c) s.2.2
      (p.1, Function.update s.2.1 c p.2.1, p.2.2))
    (0, r.mLastFrame, out.cell)

/-- `process(in, out)`: the number of frames returned, the resampler and `out`
afterwards. -/
def process (r : ResamplerLinear) (input out : AudioBuffer w ℚ) :
    ℕ × ResamplerLinear × AudioBuffer w ℚ :=
  let s := r.processChannels input out
  (s.1, { r with mLastFrame := s.2.1 }, (out.withCells s.2.2).setValidSize s.1)

/-! ### One channel -/

section Channel

variable (factor : ℚ) (x : ℕ → ℚ) (last : ℚ)

/-- The sample that was read before output frame `k`. -/
def tap : ℕ → ℚ
  | 0 => last
  | k + 1 => x ⌊(k : ℚ) * factor⌋₊

/-- Output frame `k`. -/
def frameAt (k : ℕ) : ℚ :=
  tap factor x last k + ((k : ℚ) * factor - ⌊(k : ℚ) * factor⌋₊) *
    (x ⌊(k : ℚ) * factor⌋₊ - tap factor x last k)

/-- The number of output frames: until the input or the room is used up. -/
def frameCount (countIn room : ℕ) : ℕ := min room ⌈((countIn : ℚ) + 1) / factor⌉₊

variable {factor x last}

@[simp] theorem tap_zero : tap factor x last 0 = last := rfl

theorem tap_succ (k : ℕ) : tap factor x last (k + 1) = x ⌊(k : ℚ) * factor⌋₊ := rfl

/-- The first frame of a call is the last sample of the one before. -/
@[simp] theorem frameAt_zero : frameAt factor x last 0 = last := by
  simp [frameAt]

/-- A position within the input. -/
theorem floor_le_iff (hfactor : 0 < factor) {countIn k : ℕ} :
    ⌊(k : ℚ) * factor⌋₊ ≤ countIn ↔ k < ⌈((countIn : ℚ) + 1) / factor⌉₊ := by
  rw [Nat.lt_ceil, lt_div_iff₀ hfactor, ← Nat.lt_succ_iff, Nat.floor_lt (by positivity)]
  push_cast
  rfl

theorem floor_le_of_lt_frameCount (hfactor : 0 < factor) {countIn room k : ℕ}
    (hk : k < frameCount factor countIn room) : ⌊(k : ℚ) * factor⌋₊ ≤ countIn :=
  (floor_le_iff hfactor).mpr (lt_of_lt_of_le hk (Nat.min_le_right _ _))

/-- Only the samples that are read matter. -/
theorem tap_congr {k : ℕ} {x' : ℕ → ℚ}
    (h : ∀ j < k, x ⌊(j : ℚ) * factor⌋₊ = x' ⌊(j : ℚ) * factor⌋₊) :
    tap factor x last k = tap factor x' last k := by
  cases k with
  | zero => rfl
  | succ k => exact h k (Nat.lt_succ_self k)

theorem frameAt_congr {k : ℕ} {x' : ℕ → ℚ}
    (h : ∀ j ≤ k, x ⌊(j : ℚ) * factor⌋₊ = x' ⌊(j : ℚ) * factor⌋₊) :
    frameAt factor x last k = frameAt factor x' last k := by
  rw [frameAt, frameAt, tap_congr fun j hj => h j hj.le, h k le_rfl]

end Channel

/-! ### What a call does -/

section Process

variable {r : ResamplerLinear} {input out : AudioBuffer w ℚ}

/-- **One channel**, from output frame `output` on.  By induction on the room that is left: the
sample that is kept when the loop gets to a frame is the one read for the frame before. -/
theorem processChannel_eq (hfactor : 0 < r.mFactor) (c : ℕ) (first : ℚ) {room : ℕ} :
    ∀ {rest output : ℕ} {m : ℕ → ℚ}, output + rest = room →
      output ≤ frameCount r.mFactor input.mValidSize room →
      let K := frameCount r.mFactor input.mValidSize room
      r.processChannel input out c rest output (tap r.mFactor (input.sample c) first output) m =
        (K, tap r.mFactor (input.sample c) first K, fun a =>
          if out.get c + output ≤ a ∧ a < out.get c + K then
            frameAt r.mFactor (input.sample c) first (a - out.get c)
          else m a) := by
  intro rest
  induction rest with
  | zero =>
      intro output m hroom hle
      have hK : frameCount r.mFactor input.mValidSize room = output :=
        le_antisymm ((Nat.min_le_left _ _).trans hroom.ge) hle
      simp only [processChannel, hK, Prod.mk.injEq, true_and]
      funext a
      rw [if_neg (by omega)]
  | succ rest ih =>
      intro output m hroom hle
      rw [processChannel]
      dsimp only
      by_cases hend : input.mValidSize < ⌊(output : ℚ) * r.mFactor⌋₊
      · have hK : frameCount r.mFactor input.mValidSize room = output := by
          refine le_antisymm ((Nat.min_le_right _ _).trans ?_) hle
          exact not_lt.mp fun h => absurd ((floor_le_iff hfactor).mpr h) (not_le.mpr hend)
        rw [if_pos hend, hK]
        refine Prod.ext rfl (Prod.ext rfl (funext fun a => ?_))
        dsimp only
        rw [if_neg (by omega)]
      · have hlt : output < frameCount r.mFactor input.mValidSize room :=
          lt_min (by omega) ((floor_le_iff hfactor).mp (not_lt.mp hend))
        have hnext := ih (m := Function.update m (out.get c + output)
          (frameAt r.mFactor (input.sample c) first output)) (by omega) hlt
        dsimp only at hnext
        rw [tap_succ] at hnext
        rw [if_neg hend]
        refine hnext.trans ?_
        refine Prod.ext rfl (Prod.ext rfl (funext fun a => ?_))
        dsimp only
        by_cases ha : a = out.get c + output
        · subst ha
          rw [if_neg (by omega), Function.update_self, if_pos (by omega),
            Nat.add_sub_cancel_left]
        · rw [Function.update_of_ne ha]
          by_cases hin : out.get c + output ≤ a ∧ a < out.get c +
              frameCount r.mFactor input.mValidSize room
          · rw [if_pos hin, if_pos (by omega)]
          · rw [if_neg hin, if_neg (by omega)]

/-- What `process` has done after the first `n` channels.  The count is the same for each of them;
their last samples are kept and their frames written, and the channels behind are as they were. -/
structure Processed (r : ResamplerLinear) (input out : AudioBuffer w ℚ) (n : ℕ)
    (s : ℕ × (ℕ → ℚ) × (ℕ → ℚ)) : Prop where
  count : 0 < n → s.1 = frameCount r.mFactor input.mValidSize out.size
  last : ∀ c < n, s.2.1 c = tap r.mFactor (input.sample c) (r.mLastFrame c)
    (frameCount r.mFactor input.mValidSize out.size)
  later : ∀ c, n ≤ c → s.2.1 c = r.mLastFrame c
  frame : ∀ c < n, ∀ k < frameCount r.mFactor input.mValidSize out.size,
    s.2.2 (out.get c + k) = frameAt r.mFactor (input.sample c) (r.mLastFrame c) k

theorem processed (hfactor : 0 < r.mFactor) (hchannels : input.mChannels ≤ out.mChannels) :
    Processed r input out input.mChannels (r.processChannels input out) := by
  refine countUp_invariant (Processed r input out) ⟨nofun, nofun, fun _ _ => rfl, nofun⟩ ?_
  intro n hn s hs
  have hchannel := @processChannel_eq w r input out hfactor n (r.mLastFrame n) out.size out.size 0
    s.2.2 (Nat.zero_add _) (Nat.zero_le _)
  dsimp only at hchannel
  rw [tap_zero] at hchannel
  rw [hs.later n le_rfl, hchannel]
  have hroom : frameCount r.mFactor input.mValidSize out.size ≤ out.size := Nat.min_le_left _ _
  refine ⟨fun _ => rfl, fun c hc => ?_, fun c hc => ?_, fun c hc k hk => ?_⟩ <;> dsimp only
  · rcases Nat.lt_succ_iff_lt_or_eq.mp hc with hlt | rfl
    · rw [Function.update_of_ne hlt.ne, hs.last c hlt]
    · rw [Function.update_self]
  · rw [Function.update_of_ne (by omega), hs.later c (by omega)]
  · rcases Nat.lt_succ_iff_lt_or_eq.mp hc with hlt | rfl
    · -- a cell of an earlier channel
      rw [if_neg, hs.frame c hlt k hk]
      rintro ⟨hlo, hhi⟩
      obtain ⟨j, hj⟩ := Nat.exists_eq_add_of_le hlo
      have hcell : out.get c + k = out.get n + j := by omega
      have := AudioBuffer.get_add_injective (b := out) (by omega) (by omega) (by omega)
        (by omega) hcell
      omega
    · rw [if_pos (by omega), Nat.add_sub_cancel_left]

variable (hfactor : 0 < r.mFactor) (hchannels : input.mChannels ≤ out.mChannels)
include hfactor hchannels

/-- **The count** that `process` returns.  It is the same for all channels, since the positions are;
without a channel the loop is not entered and nothing is counted. -/
theorem process_count (hsome : 0 < input.mChannels) :
    (r.process input out).1 = frameCount r.mFactor input.mValidSize out.size :=
  (processed hfactor hchannels).count hsome

/-- **The state** that `process` keeps.  For each channel it is the sample that was read last, and
the one from the call before if none was read. -/
theorem process_last {c : ℕ} (hc : c < input.mChannels) :
    (r.process input out).2.1.mLastFrame c =
      tap r.mFactor (input.sample c) (r.mLastFrame c)
        (frameCount r.mFactor input.mValidSize out.size) :=
  (processed hfactor hchannels).last c hc

/-- **The frames** that `process` writes.  Each is a mix of two samples, with weights that depend on
the position alone: the one at the position, and the one that was read before it. -/
theorem process_sample {c k : ℕ} (hc : c < input.mChannels)
    (hk : k < frameCount r.mFactor input.mValidSize out.size) :
    (r.process input out).2.2.sample c k =
      frameAt r.mFactor (input.sample c) (r.mLastFrame c) k :=
  (processed hfactor hchannels).frame c hc k hk

end Process

end ResamplerLinear

end Tklb
