import Tklb.ResamplerHold
import Tklb.ResamplerLinear

/-!
# The frames that a resampler accesses

`ResamplerHold` stops at the first output frame that it maps behind the input, so all that
it reads is input (`ResamplerHold.inside`).  `ResamplerLinear` also reads the frame that
follows the input; `inside_iff_of_rates` says when there is an output frame for it: if the
output has room behind the frames of the input, and the next position does not skip the
one frame.

### What is load-bearing

`inputEnd` is the first output frame at the end of the input or behind it.  The loop goes on
there if that is less than one frame behind the last one, because the test of the source
compares with the number of frames, and the last index is one less.
`frameCount_le_inputEnd_iff` turns the question whether that happens into one about rates and
room, and `inside_iff_of_rates` states the answer for both resamplers, over all buffers.
-/

namespace Tklb

open Foundation Resampler

variable {w : ℕ}

/-- `ResamplerHold` stays inside its buffers. -/
theorem ResamplerHold.inside {α : Type} {r : ResamplerHold} {input out : AudioBuffer w α}
    (hfactor : 0 < r.mFactor) (hchannels : input.mChannels ≤ out.mChannels) :
    Inside input out (r.process input out).1 (r.accesses input out) := by
  rcases Nat.eq_zero_or_pos input.mChannels with hnone | hsome
  · exact inside_of_no_channels hnone
  · rw [process_count hfactor hsome.ne']
    refine (inside_iff (fun o => ?_) hchannels).mpr (Or.inr fun o ho => ?_)
    · rw [decide_eq_true_eq, le_index_iff hfactor]
    · exact not_le.mp (mt (le_index_iff hfactor).mp (not_le.mpr (lt_min_iff.mp ho).2))

namespace ResamplerLinear

/-! ### The accesses of a call -/

section Accesses

variable (r : ResamplerLinear) (input out : AudioBuffer w ℚ)

/-- `lastIndex` -/
def index (output : ℕ) : ℕ := ⌊(output : ℚ) * r.mFactor⌋₊

/-- The frames that `process` reads and writes. -/
def accesses : List Access :=
  Resampler.accesses r.index (input.mValidSize < ·) input.mChannels out.size

/-- What an access does to the samples that are kept and to the memory of the output. -/
def perform (s : (ℕ → ℚ) × (ℕ → ℚ)) (a : Access) : (ℕ → ℚ) × (ℕ → ℚ) :=
  let last := s.1 a.channel
  let next := input.sample a.channel a.read
  (Function.update s.1 a.channel next,
    Function.update s.2 (out.get a.channel + a.write)
      (last + (a.write * r.mFactor - a.read) * (next - last)))

/-- **The loop of a channel** counts its accesses and performs them.  An access keeps the sample it
reads and assigns to one frame of the output. -/
theorem processChannel_eq_foldl (c : ℕ) :
    ∀ (rest output : ℕ) (kept m : ℕ → ℚ),
      let l := channelAccesses r.index (input.mValidSize < ·) c rest output
      let p := r.processChannel input out c rest output (kept c) m
      p.1 = output + l.length ∧
        (Function.update kept c p.2.1, p.2.2) = l.foldl (r.perform input out) (kept, m)
  | 0, output, kept, m => ⟨rfl, by rw [processChannel, Function.update_eq_self]; rfl⟩
  | rest + 1, output, kept, m => by
      dsimp only
      have hindex : ⌊(output : ℚ) * r.mFactor⌋₊ = r.index output := rfl
      rw [processChannel, channelAccesses, hindex]
      by_cases hend : input.mValidSize < r.index output
      · rw [if_pos hend, if_pos (decide_eq_true hend), Function.update_eq_self]
        exact ⟨rfl, rfl⟩
      · rw [if_neg hend, if_neg (by simpa using hend)]
        obtain ⟨hcount, hfold⟩ := processChannel_eq_foldl c rest (output + 1)
          (Function.update kept c (input.sample c (r.index output)))
          (Function.update m (out.get c + output) (kept c +
            (output * r.mFactor - r.index output) *
              (input.sample c (r.index output) - kept c)))
        rw [Function.update_self] at hcount hfold
        rw [Function.update_idem] at hfold
        refine ⟨?_, hfold⟩
        rw [List.length_cons]
        refine hcount.trans ?_
        omega

/-- **The accesses are those of `process`.**  What is kept of one channel does not enter into the
others, so the channels can be taken one after the other. -/
theorem processChannels_eq_foldl :
    (r.processChannels input out).2 =
      (r.accesses input out).foldl (r.perform input out) (r.mLastFrame, out.cell) := by
  rw [accesses, foldl_accesses, processChannels]
  refine (countUp_hom Prod.snd (fun c _ s => ?_) (0, r.mLastFrame, out.cell)).symm
  exact (r.processChannel_eq_foldl input out c out.size 0 s.2.1 s.2.2).2.symm

end Accesses

/-! ### Where it stays inside -/

section Inside

variable {r : ResamplerLinear} {input out : AudioBuffer w ℚ}

/-- The first output frame that lies at the end of `n` input frames, or behind it. -/
def inputEnd (rateIn rateOut n : ℕ) : ℕ := ⌈(n : ℚ) * rateOut / rateIn⌉₊

/-- `ResamplerLinear` stays inside its buffers as long as it does not read the frame that
follows the input. -/
theorem inside_iff_index_lt (hfactor : 0 < r.mFactor)
    (hchannels : input.mChannels ≤ out.mChannels) :
    Inside input out (r.process input out).1 (r.accesses input out) ↔
      input.mChannels = 0 ∨
        ∀ o < frameCount r.mFactor input.mValidSize out.size, r.index o < input.mValidSize := by
  rcases Nat.eq_zero_or_pos input.mChannels with hnone | hsome
  · exact iff_of_true (inside_of_no_channels hnone) (Or.inl hnone)
  · rw [process_count hfactor hchannels hsome]
    refine inside_iff (fun o => ?_) hchannels
    rw [decide_eq_true_eq, ← not_le, index, floor_le_iff hfactor, not_lt]

/-- The positions that lie inside the input. -/
theorem index_lt_iff {rateIn rateOut : ℕ} (hin : 0 < rateIn) (hout : 0 < rateOut)
    (hrates : r.mFactor = rateIn / rateOut) {n o : ℕ} :
    r.index o < n ↔ o < inputEnd rateIn rateOut n := by
  have hfactor := factor_pos hin hout hrates
  rw [index, inputEnd, Nat.floor_lt (by positivity), Nat.lt_ceil, hrates, ← mul_div_assoc,
    div_lt_iff₀ (by positivity), lt_div_iff₀ (by positivity)]

/-- **The end of the input**: no frame is returned behind it exactly if there is no room, or
the first position behind it skips a whole frame. -/
theorem frameCount_le_inputEnd_iff {rateIn rateOut : ℕ} (hin : 0 < rateIn) {n room : ℕ} :
    frameCount (rateIn / rateOut) n room ≤ inputEnd rateIn rateOut n ↔
      room ≤ inputEnd rateIn rateOut n ∨
        (n + 1) * rateOut ≤ inputEnd rateIn rateOut n * rateIn := by
  rw [frameCount, min_le_iff, Nat.ceil_le, div_div_eq_mul_div, div_le_iff₀ (by positivity)]
  norm_cast

end Inside

end ResamplerLinear

/-- **`ResamplerHold` and `ResamplerLinear` stay inside their buffers** exactly if there is no
output frame for the input frame behind the end. -/
theorem Resampler.inside_iff_of_rates {rateIn rateOut : ℕ} (hin : 0 < rateIn)
    (hout : 0 < rateOut) {hold : ResamplerHold} {linear : ResamplerLinear}
    (hhold : hold.mFactor = rateIn / rateOut) (hlinear : linear.mFactor = rateIn / rateOut)
    {input out : AudioBuffer w ℚ} (hchannels : input.mChannels = out.mChannels) :
    Inside input out (hold.process input out).1 (hold.accesses input out) ∧
        Inside input out (linear.process input out).1 (linear.accesses input out) ↔
      input.mChannels = 0 ∨
        out.size ≤ ResamplerLinear.inputEnd rateIn rateOut input.mValidSize ∨
        (input.mValidSize + 1) * rateOut ≤
          ResamplerLinear.inputEnd rateIn rateOut input.mValidSize * rateIn := by
  have hsafe := ResamplerHold.inside (factor_pos hin hout hhold) hchannels.le
  have hpos := factor_pos hin hout hlinear
  rw [and_iff_right hsafe, ResamplerLinear.inside_iff_index_lt hpos hchannels.le,
    ← ResamplerLinear.frameCount_le_inputEnd_iff hin, hlinear]
  refine or_congr_right ⟨fun h => ?_, fun h o ho => ?_⟩
  · refine not_lt.mp fun hlt => ?_
    exact lt_irrefl _ ((ResamplerLinear.index_lt_iff hin hout hlinear).mp (h _ hlt))
  · exact (ResamplerLinear.index_lt_iff hin hout hlinear).mpr (ho.trans_le h)

/-- Down to half the rate, position `2` is the last one in three frames, and the next one
skips the frame behind them. -/
theorem Resampler.inside_iff_of_rates_half :
    let hold := (⟨0, 0, 1⟩ : ResamplerHold).init 2 1
    let linear := (⟨0, 0, 1, 0, 0⟩ : ResamplerLinear).init 2 1
    let input : AudioBuffer 32 ℚ := ⟨Nat.cast, 3, 3, 1, by decide, by decide, by decide, by decide⟩
    let out : AudioBuffer 32 ℚ := ⟨0, 16, 0, 1, by decide, by decide, by decide, by decide⟩
    Inside input out (hold.process input out).1 (hold.accesses input out) ∧
      Inside input out (linear.process input out).1 (linear.accesses input out) := by
  intro hold linear input out
  refine (@inside_iff_of_rates 32 2 1 Nat.two_pos Nat.one_pos hold linear rfl rfl input out
    rfl).mpr (Or.inr (Or.inr ?_))
  have hend : ResamplerLinear.inputEnd 2 1 3 = 2 := by
    rw [ResamplerLinear.inputEnd, Nat.ceil_eq_iff (by decide)]
    norm_num
  show (3 + 1) * 1 ≤ ResamplerLinear.inputEnd 2 1 3 * 2
  rw [hend]

/-- At equal rates, with room for a second frame, the frame behind a single one is read. -/
theorem Resampler.not_inside_equal_rates :
    let linear := (⟨0, 0, 1, 0, 0⟩ : ResamplerLinear).init 1 1
    let input : AudioBuffer 32 ℚ := ⟨Nat.cast, 4, 1, 1, by decide, by decide, by decide, by decide⟩
    let out : AudioBuffer 32 ℚ := ⟨0, 4, 0, 1, by decide, by decide, by decide, by decide⟩
    ¬ Inside input out (linear.process input out).1 (linear.accesses input out) := by
  intro linear input out hinside
  have hindex : ∀ o, linear.index o = o := by
    intro o
    show ⌊(o : ℚ) * (((1 : ℕ) : ℚ) / ((1 : ℕ) : ℚ))⌋₊ = o
    rw [div_self (by norm_num), mul_one, Nat.floor_natCast]
  have hended : ∀ o, decide (1 < linear.index o) = true ↔ 2 ≤ o := by
    intro o
    rw [hindex, decide_eq_true_eq]
    rfl
  have hread : ⟨0, 1, 1⟩ ∈ linear.accesses input out :=
    (mem_accesses hended).mpr ⟨Nat.one_pos, (hindex 1).symm, by decide⟩
  exact absurd (hinside.read _ hread) (lt_irrefl 1)

end Tklb
