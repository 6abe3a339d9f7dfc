import Mathlib.Algebra.BigOperators.Intervals
import Tklb.ConvolverMono.Buffers

/-!
# What a `ConvolverMono` computes

`Running` is the state of a loaded convolver that has seen `n` samples of a signal: the ring
holds the spectra of the blocks before the current one, the input buffer the samples of the
current block, and the overlap buffer zeros.  It does not depend on how the samples were cut
into calls.

### What is load-bearing

* `kept` is what the convolver computes, as a sum over taps, without segments or blocks: the taps
  that lie no further into their segment than the frame into its block.  It is where the loss
  of the overlap shows, and everything later is about the difference between it and the full
  convolution.
* `sum_segments` is the mathematics: the circular convolutions of the padded segments with the
  padded blocks, taken in the first half only, add up to `kept`.
* `Running` is the invariant of the loop of `process`, at any number of samples, also in the
  middle of a block.  The field about the sum of the earlier products speaks of a block that has
  begun, because it is computed with its first samples and then kept.

`load_running` establishes it for a new convolver.
-/

namespace Tklb

open Foundation Finset

namespace ConvolverMono

variable {w : ℕ}

/-! ### Blocks -/

section Blocks

variable (block : ℕ)

/-- Segment `i` of an impulse response, padded with zeros. -/
def segment (g : ℕ → ℝ) (i j : ℕ) : ℝ := if j < block then g (i * block + j) else 0

/-- The block `i` blocks before block `t` of a signal, padded with zeros; there is nothing
before the signal. -/
def past (x : ℕ → ℝ) (t i j : ℕ) : ℝ :=
  if j < block ∧ i ≤ t then x ((t - i) * block + j) else 0

/-- The part of the convolution that is kept: the taps that are not further into their
segment than the frame into its block. -/
def kept (g x : ℕ → ℝ) (n : ℕ) : ℝ :=
  ∑ m ∈ range (n + 1), if m % block ≤ n % block then g m * x (n - m) else 0

variable {block}

/-- A sum over consecutive blocks. -/
theorem sum_range_mul {M : Type*} [AddCommMonoid M] (f : ℕ → M) (count : ℕ) :
    ∑ m ∈ range (count * block), f m =
      ∑ i ∈ range count, ∑ j ∈ range block, f (i * block + j) := by
  induction count with
  | zero => simp
  | succ count ih => rw [Nat.succ_mul, sum_range_add, ih, sum_range_succ]

/-- The product with tap `m` in frame `n`, as far as it is kept. -/
def keptTerm (block : ℕ) (g x : ℕ → ℝ) (n m : ℕ) : ℝ :=
  if m % block ≤ n % block ∧ m ≤ n then g m * x (n - m) else 0

theorem kept_eq_sum {g x : ℕ → ℝ} {n L : ℕ} (hL : n < L) :
    kept block g x n = ∑ m ∈ range L, keptTerm block g x n m := by
  refine (sum_congr rfl fun m hm => ?_).trans
    (sum_subset (range_subset_range.mpr hL) fun m _ hnm => ?_)
  · rw [mem_range, Nat.lt_succ_iff] at hm
    simp only [keptTerm, hm, and_true]
  · rw [mem_range, Nat.lt_succ_iff] at hnm
    exact if_neg fun h => hnm h.2

/-- What segment `i` contributes to frame `q` of block `t`. -/
theorem sum_segment {g x : ℕ → ℝ} {t q : ℕ} (hq : q < block) (i : ℕ) :
    ∑ j ∈ range (q + 1), segment block g i j *
      (if i ≤ t then x ((t - i) * block + (q - j)) else 0) =
      ∑ j ∈ range block, keptTerm block g x (t * block + q) (i * block + j) := by
  have hmod : ∀ {c j}, j < block → (c * block + j) % block = j := fun hj => by
    rw [Nat.mul_comm, Nat.mul_add_mod, Nat.mod_eq_of_lt hj]
  refine (sum_congr rfl fun j hj => ?_).trans
    (sum_subset (range_subset_range.mpr hq) fun j hj hnj => ?_)
  · rw [mem_range, Nat.lt_succ_iff] at hj
    have hjb : j < block := hj.trans_lt hq
    rw [keptTerm, hmod hjb, hmod hq, segment, if_pos hjb]
    by_cases hit : i ≤ t
    · obtain ⟨d, rfl⟩ := Nat.exists_eq_add_of_le hit
      have hle : i * block + j ≤ (i + d) * block + q := by
        rw [Nat.add_mul]
        omega
      have hindex : (i + d) * block + q - (i * block + j) = d * block + (q - j) := by
        rw [Nat.add_mul]
        omega
      rw [if_pos hit, if_pos ⟨hj, hle⟩, hindex, Nat.add_sub_cancel_left]
    · -- the segment is not reached yet
      have hlt : t * block + q < i * block + j := by
        have hnext : (t + 1) * block ≤ i * block := Nat.mul_le_mul_right _ (Nat.lt_of_not_le hit)
        rw [Nat.succ_mul] at hnext
        omega
      rw [if_neg hit, mul_zero, if_neg fun h => absurd h.2 (Nat.not_le.mpr hlt)]
  · rw [mem_range] at hj hnj
    rw [keptTerm, hmod hj, hmod hq, if_neg fun h => hnj (Nat.lt_succ_of_le h.1)]

/-- **The segments give what is kept.**  Frame `q` of block `t`.  The products of segments and
blocks, each of them a convolution of length `block`, add up to the convolution with the part of the
response that the segments keep. -/
theorem sum_segments {g x : ℕ → ℝ} {count t q : ℕ} (hq : q < block)
    (hg : ∀ m, count * block ≤ m → g m = 0) :
    ∑ i ∈ range count, ∑ j ∈ range (q + 1), segment block g i j *
      (if i ≤ t then x ((t - i) * block + (q - j)) else 0) = kept block g x (t * block + q) := by
  have hL : t * block + q < (count + t + 1) * block := by
    calc t * block + q < (t + 1) * block := by rw [Nat.succ_mul]; omega
      _ ≤ (count + t + 1) * block := Nat.mul_le_mul_right _ (by omega)
  rw [kept_eq_sum hL, sum_range_mul, sum_congr rfl fun i _ => sum_segment hq i]
  -- there are no taps behind the last segment
  refine sum_subset (range_subset_range.mpr (by omega)) fun i _ hni => ?_
  rw [mem_range, Nat.not_lt] at hni
  refine sum_eq_zero fun j _ => ?_
  rw [keptTerm, hg _ (le_add_right (Nat.mul_le_mul_right _ hni)), zero_mul, ite_self]

end Blocks

/-! ### The state after some samples -/

/-- The state of a convolver with the taps `g` after `n` samples of the signal `x`.  The input
buffer holds what has arrived of the current block, the ring of spectra has the blocks before, and
within a block what is premultiplied is the sum over all segments but the first. -/
structure Running (c : ConvolverMono w ℝ) (block count : ℕ) (g x : ℕ → ℝ) (n : ℕ) : Prop
    extends Shaped c block count where
  fill : c.mInputBufferFill = n % block
  position_lt : c.mCurrentPosition < count
  input : ∀ i < block, c.mInputBuffer.sample 0 i =
    if i < n % block then x (n / block * block + i) else 0
  overlap : ∀ i < block, c.mOverlapBuffer.sample 0 i = 0
  ir : ∀ i < count, ∀ k ≤ block, bin (c.mSegmentsIR i) k = realDft (2 * block) (segment block g i) k
  earlier : ∀ i, 1 ≤ i → i < count → ∀ k ≤ block,
    bin (c.mSegments ((c.mCurrentPosition + i) % count)) k =
      realDft (2 * block) (past block x (n / block) i) k
  sum : n % block ≠ 0 → ∀ k ≤ block, bin c.mPremultipliedBuffer k =
    ∑ i ∈ range (count - 1), realDft (2 * block) (segment block g (i + 1)) k *
      realDft (2 * block) (past block x (n / block) (i + 1)) k

/-! ### `load` -/

section Load

variable {B : BufferType} {fft : Fft ℝ} {block count irLength : ℕ} {ir : ℕ → ℝ}

/-- The taps that are loaded. -/
def taps (ir : ℕ → ℝ) (irLength m : ℕ) : ℝ := if m < irLength then ir m else 0

/-- The state of `load` after `n` segments.  The segments so far have been transformed and stored,
and the buffers they were computed in can be used again. -/
structure Loading (ir : ℕ → ℝ) (irLength block count n : ℕ) (c : ConvolverMono B.sizeBits ℝ) :
    Prop where
  blockSize : c.mBlockSize = block
  segmentCount : c.mSegmentCount = count
  complexSize : c.mFFTComplexSize = block + 1
  fft : c.mFFT = 2 * block
  fftBuffer : Room c.mFFTBuffer 1 (2 * block)
  premultiplied : c.mPremultipliedBuffer = .initial
  input : c.mInputBuffer = .initial
  convolution : c.mConvolutionBuffer = .initial
  overlap : c.mOverlapBuffer = .initial
  new_ir : ∀ i, n ≤ i → c.mSegmentsIR i = .initial
  new_segments : ∀ i, n ≤ i → c.mSegments i = .initial
  ir : ∀ i < n, ∀ k ≤ block,
    bin (c.mSegmentsIR i) k = realDft (2 * block) (segment block (taps ir irLength) i) k
  spectra : ∀ i < n, Room (c.mSegments i) 2 (block + 1)
  silent : ∀ i < n, ∀ k, bin (c.mSegments i) k = 0

/-- What is transformed is the segment. -/
theorem Loading.sample_segment {n : ℕ} {c : ConvolverMono B.sizeBits ℝ}
    (h : Loading ir irLength block count n c) {j : ℕ} (hj : j < 2 * block) :
    ((c.mFFTBuffer.setValue 0 0 0).setChannel (fun j => ir (n * c.mBlockSize + j))
      (min (irLength - n * c.mBlockSize) c.mBlockSize) 0 0).sample 0 j =
      segment block (taps ir irLength) n j := by
  have hcleared := h.fftBuffer.setValue 0 0 0
  have hchannels := hcleared.channels
  have hsize := hcleared.le_size
  have hblock := h.blockSize
  rw [AudioBuffer.sample_setChannel (by omega) (by omega) (by omega) (by omega),
    AudioBuffer.sample_setValue (Nat.zero_le _) (by have := h.fftBuffer.channels; omega)
      (by have := h.fftBuffer.le_size; omega), if_pos (Nat.zero_le j), hblock, segment, taps,
    Nat.sub_zero]
  by_cases hin : j < block ∧ n * block + j < irLength
  · rw [if_pos (by omega), if_pos hin.1, if_pos hin.2]
  · rw [if_neg (by omega)]
    by_cases hj : j < block
    · rw [if_pos hj, if_neg fun hlt => hin ⟨hj, hlt⟩]
    · rw [if_neg hj]

/-- One segment more is transformed. -/
theorem Loading.step (hfft : fft.IsRealDft (2 * block))
    (hfit : AudioBuffer.SizeFits B (block + 1) 2) {n : ℕ} {c : ConvolverMono B.sizeBits ℝ}
    (h : Loading ir irLength block count n c) :
    Loading ir irLength block count (n + 1) (loadSegment B fft ir irLength n c) := by
  obtain ⟨hroom, -, hzero⟩ := resize_initial 2 (by decide) hfit
  constructor
  case blockSize => exact h.blockSize
  case segmentCount => exact h.segmentCount
  case complexSize => exact h.complexSize
  case fft => exact h.fft
  case fftBuffer => exact (h.fftBuffer.setValue 0 0 0).setChannel _ _ _ _
  case premultiplied => exact h.premultiplied
  case input => exact h.input
  case convolution => exact h.convolution
  case overlap => exact h.overlap
  case new_ir =>
    intro i hi
    exact (Function.update_of_ne (by omega) _ _).trans (h.new_ir i (by omega))
  case new_segments =>
    intro i hi
    exact (Function.update_of_ne (by omega) _ _).trans (h.new_segments i (by omega))
  case ir =>
    intro i hi k hk
    rcases Nat.lt_succ_iff_lt_or_eq.mp hi with hlt | rfl
    · have hold := h.ir i hlt k hk
      rwa [← Function.update_of_ne hlt.ne _ c.mSegmentsIR] at hold
    · show bin (Function.update c.mSegmentsIR i _ i) k = _
      rw [Function.update_self, h.new_ir i le_rfl, h.complexSize, h.fft,
        bin_forwardInto hfft (by simpa using hroom) (by omega)]
      exact realDft_congr (fun j hj => h.sample_segment hj) k
  case spectra =>
    intro i hi
    rcases Nat.lt_succ_iff_lt_or_eq.mp hi with hlt | rfl
    · show Room (Function.update c.mSegments n _ i) 2 (block + 1)
      rw [Function.update_of_ne hlt.ne]
      exact h.spectra i hlt
    · show Room (Function.update c.mSegments i _ i) 2 (block + 1)
      rw [Function.update_self, h.new_segments i le_rfl, h.complexSize]
      exact hroom
  case silent =>
    intro i hi k
    rcases Nat.lt_succ_iff_lt_or_eq.mp hi with hlt | rfl
    · show bin (Function.update c.mSegments n _ i) k = 0
      rw [Function.update_of_ne hlt.ne]
      exact h.silent i hlt k
    · show bin (Function.update c.mSegments i _ i) k = 0
      rw [Function.update_self, h.new_segments i le_rfl, h.complexSize, bin, hzero, hzero]
      rfl

/-- There is nothing before the first block. -/
theorem realDft_past_zero (x : ℕ → ℝ) {i : ℕ} (hi : 1 ≤ i) (N k : ℕ) :
    realDft N (past block x 0 i) k = 0 := by
  refine sum_eq_zero fun n _ => ?_
  rw [past, if_neg (by omega), Complex.ofReal_zero, zero_mul]

/-- The rest of `load`: the working buffers. -/
theorem Loading.running (x : ℕ → ℝ) (hblock : 0 < block) (hcount : 0 < count)
    (hsegment : AudioBuffer.SizeFits B block 1)
    (hcomplex : AudioBuffer.SizeFits B (block + 1) 2) {c : ConvolverMono B.sizeBits ℝ}
    (h : Loading ir irLength block count count c) :
    Running { c with
      mPremultipliedBuffer := c.mPremultipliedBuffer.resize B (toSize B (block + 1)) 2 true
      mConvolutionBuffer := c.mConvolutionBuffer.resize B (toSize B (block + 1)) 2 true
      mOverlapBuffer := c.mOverlapBuffer.resizeLength B (toSize B block) true
      mInputBuffer := c.mInputBuffer.resizeLength B (toSize B block) true
      mCurrentPosition := 0
      mInputBufferFill := 0 } block count (taps ir irLength) x 0 := by
  obtain ⟨hspectrum, hvalid, -⟩ := resize_initial 2 (by decide) hcomplex
  obtain ⟨hroom, -, hzero⟩ := resize_initial 1 (by decide) hsegment
  have hdiv : 0 / block = 0 := Nat.zero_div block
  have hmod : 0 % block = 0 := Nat.zero_mod block
  rw [h.premultiplied, h.convolution, h.overlap, h.input]
  constructor
  case toShaped =>
    exact ⟨hblock, hcount, h.blockSize, h.segmentCount, h.fft, h.fftBuffer, hroom, hroom,
      hspectrum, hvalid, hspectrum, h.spectra⟩
  case fill => exact hmod.symm
  case position_lt => exact hcount
  case input =>
    intro i _
    rw [hmod, if_neg (Nat.not_lt_zero i)]
    exact hzero 0 i
  case overlap => exact fun i _ => hzero 0 i
  case ir => exact h.ir
  case earlier =>
    intro i hi hlt k _
    rw [hdiv, realDft_past_zero x hi, Nat.zero_add, Nat.mod_eq_of_lt hlt]
    exact h.silent i hlt k
  case sum => exact fun hne => absurd hmod hne

/-- **A loaded convolver** has the taps `ir 0, …, ir irLength` and has seen nothing. -/
theorem load_running {silence : ℝ} {buffer : AudioBuffer B.sizeBits ℝ} {blockSize channel : ℕ}
    (x : ℕ → ℝ)
    (hfft : fft.IsRealDft (2 * powerOf2 blockSize)) (hfit : Fits B blockSize)
    (htrim : trim silence (buffer.sample channel) buffer.mValidSize ≠ 0) :
    Running (start.load B fft silence buffer blockSize channel) (powerOf2 blockSize)
      ((trim silence (buffer.sample channel) buffer.mValidSize + 1) ⌈/⌉ powerOf2 blockSize)
      (taps (buffer.sample channel)
        (trim silence (buffer.sample channel) buffer.mValidSize + 1)) x 0 := by
  obtain ⟨hdouble, hsegment, hcomplex⟩ := hfit
  have hpos := powerOf2_pos blockSize
  have hcount : 0 < (trim silence (buffer.sample channel) buffer.mValidSize + 1) ⌈/⌉
      powerOf2 blockSize := by
    rw [Nat.ceilDiv_eq_add_pred_div]
    exact Nat.div_pos (by omega) hpos
  rw [load, if_neg htrim]
  refine Loading.running x hpos hcount hsegment hcomplex ?_
  refine countUp_invariant (fun n c => Loading _ _ _ _ n c) ?_
    fun n _ c h => h.step hfft hcomplex
  have hnew : resizeSegments B 0 ((trim silence (buffer.sample channel) buffer.mValidSize + 1) ⌈/⌉
      powerOf2 blockSize) (fun _ => .initial) = fun _ => (.initial : AudioBuffer _ ℝ) := by
    funext i
    rw [resizeSegments, ite_self]
  exact ⟨rfl, rfl, rfl, rfl, (resize_initial 1 (by decide) hdouble).1, rfl, rfl, rfl,
    rfl, fun i _ => congrFun hnew i, fun i _ => congrFun hnew i,
    fun i hi => absurd hi (Nat.not_lt_zero i), fun i hi => absurd hi (Nat.not_lt_zero i),
    fun i hi => absurd hi (Nat.not_lt_zero i)⟩

end Load

end ConvolverMono

end Tklb
