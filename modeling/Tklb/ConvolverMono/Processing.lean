import Tklb.AudioBuffer.Setting
import Tklb.ConvolverMono.Convolution

/-!
# Processing with a `ConvolverMono`

One iteration of the loop of `process` takes a convolver that is `Running` to one that is
`Running` and puts out what is `kept` of the convolution (`Running.pass`); so does a call,
and so do several, however the signal is cut (`run_eq`).

The iteration is followed buffer by buffer: the block that is transformed, the sum over the
earlier blocks, the product with the current one, and what `back` makes of it.

### What is load-bearing

An iteration does not wait for a full block: whenever samples arrive, the block is transformed
as far as it goes, padded with zeros, and everything that depends on it is computed again.  So
the spectrum of the current block is preliminary until the block is full, and what was put out
from it is right nevertheless, because the frames of the first half of the inverse transform do
not depend on samples that come later.  `Running.sample_result` is this fact.

`Running.pass` distinguishes a block that is filled up by the iteration from one that is not;
`arrived` and `turned` are the convolver in both cases, with its fields written out, and each has
its own lemma.  The premultiplied sum is only computed by the first iteration of a block, which
is why `Running` has to speak of it.
-/

namespace Tklb

open Foundation Finset

namespace ConvolverMono

variable {w : ℕ} {fft : Fft ℝ} {c : ConvolverMono w ℝ} {block count n : ℕ} {g x : ℕ → ℝ}

/-! ### The blocks that are multiplied -/

/-- The blocks of a signal of which block `t` has `filled` samples so far, padded with
zeros, the latest one first. -/
def recent (block : ℕ) (x : ℕ → ℝ) (t filled : ℕ) : ℕ → ℕ → ℝ
  | 0, j => if j < filled then x (t * block + j) else 0
  | i + 1, j => past block x t (i + 1) j

/-- Where samples have arrived, the products of the blocks add up to what is kept. -/
theorem sum_circularConv {t filled q : ℕ} (hq : q < filled) (hle : filled ≤ block)
    (hg : ∀ m, count * block ≤ m → g m = 0) :
    ∑ i ∈ range count, circularConv (2 * block) (segment block g i) (recent block x t filled i) q =
      kept block g x (t * block + q) := by
  rw [← sum_segments (hq.trans_le hle) hg]
  refine sum_congr rfl fun i _ => ?_
  have hsegment : ∀ j, block ≤ j → j < 2 * block → segment block g i j = 0 :=
    fun j hj _ => if_neg (Nat.not_lt.mpr hj)
  rw [circularConv_of_padded rfl hsegment ?_ (hq.trans_le hle)]
  · refine sum_congr rfl fun j hj => ?_
    rw [mem_range] at hj
    cases i with
    | zero => rw [recent, if_pos (by omega), if_pos (Nat.zero_le t), Nat.sub_zero]
    | succ i =>
        rw [recent, past]
        simp only [show q - j < block by omega, true_and]
  · intro j hj _
    cases i with
    | zero => exact if_neg (by omega)
    | succ i => exact if_neg (by omega)

/-- A block is full in the end. -/
theorem recent_full (t : ℕ) : recent block x t block 0 = past block x t 0 := by
  funext j
  rw [recent, past, Nat.sub_zero]
  simp only [Nat.zero_le, and_true]

/-- The earlier blocks get one block older. -/
theorem past_succ (t i : ℕ) : past block x (t + 1) (i + 1) = past block x t i := by
  funext j
  rw [past, past, Nat.add_sub_add_right]
  simp only [Nat.add_le_add_iff_right]

/-! ### The buffers in one iteration -/

section Stages

variable (fft) (c) (input : AudioBuffer w ℝ)

/-- What is transformed. -/
def padded : AudioBuffer w ℝ :=
  (c.mFFTBuffer.setBuffer input c.mBlockSize 0 0).setValue 0 0 c.mBlockSize

/-- The ring with the current spectrum. -/
def spectra : ℕ → AudioBuffer w ℝ :=
  Function.update c.mSegments c.mCurrentPosition
    (fft.forwardInto c.mFFT (c.padded input) (c.mSegments c.mCurrentPosition))

/-- The sum over the earlier blocks. -/
def products : AudioBuffer w ℝ :=
  if c.mInputBufferFill = 0 then c.premultiply (c.spectra fft input) else c.mPremultipliedBuffer

/-- The sum over all blocks. -/
def convolution : AudioBuffer w ℝ :=
  complexMultiply (c.mConvolutionBuffer.setBuffer (c.products fft input) 0 0 0)
    (c.mSegmentsIR 0) (c.spectra fft input c.mCurrentPosition)

/-- What `back` makes of it. -/
def result : AudioBuffer w ℝ := fft.backInto c.mFFT (c.convolution fft input) (c.padded input)

/-- The convolver after `p` samples have arrived in the current block. -/
def arrived (p : ℕ) : ConvolverMono w ℝ :=
  { c with
    mInputBuffer := input
    mFFTBuffer := c.result fft input
    mSegments := c.spectra fft input
    mPremultipliedBuffer := c.products fft input
    mConvolutionBuffer := c.convolution fft input
    mInputBufferFill := c.mInputBufferFill + p }

/-- The convolver at the beginning of the next block. -/
def turned : ConvolverMono w ℝ :=
  { c with
    mInputBuffer := c.mInputBuffer.setValue 0 0 0
    mInputBufferFill := 0
    mOverlapBuffer := c.mOverlapBuffer.setBuffer c.mFFTBuffer c.mBlockSize 0 c.mBlockSize
    mCurrentPosition :=
      if 0 < c.mCurrentPosition then c.mCurrentPosition - 1 else c.mSegmentCount - 1 }

end Stages

/-- The input, padded to the length of the transform. -/
theorem Shaped.sample_padded (h : c.Shaped block count) {input : AudioBuffer w ℝ}
    (hinput : Room input 1 block) {j : ℕ} (hj : j < 2 * block) :
    ((c.mFFTBuffer.setBuffer input c.mBlockSize 0 0).setValue 0 0 c.mBlockSize).sample 0 j =
      if j < block then input.sample 0 j else 0 := by
  have hcopy := h.fftBuffer.setBuffer input block 0 0
  have hsize := hcopy.le_size
  have hchannels := hcopy.channels
  have hbuffer := h.fftBuffer
  have hblock := h.block_pos
  rw [h.blockSize, AudioBuffer.sample_setValue (by omega) (by omega) (by omega)]
  by_cases hin : j < block
  · rw [if_neg (by omega), if_pos hin,
      AudioBuffer.sample_setBuffer hblock.ne' (hinput.channels.trans hbuffer.channels.symm)
        (by have := hbuffer.le_size; omega) (by have := hbuffer.channels; omega)
        (by have := hbuffer.le_size; omega),
      if_pos (by omega), Nat.sub_zero, Nat.zero_add]
  · rw [if_pos (by omega), if_neg hin]

/-- The spectrum of the output. -/
theorem Shaped.bin_convolution (h : c.Shaped block count) {products a b : AudioBuffer w ℝ}
    (hproducts : Room products 2 (block + 1)) (hvalid : products.mValidSize = block + 1) {k : ℕ}
    (hk : k ≤ block) :
    bin (complexMultiply (c.mConvolutionBuffer.setBuffer products 0 0 0) a b) k =
      bin products k + bin a k * bin b k := by
  have hcopy := h.convolution.setBuffer products 0 0 0
  have hsize := h.convolution.le_size
  have hchannels := h.convolution.channels
  have hsample : ∀ ch < 2,
      (c.mConvolutionBuffer.setBuffer products 0 0 0).sample ch k = products.sample ch k := by
    intro ch hch
    rw [AudioBuffer.setBuffer_zero, hvalid,
      AudioBuffer.sample_setBuffer (Nat.succ_ne_zero _) (hproducts.channels.trans hchannels.symm)
        (by omega) (by omega) (by omega),
      if_pos (by omega), Nat.sub_zero, Nat.zero_add]
  have hbin : bin (c.mConvolutionBuffer.setBuffer products 0 0 0) k = bin products k :=
    Complex.ext (hsample 0 (by omega)) (hsample 1 (by omega))
  rw [bin_complexMultiply hcopy.channels (by have := hcopy.le_size; omega), hbin]

/-- Blocks before the current one are at other places in the ring. -/
theorem position_ne {position i : ℕ} (hlt : position < count) (hi : 1 ≤ i) (hic : i < count) :
    (position + i) % count ≠ position := by
  intro heq
  rcases Nat.lt_or_ge (position + i) count with hsmall | hlarge
  · rw [Nat.mod_eq_of_lt hsmall] at heq
    omega
  · rw [Nat.mod_eq_sub_mod hlarge, Nat.mod_eq_of_lt (by omega)] at heq
    omega

theorem spectra_of_ne {input : AudioBuffer w ℝ} {i : ℕ} (hi : i ≠ c.mCurrentPosition) :
    c.spectra fft input i = c.mSegments i :=
  Function.update_of_ne hi _ _

/-- The sum over the earlier blocks is computed when a block begins, and kept until it is
full. -/
theorem Running.bin_products (h : c.Running block count g x n) (input : AudioBuffer w ℝ)
    {k : ℕ} (hk : k ≤ block) :
    bin (c.products fft input) k =
      ∑ i ∈ range (count - 1), realDft (2 * block) (segment block g (i + 1)) k *
        realDft (2 * block) (past block x (n / block) (i + 1)) k := by
  unfold products
  by_cases hempty : c.mInputBufferFill = 0
  · rw [if_pos hempty, bin_premultiply h.toShaped _ hk]
    refine sum_congr rfl fun i hi => ?_
    rw [mem_range] at hi
    rw [h.ir (i + 1) (by omega) k hk,
      spectra_of_ne (position_ne h.position_lt (by omega) (by omega)),
      h.earlier (i + 1) (by omega) (by omega) k hk]
  · rw [if_neg hempty]
    exact h.sum (by rwa [← h.fill]) k hk

/-- The working buffer keeps its shape. -/
theorem Shaped.room_products (h : c.Shaped block count) (input : AudioBuffer w ℝ) :
    Room (c.products fft input) 2 (block + 1) ∧
      (c.products fft input).mValidSize = block + 1 := by
  unfold products
  by_cases hempty : c.mInputBufferFill = 0
  · rw [if_pos hempty]
    exact room_premultiply h _
  · rw [if_neg hempty]
    exact ⟨h.premultiplied, h.premultiplied_valid⟩

/-- The products of all spectra belong to the circular convolutions of the blocks. -/
theorem realDft_products (hblock : 0 < block) (hcount : 0 < count) (t filled k : ℕ) :
    ∑ i ∈ range (count - 1), realDft (2 * block) (segment block g (i + 1)) k *
        realDft (2 * block) (past block x t (i + 1)) k +
      realDft (2 * block) (segment block g 0) k *
        realDft (2 * block) (recent block x t filled 0) k =
      realDft (2 * block) (fun j => ∑ i ∈ range count,
        circularConv (2 * block) (segment block g i) (recent block x t filled i) j) k := by
  have : NeZero (2 * block) := ⟨by omega⟩
  obtain ⟨earlier, rfl⟩ := Nat.exists_eq_add_of_le' hcount
  rw [realDft_sum, sum_range_succ', Nat.add_sub_cancel, realDft_circularConv]
  simp only [realDft_circularConv]
  rfl

/-! ### One iteration -/

section Pass

variable {input : AudioBuffer w ℝ} {filled : ℕ}

theorem Running.bin_current (hfft : fft.IsRealDft (2 * block)) (h : c.Running block count g x n)
    (hroom : Room input 1 block)
    (hinput : ∀ j < block, input.sample 0 j = recent block x (n / block) filled 0 j)
    (hle : filled ≤ block) {k : ℕ} (hk : k ≤ block) :
    bin (c.spectra fft input c.mCurrentPosition) k =
      realDft (2 * block) (recent block x (n / block) filled 0) k := by
  rw [spectra, Function.update_self, h.fft, bin_forwardInto hfft
    (by simpa using h.spectra _ h.position_lt) (by omega)]
  refine realDft_congr (fun j hj => ?_) k
  rw [padded, h.sample_padded hroom hj]
  by_cases hin : j < block
  · rw [if_pos hin, hinput j hin]
  · rw [if_neg hin, recent, if_neg (by omega)]

/-- **What one iteration computes** where samples have arrived.  The block may be filled in part
only: the samples that have not arrived yet are zero, and do not reach the ones that are put out. -/
theorem Running.sample_result (hfft : fft.IsRealDft (2 * block))
    (h : c.Running block count g x n) (hg : ∀ m, count * block ≤ m → g m = 0)
    (hroom : Room input 1 block)
    (hinput : ∀ j < block, input.sample 0 j = recent block x (n / block) filled 0 j)
    (hle : filled ≤ block) {q : ℕ} (hq : q < filled) :
    (c.result fft input).sample 0 q = kept block g x (n / block * block + q) := by
  obtain ⟨hproducts, hvalid⟩ : Room (c.products fft input) 2 (block + 1) ∧
      (c.products fft input).mValidSize = block + 1 := h.room_products input
  have hbins : ∀ k ≤ 2 * block / 2, bin (c.convolution fft input) k =
      realDft (2 * block) (fun j => ∑ i ∈ range count, circularConv (2 * block)
        (segment block g i) (recent block x (n / block) filled i) j) k := by
    intro k hk
    replace hk : k ≤ block := by omega
    rw [convolution, h.bin_convolution hproducts hvalid hk, h.bin_products input hk,
      h.ir 0 h.count_pos k hk, h.bin_current hfft hroom hinput hle hk]
    exact realDft_products h.block_pos h.count_pos _ _ _
  have hpadded : Room (c.padded input) 1 (2 * block) :=
    (h.fftBuffer.setBuffer input c.mBlockSize 0 0).setValue 0 0 c.mBlockSize
  rw [result, h.fft, sample_backInto hfft hpadded hbins (by omega)]
  exact sum_circularConv hq hle hg

/-- The samples of the current block after some more have arrived. -/
theorem Running.sample_input (h : c.Running block count g x n) {s : ℕ → ℝ} {p : ℕ}
    (hs : ∀ i < p, s i = x (n + i)) (hfill : n % block + p ≤ block) {j : ℕ} (hj : j < block) :
    (c.mInputBuffer.setChannel s p 0 c.mInputBufferFill).sample 0 j =
      recent block x (n / block) (n % block + p) 0 j := by
  have hsize := h.inputBuffer.le_size
  have hchannels := h.inputBuffer.channels
  have hdiv : n / block * block + n % block = n := Nat.div_add_mod' n block
  rw [h.fill, AudioBuffer.sample_setChannel (by omega) (by omega) (by omega) (by omega),
    h.input j hj, recent]
  by_cases hnew : n % block ≤ j ∧ j < n % block + p
  · rw [if_pos ⟨rfl, hnew⟩, if_pos hnew.2, hs _ (by omega)]
    congr 1
    omega
  · rw [if_neg fun hin => hnew hin.2]
    by_cases hold : j < n % block
    · rw [if_pos hold, if_pos (by omega)]
    · rw [if_neg hold, if_neg (by omega)]

/-- The buffers keep their shapes. -/
theorem Shaped.arrived (h : c.Shaped block count) (hroom : Room input 1 block) (p : ℕ) :
    (c.arrived fft input p).Shaped block count := by
  obtain ⟨hproducts, hvalid⟩ : Room (c.products fft input) 2 (block + 1) ∧
      (c.products fft input).mValidSize = block + 1 := h.room_products input
  refine ⟨h.block_pos, h.count_pos, h.blockSize, h.segmentCount, h.fft, ?_, hroom,
    h.overlapBuffer, hproducts, hvalid, (h.convolution.setBuffer _ _ _ _).complexMultiply _ _, ?_⟩
  · exact ((h.fftBuffer.setBuffer _ _ _ _).setValue _ _ _).backInto fft _
  · intro i hi
    show Room (c.spectra fft input i) 2 (block + 1)
    by_cases hcur : i = c.mCurrentPosition
    · subst hcur
      rw [ConvolverMono.spectra, Function.update_self]
      exact (h.spectra _ hi).forwardInto fft _
    · rw [spectra_of_ne hcur]
      exact h.spectra i hi

theorem Shaped.turned (h : c.Shaped block count) : c.turned.Shaped block count :=
  ⟨h.block_pos, h.count_pos, h.blockSize, h.segmentCount, h.fft, h.fftBuffer,
    h.inputBuffer.setValue _ _ _, h.overlapBuffer.setBuffer _ _ _ _, h.premultiplied,
    h.premultiplied_valid, h.convolution, h.spectra⟩

/-- As long as the block is not full, it gets fuller. -/
theorem Running.arrived (h : c.Running block count g x n) (hroom : Room input 1 block) {p : ℕ}
    (hinput : ∀ j < block, input.sample 0 j = recent block x (n / block) (n % block + p) 0 j)
    (hlt : n % block + p < block) : (c.arrived fft input p).Running block count g x (n + p) := by
  have hdiv : (n + p) / block = n / block := by
    rw [← Nat.div_add_mod n block, Nat.add_assoc, Nat.mul_add_div h.block_pos,
      Nat.div_eq_of_lt hlt, Nat.div_add_mod]
    rfl
  have hmod : (n + p) % block = n % block + p := by
    rw [← Nat.mod_add_mod, Nat.mod_eq_of_lt hlt]
  constructor
  case toShaped => exact h.toShaped.arrived hroom p
  case fill =>
    rw [hmod, ← h.fill]
    rfl
  case position_lt => exact h.position_lt
  case input =>
    rw [hdiv, hmod]
    exact hinput
  case overlap => exact h.overlap
  case ir => exact h.ir
  case earlier =>
    intro i hi hlt k hk
    rw [hdiv, ← h.earlier i hi hlt k hk]
    exact congrArg (bin · k) (spectra_of_ne (position_ne h.position_lt hi hlt))
  case sum =>
    intro _ k hk
    rw [hdiv]
    exact h.bin_products input hk

/-- Seen from the position before, every segment is one further. -/
theorem turned_index {position i : ℕ} (hcount : 0 < count) :
    ((if 0 < position then position - 1 else count - 1) + (i + 1)) % count =
      (position + i) % count := by
  by_cases hpos : 0 < position
  · rw [if_pos hpos]
    congr 1
    omega
  · rw [if_neg hpos, show count - 1 + (i + 1) = position + i + count by omega,
      Nat.add_mod_right]

/-- **A full block** becomes the block before the next one.  The convolver is running as
before, `p` samples further, and the next block starts empty. -/
theorem Running.turned (hfft : fft.IsRealDft (2 * block)) (h : c.Running block count g x n)
    (hroom : Room input 1 block) {p : ℕ}
    (hinput : ∀ j < block, input.sample 0 j = recent block x (n / block) (n % block + p) 0 j)
    (hfull : n % block + p = block) :
    (c.arrived fft input p).turned.Running block count g x (n + p) := by
  have hpos := h.block_pos
  have hcount := h.count_pos
  have hnext : n + p = block * (n / block + 1) := by
    calc n + p = block * (n / block) + n % block + p := by rw [Nat.div_add_mod]
      _ = block * (n / block) + (n % block + p) := Nat.add_assoc _ _ _
      _ = block * (n / block + 1) := by rw [hfull, Nat.mul_succ]
  have hdiv : (n + p) / block = n / block + 1 := by
    rw [hnext, Nat.mul_div_cancel_left _ hpos]
  have hmod : (n + p) % block = 0 := by
    rw [hnext, Nat.mul_mod_right]
  have hshaped : (c.arrived fft input p).Shaped block count := h.toShaped.arrived hroom p
  have hposition : (c.arrived fft input p).turned.mCurrentPosition =
      if 0 < c.mCurrentPosition then c.mCurrentPosition - 1 else count - 1 := by
    rw [← h.segmentCount]
    rfl
  have hlt := h.position_lt
  constructor
  case toShaped => exact hshaped.turned
  case fill => exact hmod.symm
  case position_lt =>
    rw [hposition]
    split <;> omega
  case input =>
    intro i hi
    rw [hmod, if_neg (Nat.not_lt_zero i)]
    have hsize := hroom.le_size
    have hchannels := hroom.channels
    show (input.setValue 0 0 0).sample 0 i = 0
    rw [AudioBuffer.sample_setValue (Nat.zero_le _) (by omega) (by omega), if_pos (Nat.zero_le i)]
  case overlap =>
    -- the new tail is written behind the samples that are read
    intro i hi
    have hchannels := h.overlapBuffer.channels
    show (c.mOverlapBuffer.setBuffer (c.result fft input) c.mBlockSize 0 c.mBlockSize).sample 0 i =
      0
    have hsize := h.overlapBuffer.le_size
    have hblockSize := h.blockSize
    have hwrites := AudioBuffer.writes_setBuffer (b := c.mOverlapBuffer) (c.result fft input)
      c.mBlockSize 0 (show c.mBlockSize ≤ _ by omega)
    rw [hwrites.kept 0 (by omega) i (by omega) (by omega), h.overlap i hi]
  case ir => exact h.ir
  case earlier =>
    intro i hi hic k hk
    obtain ⟨i, rfl⟩ := Nat.exists_eq_add_of_le' hi
    rw [hdiv, hposition, turned_index hcount, past_succ]
    show bin (c.spectra fft input ((c.mCurrentPosition + i) % count)) k = _
    rcases Nat.eq_zero_or_pos i with rfl | hold
    · rw [Nat.add_zero, Nat.mod_eq_of_lt hlt, h.bin_current hfft hroom hinput hfull.le hk, hfull,
        recent_full]
    · rw [spectra_of_ne (position_ne hlt hold (by omega)), h.earlier i hold (by omega) k hk]
  case sum => exact fun hne => absurd hmod hne

variable {inBuf outBuf : AudioBuffer w ℝ} {channel length processed start : ℕ}

theorem processBlock_eq (c : ConvolverMono w ℝ) (inBuf outBuf : AudioBuffer w ℝ)
    (channel length processed : ℕ) {p : ℕ} {input : AudioBuffer w ℝ}
    (hp : p = min (length - processed) (c.mBlockSize - c.mInputBufferFill))
    (hinput : input = c.mInputBuffer.setChannel (fun i => inBuf.sample channel (processed + i)) p
      0 c.mInputBufferFill) :
    c.processBlock fft inBuf outBuf channel length processed =
      (processed + p,
        if c.mInputBufferFill + p = c.mBlockSize then (c.arrived fft input p).turned
        else c.arrived fft input p,
        outBuf.withCells (modifyEach p (fun i => outBuf.get channel + (i + processed))
          (fun i _ => (c.result fft input).sample 0 (i + c.mInputBufferFill) +
            c.mOverlapBuffer.sample 0 (i + c.mInputBufferFill)) outBuf.cell)) := by
  subst hp hinput
  rfl

/-- **The iteration rule.**  Some samples are processed, and the convolver goes on. -/
theorem Running.pass (hfft : fft.IsRealDft (2 * block))
    (hg : ∀ m, count * block ≤ m → g m = 0)
    (h : c.Running block count g x (start + processed)) (hlt : processed < length)
    (hin : ∀ i < length, inBuf.sample channel i = x (start + i)) :
    ∃ p c' m, 0 < p ∧ processed + p ≤ length ∧
      c.processBlock fft inBuf outBuf channel length processed =
        (processed + p, c', outBuf.withCells m) ∧
      c'.Running block count g x (start + (processed + p)) ∧
      ∀ i, (outBuf.withCells m).sample channel i =
        if processed ≤ i ∧ i < processed + p then kept block g x (start + i)
        else outBuf.sample channel i := by
  obtain ⟨n, hn⟩ : ∃ n, n = start + processed := ⟨_, rfl⟩
  obtain ⟨p, hp⟩ : ∃ p, p = min (length - processed) (c.mBlockSize - c.mInputBufferFill) :=
    ⟨_, rfl⟩
  obtain ⟨input, hinput⟩ : ∃ b, b = c.mInputBuffer.setChannel
      (fun i => inBuf.sample channel (processed + i)) p 0 c.mInputBufferFill := ⟨_, rfl⟩
  rw [← hn] at h
  have hfill := h.fill
  have hblock := h.blockSize
  have hmod : n % block < block := Nat.mod_lt n h.block_pos
  have hfilled : n % block + p ≤ block := by omega
  have hroom : Room input 1 block := by
    rw [hinput]
    exact h.inputBuffer.setChannel _ _ _ _
  have harrive : ∀ j < block,
      input.sample 0 j = recent block x (n / block) (n % block + p) 0 j := by
    intro j hj
    rw [hinput]
    refine h.sample_input (fun i hi => ?_) hfilled hj
    rw [hin _ (by omega), hn, Nat.add_assoc]
  refine ⟨p, _, _, by omega, by omega, processBlock_eq c inBuf outBuf channel length processed hp
    hinput, ?_, fun i => ?_⟩
  · rw [← Nat.add_assoc, ← hn, hfill, hblock]
    by_cases hfull : n % block + p = block
    · rw [if_pos hfull]
      exact h.turned hfft hroom harrive hfull
    · rw [if_neg hfull]
      exact h.arrived hroom harrive (by omega)
  · rw [AudioBuffer.withCells_sample]
    by_cases hnew : processed ≤ i ∧ i < processed + p
    · obtain ⟨k, rfl⟩ := Nat.exists_eq_add_of_le' hnew.1
      have hdiv : n / block * block + (k + n % block) = start + (k + processed) := by
        have := Nat.div_add_mod' n block
        omega
      rw [if_pos hnew, modifyEach_addr (fun _ _ _ _ heq => by omega) (by omega), hfill,
        h.overlap _ (by omega), add_zero,
        h.sample_result hfft hg hroom harrive hfilled (by omega), hdiv]
    · rw [if_neg hnew]
      exact modifyEach_of_ne fun j hj heq => hnew (by omega)

/-- The rest of a call. -/
theorem Running.processLoop (hfft : fft.IsRealDft (2 * block))
    (hg : ∀ m, count * block ≤ m → g m = 0)
    (hin : ∀ i < length, inBuf.sample channel i = x (start + i)) {fuel : ℕ}
    (h : c.Running block count g x (start + processed)) (hle : processed ≤ length)
    (hfuel : length ≤ processed + fuel)
    (hdone : ∀ i < processed, outBuf.sample channel i = kept block g x (start + i)) :
    ∃ c' out', processLoop fft inBuf channel length fuel processed c outBuf = some (c', out') ∧
      c'.Running block count g x (start + length) ∧
      ∀ i < length, out'.sample channel i = kept block g x (start + i) := by
  induction fuel generalizing processed c outBuf with
  | zero =>
      obtain rfl : processed = length := by omega
      rw [ConvolverMono.processLoop, if_neg (lt_irrefl _)]
      exact ⟨c, outBuf, rfl, h, hdone⟩
  | succ fuel ih =>
      rw [ConvolverMono.processLoop]
      by_cases hlt : processed < length
      · obtain ⟨p, c', m, hp, hnext, hblock, hrunning, hsample⟩ :=
          h.pass hfft hg hlt hin
        rw [if_pos hlt, hblock]
        refine ih hrunning hnext (by omega) fun i hi => ?_
        rw [hsample]
        by_cases hnew : processed ≤ i
        · rw [if_pos ⟨hnew, hi⟩]
        · rw [if_neg fun h => hnew h.1, hdone i (by omega)]
      · obtain rfl : processed = length := by omega
        rw [if_neg hlt]
        exact ⟨c, outBuf, rfl, h, hdone⟩

/-- **The call rule.**  A call puts out what is kept of the convolution. -/
theorem Running.process (hfft : fft.IsRealDft (2 * block))
    (hg : ∀ m, count * block ≤ m → g m = 0) (h : c.Running block count g x start)
    (hin : ∀ i < inBuf.mValidSize, inBuf.sample channel i = x (start + i)) :
    ∃ c' out', c.process fft inBuf outBuf channel = some (c', out') ∧
      c'.Running block count g x (start + inBuf.mValidSize) ∧
      ∀ i < inBuf.mValidSize, out'.sample channel i = kept block g x (start + i) := by
  rw [ConvolverMono.process, if_neg (by rw [h.segmentCount]; exact h.count_pos.ne')]
  exact h.processLoop hfft hg hin (Nat.zero_le _) (by omega)
    fun i hi => absurd hi (Nat.not_lt_zero i)

end Pass

end ConvolverMono

end Tklb
