import Mathlib.Data.Complex.BigOperators
import Tklb.ConvolverMono
import Tklb.Foundation.RealDft

/-!
# The buffers of a `ConvolverMono`

Each buffer has room for what is written to it (`Shaped`), so every copy and every
transform does to the samples what it says.  `bin b k` is bin `k` of a spectrum that is kept
in the two channels of a buffer.

### Why it matters

`setChannel` and `setBuffer` clamp what they copy to the storage, without a word, so a statement
about a convolver has to know for every buffer that nothing was clamped.  `Shaped` collects what
is needed: which buffer has how many channels and how much room, that the spectra all have one
more bin than half the transform, that the counters name existing segments.  It holds after
`load` and every step keeps it, because no step changes the shape of a buffer.

`Fft.IsRealDft` is the assumption on the transform, and the only one: `forward` gives the bins of
the real transform of the first `N` samples, and `back` the samples that have the given bins.
With it, `bin` turns the pair of channels of a buffer into a complex number, in which the
products of spectra are products.  `sample_complexMultiply` is the fact about
`complexMultiply` that the later modules use.
-/

namespace Tklb

open Foundation Finset

/-! ### Shapes -/

/-- A buffer with room for `length` frames.  A resize rounds sizes up, so a buffer may be longer
than what was asked for. -/
structure Room {w : ℕ} {α : Type} (b : AudioBuffer w α) (chan length : ℕ) : Prop where
  channels : b.mChannels = chan
  le_size : length ≤ b.size

namespace Room

variable {w : ℕ} {α : Type} {b : AudioBuffer w α} {chan length : ℕ}

theorem withCells (h : Room b chan length) (m : ℕ → α) : Room (b.withCells m) chan length :=
  ⟨h.channels, h.le_size⟩

theorem setChannel (h : Room b chan length) (s : ℕ → α) (n channel offsetDst : ℕ) :
    Room (b.setChannel s n channel offsetDst) chan length := by
  obtain ⟨m, hm⟩ := AudioBuffer.exists_setChannel_eq_withCells b s n channel offsetDst
  rw [hm]
  exact h.withCells m

theorem setBuffer (h : Room b chan length) (buffer : AudioBuffer w α) (n offsetSrc offsetDst : ℕ) :
    Room (b.setBuffer buffer n offsetSrc offsetDst) chan length :=
  ⟨AudioBuffer.setBuffer_mChannels.trans h.channels, by
    rw [AudioBuffer.setBuffer_size]
    exact h.le_size⟩

theorem setValue (h : Room b chan length) (v : α) (n offsetDst : ℕ) :
    Room (b.setValue v n offsetDst) chan length :=
  h.withCells _

theorem setValidSize (h : Room b chan length) (v : ℕ) : Room (b.setValidSize v) chan length :=
  ⟨h.channels, h.le_size⟩

theorem forwardInto {N : ℕ} (h : Room b chan length) (fft : Fft α) (input : AudioBuffer w α) :
    Room (fft.forwardInto N input b) chan length :=
  ((h.setChannel _ _ _ _).setChannel _ _ _ _).setValidSize _

theorem backInto {N : ℕ} (h : Room b chan length) (fft : Fft α) (input : AudioBuffer w α) :
    Room (fft.backInto N input b) chan length :=
  h.setChannel _ _ _ _

theorem complexMultiply [CommRing α] (h : Room b chan length) (a a' : AudioBuffer w α) :
    Room (ConvolverMono.complexMultiply b a a') chan length :=
  h.withCells _

end Room

/-- **The transform is the real DFT** of length `N`, and `back` inverts it.  Nothing else is known
of it, and nothing of its rounding: the transform is a parameter of the convolver, and its numbers
are real. -/
structure Fft.IsRealDft (fft : Fft ℝ) (N : ℕ) : Prop where
  forward_eq : ∀ x, ∀ k ≤ N / 2,
    (⟨(fft.forward N x).1 k, (fft.forward N x).2 k⟩ : ℂ) = realDft N x k
  back_eq : ∀ x X, (∀ k ≤ N / 2, (⟨X.1 k, X.2 k⟩ : ℂ) = realDft N x k) →
    ∀ n < N, fft.back N X n = x n

namespace ConvolverMono

/-- The buffers of a loaded convolver.  Sizes and numbers of channels only: what is in them is in
`Loading` and `Running`. -/
structure Shaped {w : ℕ} {α : Type} (c : ConvolverMono w α) (block count : ℕ) : Prop where
  block_pos : 0 < block
  count_pos : 0 < count
  blockSize : c.mBlockSize = block
  segmentCount : c.mSegmentCount = count
  fft : c.mFFT = 2 * block
  fftBuffer : Room c.mFFTBuffer 1 (2 * block)
  inputBuffer : Room c.mInputBuffer 1 block
  overlapBuffer : Room c.mOverlapBuffer 1 block
  premultiplied : Room c.mPremultipliedBuffer 2 (block + 1)
  premultiplied_valid : c.mPremultipliedBuffer.mValidSize = block + 1
  convolution : Room c.mConvolutionBuffer 2 (block + 1)
  spectra : ∀ i < count, Room (c.mSegments i) 2 (block + 1)

/-! ### Multiplying spectra -/

section Multiply

variable {w : ℕ} {α : Type} [CommRing α] {out a b : AudioBuffer w α}

/-- The two channels after the first `n` bins. -/
def Multiplied (out a b : AudioBuffer w α) (n : ℕ) (m : ℕ → α) : Prop :=
  ∀ i < out.size,
    m (out.get 0 + i) = out.sample 0 i +
      (if i < n then a.sample 0 i * b.sample 0 i - a.sample 1 i * b.sample 1 i else 0) ∧
    m (out.get 1 + i) = out.sample 1 i +
      (if i < n then a.sample 0 i * b.sample 1 i + a.sample 1 i * b.sample 0 i else 0)

/-- A bin is written once, in its own iteration. -/
theorem Multiplied.step (hout : out.mChannels = 2) {n : ℕ} {m : ℕ → α} (hn : n < out.size)
    (h : Multiplied out a b n m) : Multiplied out a b (n + 1) (multiplyBin out a b n m) := by
  intro i hi
  have hcell : ∀ {c d : ℕ}, c < 2 → d < 2 → out.get c + i = out.get d + n → c = d ∧ i = n :=
    fun hc hd heq => AudioBuffer.get_add_injective (by omega) (by omega) hi hn heq
  obtain ⟨hreal, himag⟩ := h i hi
  have hfirst : out.get 0 + i ≠ out.get 1 + n := fun heq =>
    absurd (hcell (by omega) (by omega) heq).1 (by omega)
  have hsecond : out.get 1 + i ≠ out.get 0 + n := fun heq =>
    absurd (hcell (by omega) (by omega) heq).1 (by omega)
  have hother : out.get 1 + n ≠ out.get 0 + n := fun heq =>
    absurd (AudioBuffer.get_add_injective (b := out) (by omega) (by omega) hn hn heq).1
      (by omega)
  simp only [multiplyBin]
  rw [Function.update_of_ne hfirst, Function.update_of_ne hother]
  by_cases hin : i = n
  · subst hin
    rw [Function.update_self, Function.update_self, hreal, himag, if_neg (lt_irrefl i),
      if_neg (lt_irrefl i), if_pos (Nat.lt_succ_self i), if_pos (Nat.lt_succ_self i), add_zero,
      add_zero]
    exact ⟨rfl, rfl⟩
  · have hne : ∀ {c : ℕ}, c < 2 → out.get c + i ≠ out.get c + n := fun hc heq =>
      hin (hcell hc hc heq).2
    have hiff : i < n + 1 ↔ i < n := by omega
    rw [Function.update_of_ne (hne (by omega)), Function.update_of_ne (hne (by omega)),
      Function.update_of_ne hsecond, hreal, himag]
    simp only [hiff, and_self]

/-- **What `complexMultiply` adds** to the two channels.  The first channel holds the real parts and
the second one the imaginary parts, as everywhere in the convolver. -/
theorem sample_complexMultiply (hout : out.mChannels = 2) {i : ℕ} (hi : i < out.size) :
    (complexMultiply out a b).sample 0 i =
        out.sample 0 i + (a.sample 0 i * b.sample 0 i - a.sample 1 i * b.sample 1 i) ∧
      (complexMultiply out a b).sample 1 i =
        out.sample 1 i + (a.sample 0 i * b.sample 1 i + a.sample 1 i * b.sample 0 i) := by
  have hstart : Multiplied out a b 0 out.cell := fun i _ => by simp [AudioBuffer.sample]
  have hloop : Multiplied out a b out.size (countUp out.size (multiplyBin out a b) out.cell) :=
    countUp_invariant (Multiplied out a b) hstart fun n hn _ hm => hm.step hout hn
  have hbin := hloop i hi
  rw [if_pos hi, if_pos hi] at hbin
  exact hbin

end Multiply

/-! ### Spectra -/

section Spectra

variable {w : ℕ}

/-- Bin `k` of a spectrum. -/
def bin (b : AudioBuffer w ℝ) (k : ℕ) : ℂ := ⟨b.sample 0 k, b.sample 1 k⟩

theorem bin_complexMultiply {out a b : AudioBuffer w ℝ} (hout : out.mChannels = 2) {k : ℕ}
    (hk : k < out.size) : bin (complexMultiply out a b) k = bin out k + bin a k * bin b k := by
  obtain ⟨hre, him⟩ := sample_complexMultiply (a := a) (b := b) hout hk
  apply Complex.ext
  · simpa [bin] using hre
  · simpa [bin] using him

variable {fft : Fft ℝ} {N : ℕ} {input output : AudioBuffer w ℝ}

/-- `forward` stores the spectrum of its input. -/
theorem bin_forwardInto (hfft : fft.IsRealDft N) (hout : Room output 2 (N / 2 + 1)) {k : ℕ}
    (hk : k ≤ N / 2) :
    bin (fft.forwardInto N input output) k = realDft N (input.sample 0) k := by
  have hsize := hout.le_size
  have hchannels := hout.channels
  have hfirst := hout.setChannel (fft.forward N (input.sample 0)).1 (N / 2 + 1) 0 0
  rw [← hfft.forward_eq _ k hk]
  apply Complex.ext
  · show ((output.setChannel _ (N / 2 + 1) 0 0).setChannel _ (N / 2 + 1) 1 0).sample 0 k = _
    rw [AudioBuffer.sample_setChannel (by rw [hfirst.channels]; omega)
        (by rw [Nat.zero_add]; exact hfirst.le_size) (by rw [hfirst.channels]; omega)
        (by have := hfirst.le_size; omega), if_neg (by omega),
      AudioBuffer.sample_setChannel (by omega) (by omega) (by omega) (by omega),
      if_pos (by omega), Nat.sub_zero]
  · show ((output.setChannel _ (N / 2 + 1) 0 0).setChannel _ (N / 2 + 1) 1 0).sample 1 k = _
    rw [AudioBuffer.sample_setChannel (by rw [hfirst.channels]; omega)
        (by rw [Nat.zero_add]; exact hfirst.le_size) (by rw [hfirst.channels]; omega)
        (by have := hfirst.le_size; omega), if_pos (by omega), Nat.sub_zero]

/-- `back` restores the sequence of a spectrum. -/
theorem sample_backInto (hfft : fft.IsRealDft N) (hout : Room output 1 N) {x : ℕ → ℝ}
    (hbins : ∀ k ≤ N / 2, bin input k = realDft N x k) {n : ℕ} (hn : n < N) :
    (fft.backInto N input output).sample 0 n = x n := by
  have hsize := hout.le_size
  have hchannels := hout.channels
  rw [Fft.backInto, AudioBuffer.sample_setChannel (by omega) (by omega) (by omega) (by omega),
    if_pos (by omega), Nat.sub_zero]
  exact hfft.back_eq x _ hbins n hn

/-- The products with the earlier blocks. -/
theorem bin_premultiply {c : ConvolverMono w ℝ} {block count : ℕ} (hc : c.Shaped block count)
    (mSegments : ℕ → AudioBuffer w ℝ) {k : ℕ} (hk : k ≤ block) :
    bin (c.premultiply mSegments) k = ∑ i ∈ range (count - 1),
      bin (c.mSegmentsIR (i + 1)) k *
        bin (mSegments ((c.mCurrentPosition + (i + 1)) % count)) k := by
  have hroom := hc.premultiplied.setValue 0 0 0
  rw [premultiply, hc.segmentCount]
  refine (countUp_invariant (fun n b => Room b 2 (block + 1) ∧ bin b k = ∑ i ∈ range n,
    bin (c.mSegmentsIR (i + 1)) k *
      bin (mSegments ((c.mCurrentPosition + (i + 1)) % count)) k) ⟨hroom, ?_⟩ ?_).2
  · have hsize := hc.premultiplied.le_size
    have hchannels := hc.premultiplied.channels
    rw [sum_range_zero, bin, AudioBuffer.sample_setValue (Nat.zero_le _) (by omega) (by omega),
      AudioBuffer.sample_setValue (Nat.zero_le _) (by omega) (by omega), if_pos (Nat.zero_le _)]
    rfl
  · rintro n - b ⟨hb, hbin⟩
    refine ⟨hb.complexMultiply _ _, ?_⟩
    rw [bin_complexMultiply hb.channels (by have := hb.le_size; omega), hbin, sum_range_succ]

theorem room_premultiply {c : ConvolverMono w ℝ} {block count : ℕ} (hc : c.Shaped block count)
    (mSegments : ℕ → AudioBuffer w ℝ) :
    Room (c.premultiply mSegments) 2 (block + 1) ∧
      (c.premultiply mSegments).mValidSize = block + 1 := by
  refine countUp_invariant
    (fun _ (b : AudioBuffer w ℝ) => Room b 2 (block + 1) ∧ b.mValidSize = block + 1)
    ⟨hc.premultiplied.setValue 0 0 0, hc.premultiplied_valid⟩ ?_
  rintro n - b ⟨hb, hvalid⟩
  exact ⟨hb.complexMultiply _ _, hvalid⟩

end Spectra

/-! ### `load` -/

section Load

variable {B : BufferType}

/-- The buffers of a convolver for blocks of this size fit `Size`.  They are the transform buffer,
the input and the overlap, and the spectra with their two channels. -/
def Fits (B : BufferType) (blockSize : ℕ) : Prop :=
  AudioBuffer.SizeFits B (2 * powerOf2 blockSize) 1 ∧
    AudioBuffer.SizeFits B (powerOf2 blockSize) 1 ∧
    AudioBuffer.SizeFits B (powerOf2 blockSize + 1) 2

theorem powerOf2_pos (b : ℕ) : 0 < powerOf2 b := Nat.two_pow_pos _

/-- A block size that is a power of two stays as it is. -/
theorem powerOf2_pow (k : ℕ) : powerOf2 (2 ^ k) = 2 ^ k := by
  rw [powerOf2, Nat.clog_pow 2 k Nat.one_lt_two]

/-- A new buffer after its first `resize`. -/
theorem resize_initial {length : ℕ} (chan : Fin (2 ^ 8)) (hchan : 0 < (chan : ℕ))
    (hfit : AudioBuffer.SizeFits B length chan) :
    Room ((AudioBuffer.initial : AudioBuffer B.sizeBits ℝ).resize B (toSize B length) chan true)
        chan length ∧
      ((AudioBuffer.initial : AudioBuffer B.sizeBits ℝ).resize B (toSize B length) chan
        true).mValidSize = length ∧
      ∀ c i, ((AudioBuffer.initial : AudioBuffer B.sizeBits ℝ).resize B (toSize B length) chan
        true).sample c i = 0 := by
  have hlt : length < 2 ^ B.sizeBits := by
    refine (AudioBuffer.le_padded B length).trans_lt (lt_of_le_of_lt ?_ hfit)
    exact Nat.le_mul_of_pos_left _ hchan
  have hsize : ((toSize B length : Fin (2 ^ B.sizeBits)) : ℕ) = length := wrap_of_lt hlt
  have hchange : ¬ ((chan : ℕ) = (AudioBuffer.initial : AudioBuffer B.sizeBits ℝ).mChannels ∧
      (AudioBuffer.initial : AudioBuffer B.sizeBits ℝ).size = (toSize B length : ℕ)) :=
    fun h => hchan.ne' h.1
  refine ⟨⟨AudioBuffer.resize_mChannels _ _ _ _, ?_⟩, ?_, fun c i => ?_⟩
  · rw [AudioBuffer.resize_size (by rw [hsize]; exact hfit) hchange hchan, hsize]
    exact AudioBuffer.le_padded B length
  · rw [AudioBuffer.resize, if_neg hchange]
    exact hsize
  · rw [AudioBuffer.sample, AudioBuffer.resize, if_neg hchange]

end Load

end ConvolverMono

end Tklb
