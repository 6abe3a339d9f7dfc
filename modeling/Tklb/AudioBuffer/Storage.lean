import Tklb.AudioBuffer
import Tklb.Foundation.Runs
import Tklb.HeapBuffer.Operations

/-!
# The storage of an `AudioBuffer`

`resize` rounds the length of a channel up to the alignment, asks its `HeapBuffer`
for that many elements per channel, and from then on the stride of the channels is
not kept: `size()` and `get()` divide the number of elements by the number of
channels.  The file says what the channels look like afterwards (`LaidOut`).

A resize that changes anything lays the channels out right, whatever was there
before (`laidOut_of_reshaped`).  A resize to the shape the buffer has already
returns at once and trusts the storage it finds.  That storage is `Whole` unless
the size of an earlier one was wrapped (`whole_of_run`), and it has to be
(`resize_laidOut_iff`).

### Main results

* `LaidOut` is what the function promises, written out: the channels, their length up to the
  padding, that they are disjoint, that they cover the storage, that each starts aligned.
* `Whole` is what is left of it when the length asked for is forgotten, and what an invariant
  can be made of.  `Whole.laidOut` and `LaidOut.whole` go back and forth.
* `resize_laidOut_iff` has the condition for one call on any state and, for runs from a new
  buffer, that it is always met.

### What is load-bearing

`size()` divides the number of elements by the number of channels, so a remainder is lost, and
with it the alignment of all channels but the first.  The number of elements is a product of
the two, and divides without a remainder exactly if the product did not wrap (`SizeFits`); a
resize to the same shape keeps an old remainder.  `elements_eq_wrap` and `wrapped_lt` say what
the numbers are when it does wrap; they are used by the modules about allocation, about `clone`
and about the convolvers.
-/

namespace Tklb

open Foundation

namespace AudioBuffer

variable {α : Type} [Zero α] {B : BufferType} {b : AudioBuffer B.sizeBits α}

/-! ### What the `HeapBuffer` does -/

/-- A `HeapBuffer` that owns its memory has as many elements as it is asked for
after being emptied and resized, all of them new. -/
theorem storage_resize {T : Type} [Inhabited T] {s : BufferState T} {objs : List (T × ℕ)}
    (h : s.Holds B objs) {n : ℕ} (hfit : BufferState.RoundFits B n) :
    ∃ t, (s.resize B 0 true).2.resize B n true = (true, t) ∧ t.buffer.mSize = n ∧
      ∀ i < n, t.value i = some default := by
  obtain ⟨s₁, hempty, hholds, -⟩ := h.resize_zero true
  obtain ⟨t, objs', hcall, hholds', hvalues, -⟩ := hholds.resize hfit true
  have hall : objs'.map Prod.fst = List.replicate n default := by simpa using hvalues
  have hlen : objs'.length = n := by simpa using congrArg List.length hall
  refine ⟨t, by rw [hempty, hcall], by rw [hholds'.size, hlen], ?_⟩
  intro i hi
  rw [hholds'.value_eq (hlen.symm ▸ hi), hall, List.getElem?_replicate, if_pos hi]

/-! ### Channels -/

/-- The number of samples a channel starts at a multiple of. -/
def stride (B : BufferType) : ℕ := B.alignment / B.sizeofT

/-- **The layout `resize(length, chan)` promises.**  There are `chan` channels of at
least `length` samples, with less than one alignment unit of padding; they do not
overlap, they are inside the storage and fill it; and each starts at an aligned
address if the storage does. -/
structure LaidOut (b : AudioBuffer B.sizeBits α) (length chan : ℕ) : Prop where
  channels : b.mChannels = chan
  length_le : length ≤ b.size
  size_lt : b.size < length + B.alignment / B.sizeofT
  disjoint : ∀ c < chan, ∀ d < chan, c ≠ d → ∀ i < b.size, ∀ j < b.size,
    b.get c + i ≠ b.get d + j
  cover : ∀ k, k < b.mBufferSize ↔ ∃ c < chan, ∃ i < b.size, k = b.get c + i
  aligned : ∀ c < chan, ∀ base, B.alignment ∣ base → B.alignment ∣ base + b.get c * B.sizeofT

/-- The storage is divided into its channels without remainder, and if there are
several, their length is a multiple of the alignment. -/
def Whole (b : AudioBuffer B.sizeBits α) : Prop :=
  b.mChannels * b.size = b.mBufferSize ∧ (b.mChannels = 1 ∨ stride B ∣ b.size)

/-- The alignment is a power-of-two multiple of the size of a sample.  It is
so for the samples of a machine type. -/
def Aligned (B : BufferType) : Prop :=
  0 < B.sizeofT ∧ ∃ k, B.alignment = 2 ^ k * B.sizeofT

theorem Aligned.alignment_eq (h : Aligned B) : B.alignment = stride B * B.sizeofT := by
  obtain ⟨hpos, k, hk⟩ := h
  rw [stride, hk, Nat.mul_div_cancel _ hpos]

theorem Aligned.stride_pos (h : Aligned B) : 0 < stride B := by
  obtain ⟨hpos, k, hk⟩ := h
  rw [stride, hk, Nat.mul_div_cancel _ hpos]
  exact Nat.two_pow_pos k

omit [Zero α] in
/-- Channels that fill the storage of an aligned length are laid out right. -/
theorem Whole.laidOut (h : b.Whole) (hA : Aligned B) {length : ℕ} (hle : length ≤ b.size)
    (hlt : b.size < length + stride B) : b.LaidOut length b.mChannels where
  channels := rfl
  length_le := hle
  size_lt := hlt
  disjoint := by
    intro c hc d hd hne i hi j hj heq
    exact hne (get_add_injective hc hd hi hj heq).1
  cover := by
    intro k
    constructor
    · intro hk
      rw [← h.1] at hk
      have hpos : 0 < b.size := Nat.pos_of_mul_pos_left (Nat.zero_lt_of_lt hk)
      have hc : k / b.size < b.mChannels := Nat.div_lt_of_lt_mul (by rwa [Nat.mul_comm])
      refine ⟨k / b.size, hc, k % b.size, Nat.mod_lt _ hpos, ?_⟩
      rw [get_eq hc, Nat.div_add_mod']
    · rintro ⟨c, hc, i, hi, rfl⟩
      exact get_add_lt hc hi
  aligned := by
    intro c hc base hbase
    refine Nat.dvd_add hbase ?_
    rw [get_eq hc, hA.alignment_eq]
    rcases h.2 with hone | hdvd
    · -- the only channel starts where the storage does
      rw [show c = 0 by omega, Nat.zero_mul, Nat.zero_mul]
      exact Nat.dvd_zero _
    · exact Nat.mul_dvd_mul (hdvd.mul_left c) (Nat.dvd_refl _)

omit [Zero α] in
/-- Nothing less will do. -/
theorem LaidOut.whole {length : ℕ} (h : b.LaidOut length b.mChannels) (hA : Aligned B)
    (hpos : 0 < length) : b.Whole := by
  have hsize : 0 < b.size := hpos.trans_le h.length_le
  have hne : b.mChannels ≠ 0 := by
    refine b.channels_ne fun hzero => ?_
    rw [size, if_pos hzero] at hsize
    exact lt_irrefl 0 hsize
  refine ⟨?_, ?_⟩
  · -- the first cell behind the channels would be covered
    refine le_antisymm b.channels_mul_size_le (Nat.le_of_not_lt fun hlt => ?_)
    obtain ⟨c, hc, i, hi, heq⟩ := (h.cover _).mp hlt
    rw [get_eq hc] at heq
    have hrow : (c + 1) * b.size ≤ b.mChannels * b.size := Nat.mul_le_mul_right _ hc
    rw [Nat.add_mul, Nat.one_mul] at hrow
    omega
  · -- the second channel starts after one channel
    by_cases hone : b.mChannels = 1
    · exact Or.inl hone
    have hsecond : 1 < b.mChannels := by omega
    have hdvd := h.aligned 1 hsecond 0 (Nat.dvd_zero _)
    rw [Nat.zero_add, get_eq hsecond, Nat.one_mul, hA.alignment_eq] at hdvd
    exact Or.inr (Nat.dvd_of_mul_dvd_mul_right hA.1 hdvd)

/-! ### `resize` -/

variable {length : Fin (2 ^ B.sizeBits)} {chan : Fin (2 ^ 8)}

/-- The length of a channel with its padding. -/
def padded (B : BufferType) (length : ℕ) : ℕ := roundUp length (max (stride B) 1)

/-- The number of elements `resize` asks for fits in `Size`.  It is the product of
the channels and the padded length. -/
def SizeFits (B : BufferType) (length chan : ℕ) : Prop :=
  chan * padded B length < 2 ^ B.sizeBits

instance (B : BufferType) (length chan : ℕ) : Decidable (SizeFits B length chan) :=
  Nat.decLt _ _

/-- A buffer that has the shape already is not touched. -/
theorem resize_of_same (h : chan = b.mChannels ∧ b.size = length) (stored : Bool) :
    b.resize B length chan stored = b :=
  if_pos h

theorem le_padded (B : BufferType) (length : ℕ) : length ≤ padded B length :=
  le_roundUp _ (by omega)

theorem Aligned.padded_eq (h : Aligned B) (length : ℕ) :
    padded B length = roundUp length (stride B) := by
  rw [padded, Nat.max_eq_left h.stride_pos]

/-- The number of elements a resize asks for. -/
theorem elements_eq (hfit : SizeFits B length chan) :
    wrap B.sizeBits (chan * HeapBuffer.closestChunkSize B length
      (wrap B.sizeBits (B.alignment / B.sizeofT))) = chan * padded B length := by
  -- without channels or samples the rounded length plays no role
  rcases Nat.eq_zero_or_pos (chan : ℕ) with hchan | hchan
  · rw [hchan, Nat.zero_mul, Nat.zero_mul]
    exact wrap_of_lt (Nat.two_pow_pos _)
  rcases Nat.eq_zero_or_pos (length : ℕ) with hlength | hlength
  · rw [hlength, padded, roundUp_of_dvd (Nat.dvd_zero _), HeapBuffer.closestChunkSize,
      if_pos rfl]
    exact wrap_of_lt (Nat.two_pow_pos _)
  have hround : padded B length < 2 ^ B.sizeBits :=
    (Nat.le_mul_of_pos_left _ hchan).trans_lt hfit
  have hchunk : wrap B.sizeBits (B.alignment / B.sizeofT) = stride B := by
    have hle := Nat.le_of_dvd (hlength.trans_le (le_padded B length)) (dvd_roundUp _ _)
    exact wrap_of_lt (show stride B < 2 ^ B.sizeBits by omega)
  rw [hchunk, BufferState.closestChunkSize_eq_roundUp hround, ← padded, wrap_of_lt hfit]

/-- The number of elements after a resize that changes the shape. -/
theorem resize_mBufferSize (hfit : SizeFits B length chan)
    (hchange : ¬ (chan = b.mChannels ∧ b.size = length)) (stored : Bool) :
    (b.resize B length chan stored).mBufferSize =
      if stored then chan * padded B length else 0 := by
  rw [← elements_eq hfit, resize, if_neg hchange]

theorem resize_mChannels (b : AudioBuffer B.sizeBits α) (length : Fin (2 ^ B.sizeBits))
    (chan : Fin (2 ^ 8)) (stored : Bool) : (b.resize B length chan stored).mChannels = chan := by
  unfold resize
  split
  · rename_i hsame
    exact hsame.1.symm
  · rfl

/-- The length of a channel is then the rounded one. -/
theorem resize_size (hfit : SizeFits B length chan)
    (hchange : ¬ (chan = b.mChannels ∧ b.size = length)) (hchan : 0 < (chan : ℕ)) :
    (b.resize B length chan true).size = padded B length := by
  rw [size_eq, resize_mBufferSize hfit hchange, resize_mChannels, if_pos rfl,
    Nat.mul_div_cancel_left _ hchan]

/-- **A resize that changes the shape divides the storage without remainder**, also
when there was no memory. -/
theorem resize_whole (hA : Aligned B) (hfit : SizeFits B length chan)
    (hchange : ¬ (chan = b.mChannels ∧ b.size = length)) (stored : Bool) :
    (b.resize B length chan stored).Whole := by
  have hbuffer := resize_mBufferSize hfit hchange stored
  unfold Whole
  rw [size_eq, hbuffer, resize_mChannels]
  cases stored with
  | false => simp
  | true =>
      rw [if_pos rfl]
      rcases Nat.eq_zero_or_pos (chan : ℕ) with hchan | hchan
      · simp [hchan]
      · rw [Nat.mul_div_cancel_left _ hchan, hA.padded_eq]
        exact ⟨rfl, Or.inr (dvd_roundUp _ _)⟩

/-- So its channels are laid out right, whatever there was before. -/
theorem laidOut_of_reshaped (hA : Aligned B) (hfit : SizeFits B length chan)
    (hchange : ¬ (chan = b.mChannels ∧ b.size = length)) (hchan : 0 < (chan : ℕ)) :
    (b.resize B length chan true).LaidOut length chan := by
  have hsize := (resize_size hfit hchange hchan).trans (hA.padded_eq _)
  have hle : (length : ℕ) ≤ (b.resize B length chan true).size :=
    hsize ▸ le_roundUp _ hA.stride_pos
  have hlaid := (resize_whole hA hfit hchange true).laidOut hA hle
    (hsize ▸ roundUp_lt _ hA.stride_pos)
  rwa [resize_mChannels] at hlaid

/-! ### When the size is wrapped -/

/-- Rounding up wraps at most once, at the end. -/
theorem closestChunkSize_eq_wrap {n : ℕ} (hn : n < 2 ^ B.sizeBits) (chunk : ℕ) :
    HeapBuffer.closestChunkSize B n chunk = wrap B.sizeBits (roundUp n (max chunk 1)) := by
  by_cases hdvd : max chunk 1 ∣ n
  · rw [roundUp_of_dvd hdvd, wrap_of_lt hn]
    simp only [HeapBuffer.closestChunkSize, Nat.mod_eq_zero_of_dvd hdvd, if_true]
    split
    · rename_i hzero
      exact hzero.symm
    · exact ite_id n
  · have hmod : n % max chunk 1 ≠ 0 := fun h => hdvd (Nat.dvd_of_mod_eq_zero h)
    have hne : n ≠ 0 := fun h => hdvd (h ▸ Nat.dvd_zero _)
    have hchunk : n ≠ chunk := fun h => hdvd (dvd_of_eq (by omega))
    rw [HeapBuffer.closestChunkSize, if_neg hne, if_neg hchunk]
    dsimp only
    rw [if_neg hmod, roundUp_of_not_dvd (by omega) hdvd]

/-- The number of elements `resize` asks for, whether it is wrapped or not; there is room
for the padding of all channels, whatever the alignment. -/
theorem elements_eq_wrap (hsmall : 256 * stride B ≤ 2 ^ B.sizeBits) :
    wrap B.sizeBits (chan * HeapBuffer.closestChunkSize B length
      (wrap B.sizeBits (B.alignment / B.sizeofT))) = wrap B.sizeBits (chan * padded B length) := by
  have hchunk : wrap B.sizeBits (B.alignment / B.sizeofT) = stride B := by
    have hpos := Nat.two_pow_pos B.sizeBits
    exact wrap_of_lt (show stride B < 2 ^ B.sizeBits by omega)
  rw [hchunk, closestChunkSize_eq_wrap length.isLt, ← padded, wrap, wrap, wrap, Nat.mul_mod_mod]

/-- The length of a channel after a resize that changes the shape. -/
theorem resize_size_eq (hsmall : 256 * stride B ≤ 2 ^ B.sizeBits)
    (hchange : ¬ (chan = b.mChannels ∧ b.size = length)) (stored : Bool) :
    (b.resize B length chan stored).size =
      (if stored then wrap B.sizeBits (chan * padded B length) else 0) / chan := by
  rw [size_eq, resize_mChannels, ← elements_eq_wrap hsmall, resize, if_neg hchange]

/-- A wrapped size is too small for what was asked for. -/
theorem wrapped_lt (hA : Aligned B) (hsmall : 256 * stride B ≤ 2 ^ B.sizeBits)
    (hnot : ¬ SizeFits B length chan) :
    wrap B.sizeBits (chan * padded B length) < chan * length := by
  have hle : 2 ^ B.sizeBits ≤ chan * padded B length := Nat.not_lt.mp hnot
  by_cases hwide : 2 ^ B.sizeBits ≤ chan * (length : ℕ)
  · exact (wrap_lt _ _).trans_le hwide
  · -- only the padding does not fit, and that is less than what is wrapped
    have hpad : padded B length ≤ length + stride B := by
      rw [hA.padded_eq]
      exact (roundUp_lt _ hA.stride_pos).le
    have hall : chan * padded B length ≤ chan * length + chan * stride B := by
      rw [← Nat.mul_add]
      exact Nat.mul_le_mul_left _ hpad
    have hpadding : chan * stride B ≤ 255 * stride B :=
      Nat.mul_le_mul_right _ (show (chan : ℕ) ≤ 255 by omega)
    have hpos := hA.stride_pos
    rw [wrap, Nat.mod_eq_sub_mod hle, Nat.mod_eq_of_lt (by omega)]
    omega

/-! ### Sequences of `resize` -/

/-- One call of `resize`. -/
def Resizes (B : BufferType) (b : AudioBuffer B.sizeBits α)
    (call : Fin (2 ^ B.sizeBits) × Fin (2 ^ 8) × Bool) (b' : AudioBuffer B.sizeBits α) : Prop :=
  b' = b.resize B call.1 call.2.1 call.2.2

/-- The storage stays whole as long as no size is wrapped. -/
theorem whole_of_run (hA : Aligned B) {calls : List (Fin (2 ^ B.sizeBits) × Fin (2 ^ 8) × Bool)}
    (hrun : Run (Guarded (Resizes B) fun _ call => SizeFits B call.1 call.2.1)
      (initial : AudioBuffer B.sizeBits α) calls b) : b.Whole := by
  refine hrun.invariant (I := Whole) ?_ ⟨rfl, Or.inr (Nat.dvd_zero _)⟩
  rintro b ⟨length, chan, stored⟩ b' hwhole ⟨hfit, rfl⟩
  by_cases hsame : chan = b.mChannels ∧ b.size = length
  · rwa [resize_of_same hsame]
  · exact resize_whole hA hfit hsame stored

/-- **`resize`.**  A resize whose size is not wrapped lays the channels out as
promised if and only if it changes the shape or finds the storage whole; and the
storage is whole unless the size of an earlier resize was wrapped. -/
theorem resize_laidOut_iff (hA : Aligned B) (b : AudioBuffer B.sizeBits α)
    (length : Fin (2 ^ B.sizeBits)) (chan : Fin (2 ^ 8)) (hlength : 1 ≤ (length : ℕ))
    (hchan : 1 ≤ (chan : ℕ)) (hfit : SizeFits B length chan) :
    ((b.resize B length chan true).LaidOut length chan ↔
      (chan = b.mChannels ∧ b.size = length → b.Whole)) ∧
    ∀ calls, Run (Guarded (Resizes B) fun _ call => SizeFits B call.1 call.2.1) initial calls b →
      (b.resize B length chan true).LaidOut length chan := by
  have hiff : (b.resize B length chan true).LaidOut length chan ↔
      (chan = b.mChannels ∧ b.size = length → b.Whole) := by
    by_cases hsame : chan = b.mChannels ∧ b.size = length
    · rw [resize_of_same hsame]
      constructor
      · intro hlaid _
        rw [hsame.1] at hlaid
        exact hlaid.whole hA hlength
      · intro hcond
        rw [hsame.1]
        have hpos := hA.stride_pos
        exact (hcond hsame).laidOut hA hsame.2.ge (by omega)
    · exact ⟨fun _ h => absurd h hsame, fun _ => laidOut_of_reshaped hA hfit hsame hchan⟩
  exact ⟨hiff, fun calls hrun => hiff.mpr fun _ => whole_of_run hA hrun⟩

/-- Two channels of five `float`s, sixteen bytes aligned, in a new buffer. -/
theorem resize_laidOut_two_channels :
    ((initial : AudioBuffer 32 ℤ).resize ⟨32, 64, 4, 16⟩ 5 2 true).LaidOut (B := ⟨32, 64, 4, 16⟩)
      5 2 :=
  (resize_laidOut_iff (B := ⟨32, 64, 4, 16⟩) ⟨by decide, 2, rfl⟩ initial 5 2 (by decide)
    (by decide) (by decide)).2 [] (Run.nil _)

/-- Three channels of 1431655766 samples: the number of elements wraps to eight, of
which each channel gets two.  A resize to three channels of two samples then finds
its shape and returns; the second channel starts eight bytes behind the first. -/
theorem not_laidOut_after_wrap :
    let wrapped := (initial : AudioBuffer 32 ℤ).resize ⟨32, 64, 4, 16⟩ 1431655766 3 true
    ¬ (wrapped.resize ⟨32, 64, 4, 16⟩ 2 3 true).LaidOut (B := ⟨32, 64, 4, 16⟩) 2 3 := by
  intro wrapped h
  have hdvd := h.aligned 1 (by decide) 0 (by decide)
  exact absurd hdvd (by decide)

end AudioBuffer

end Tklb
