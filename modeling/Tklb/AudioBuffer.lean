import Tklb.Foundation.Loops
import Tklb.Foundation.Unsigned
import Tklb.HeapBuffer

/-!
# `AudioBuffer`

Samples in several channels, each channel a contiguous stretch of one
`HeapBuffer`.  `mBuffer.size()` counts the samples of all channels, so a channel
has `size()` of them and channel `c` starts at `get(c)`; `mValidSize` says how
many frames of a channel are in use.

This file is the model of the class, for operations between buffers of one
sample type, which copy samples without converting or scaling them.  The storage
is the memory that starts at `mBuffer.data()`: a pointer into the buffer is an
offset, and reading or writing outside of it is reading or writing a cell that
belongs to somebody else.  Two buffers never share memory.  `channels()` and
`validSize()` are the fields `mChannels` and `mValidSize`.

Over the code stand the samples `b[c][i]` (`sample`) and the frames (`frame`),
and what `set` does to them: `sample_setBuffer` and `frame_setBuffer`.

### How the model is laid out

* `AudioBuffer` has the fields of the class, with the bounds of their types as fields of the
  structure, so a size that the class cannot have cannot be written down either.
* `size`, `get` and `sample` are computed the way the class computes them, by a division of
  the number of elements; nothing remembers the length a channel was asked to have.  That is
  why so much depends on whether the division has a remainder (`AudioBuffer.Storage`).
* `setChannel` is the function all but one of the `set` overloads come down to.  It clamps the
  length, and every other overload is a loop over channels around it.
* `resize` takes the answer of the allocator as an argument (`stored`), because the class does
  not look at it either.

The closed forms at the end of the file are what later modules use: `get_eq` and
`get_add_injective` say that the channels are disjoint stretches, `sample_modifyGrid` what a
write to all channels does to a sample, and `frame_setBuffer` what `set` does to a frame.  A
module that needs more than these should prove it from them, not from the loops.
-/

namespace Tklb

open Foundation

/-- The fields of an `AudioBuffer` whose `Size` has width `w`.  The bounds are
those of the field types; and there is no storage without a channel, so `size()`
never divides by zero. -/
structure AudioBuffer (w : ℕ) (α : Type) where
  /-- The memory at `mBuffer.data()`. -/
  cell : ℕ → α
  /-- `mBuffer.size()` -/
  mBufferSize : ℕ
  mValidSize : ℕ
  mChannels : ℕ
  buffer_lt : mBufferSize < 2 ^ w
  valid_lt : mValidSize < 2 ^ w
  channels_lt : mChannels < 2 ^ 8
  channels_ne : mBufferSize ≠ 0 → mChannels ≠ 0

namespace AudioBuffer

variable {w : ℕ} {α : Type}

/-- `size()`: the allocated length of a channel. -/
def size (b : AudioBuffer w α) : ℕ :=
  if b.mBufferSize = 0 then 0 else b.mBufferSize / b.mChannels

/-- `get(channel)`: where a channel starts. -/
def get (b : AudioBuffer w α) (channel : ℕ) : ℕ :=
  wrap w (channel * (b.mBufferSize / b.mChannels))

/-- `b[c][i]` -/
def sample (b : AudioBuffer w α) (c i : ℕ) : α := b.cell (b.get c + i)

/-- The buffer with other memory contents. -/
def withCells (b : AudioBuffer w α) (m : ℕ → α) : AudioBuffer w α := { b with cell := m }

theorem size_eq (b : AudioBuffer w α) : b.size = b.mBufferSize / b.mChannels := by
  unfold size
  by_cases h : b.mBufferSize = 0
  · rw [if_pos h, h, Nat.zero_div]
  · rw [if_neg h]

theorem size_lt (b : AudioBuffer w α) : b.size < 2 ^ w := by
  rw [size_eq]
  exact (Nat.div_le_self _ _).trans_lt b.buffer_lt

/-- `setValidSize(v)` -/
def setValidSize (b : AudioBuffer w α) (v : ℕ) : AudioBuffer w α :=
  { b with
    mValidSize := min b.size v
    valid_lt := (Nat.min_le_left _ _).trans_lt b.size_lt }

/-- `set(samples, length, channel, offsetDst)`: a single channel from an
array. -/
def setChannel (b : AudioBuffer w α) (samples : ℕ → α) (length channel offsetDst : ℕ) :
    AudioBuffer w α :=
  if b.mChannels ≤ channel then b
  else
    let length := min length (wsub w b.size offsetDst)
    b.withCells
      (modifyEach length (fun i => b.get channel + offsetDst + i) (fun i _ => samples i) b.cell)

/-- `set(buffer, length, offsetSrc, offsetDst)`: every channel from another
buffer; `length = 0` asks for all that is valid there. -/
def setBuffer (b buffer : AudioBuffer w α) (length offsetSrc offsetDst : ℕ) :
    AudioBuffer w α :=
  let length := if length = 0 then buffer.mValidSize else length
  countUp buffer.mChannels
    (fun c b =>
      b.setChannel (fun i => buffer.cell (buffer.get c + offsetSrc + i)) length c offsetDst)
    b

/-- The inner loop of `setFromInterleaved`: the samples of channel `c`.  `i`
counts the frames and `j` walks through the array. -/
def deinterleaveChannel (b : AudioBuffer w α) (samples : ℕ → α)
    (length chan offsetSrc offsetDst c : ℕ) (m : ℕ → α) : ℕ → α :=
  (countUp length
    (fun i (p : ℕ × (ℕ → α)) =>
      (wrap w (p.1 + chan),
        Function.update p.2 (b.get c + wrap w (i + offsetDst)) (samples p.1)))
    (wrap w (c + offsetSrc), m)).2

/-- `setFromInterleaved(samples, length, chan, offsetSrc, offsetDst)` -/
def setFromInterleaved (b : AudioBuffer w α) (samples : ℕ → α)
    (length chan offsetSrc offsetDst : ℕ) : AudioBuffer w α :=
  let length := min (wsub w b.size offsetDst) length
  let offsetSrc := wrap w (offsetSrc * chan)
  let cell := countUp (min chan b.mChannels)
    (b.deinterleaveChannel samples length chan offsetSrc offsetDst) b.cell
  { b.withCells cell with
    mValidSize := wrap w (offsetDst + length)
    valid_lt := wrap_lt w _ }

/-- The inner loop of `putInterleaved`: the samples of channel `c`, written with
the stride `chan`. -/
def interleaveChannel (b : AudioBuffer w α) (length chan offset c : ℕ) (m : ℕ → α) : ℕ → α :=
  (countUp length
    (fun i (p : ℕ × (ℕ → α)) =>
      (wrap w (p.1 + chan),
        Function.update p.2 p.1 (b.cell (b.get c + wrap w (i + offset)))))
    (wrap w c, m)).2

/-- `putInterleaved(buffer, length, offset, chan)`: the number of frames emitted,
and the target array. -/
def putInterleaved (b : AudioBuffer w α) (buffer : ℕ → α) (length offset chan : ℕ) :
    ℕ × (ℕ → α) :=
  let valid := b.mValidSize
  let chan := if chan = 0 then b.mChannels else min chan b.mChannels
  let length := if length = 0 then valid else length
  let length := min (wsub w valid offset) length
  let result := countUp chan
    (fun c (p : ℕ × (ℕ → α)) =>
      (wrap w (p.1 + length), b.interleaveChannel length chan offset c p.2))
    (0, buffer)
  (result.1 / b.mChannels, result.2)

/-- `set(samples, length, chan, offsetSrc, offsetDst)`: several channels from an
array of arrays. -/
def setArrays (b : AudioBuffer w α) (samples : ℕ → ℕ → α)
    (length chan offsetSrc offsetDst : ℕ) : AudioBuffer w α :=
  let chan := if chan = 0 then b.mChannels else chan
  countUp (min chan b.mChannels)
    (fun c b => b.setChannel (fun i => samples c (offsetSrc + i)) length c offsetDst) b

/-- `set(value, length, offsetDst)`: all channels to a constant. -/
def setValue (b : AudioBuffer w α) (value : α) (length offsetDst : ℕ) : AudioBuffer w α :=
  let length := min (wsub w b.size offsetDst) (if length ≠ 0 then length else b.size)
  b.withCells
    (modifyGrid b.mChannels length (fun c i => b.get c + offsetDst + i) (fun _ _ _ => value)
      b.cell)

/-! ### Storage

`mBuffer` is a `HeapBuffer`, and what `resize` needs of it is how many elements it
has in the end: all that were asked for, or none if there was no memory for them.
-/

/-- `AudioBuffer()` -/
def initial [Zero α] : AudioBuffer w α where
  cell := fun _ => 0
  mBufferSize := 0
  mValidSize := 0
  mChannels := 0
  buffer_lt := Nat.two_pow_pos w
  valid_lt := Nat.two_pow_pos w
  channels_lt := by decide
  channels_ne := fun h => absurd rfl h

section Storage

variable [Zero α] {B : BufferType}

/-- `resize(length, chan)`; `stored` tells whether `mBuffer.resize` finds memory,
its result is not looked at.  The new elements are zero.

Where the bytes of the elements are no number of `Size`, they are constructed outside of
the memory; `stored` stands for memory that is found, so it is `true` only where they are
one, and there it is what the allocator answers (`AudioBufferState.Represents.resize` and
`AudioBufferState.Represents.resize_of_fits`). -/
def resize (B : BufferType) (b : AudioBuffer B.sizeBits α) (length : Fin (2 ^ B.sizeBits))
    (chan : Fin (2 ^ 8)) (stored : Bool) : AudioBuffer B.sizeBits α :=
  if chan = b.mChannels ∧ b.size = length then b
  else
    -- each channel is padded so that the next one is aligned
    let elementAlign := HeapBuffer.closestChunkSize B length
      (wrap B.sizeBits (B.alignment / B.sizeofT))
    { cell := fun _ => 0
      mBufferSize := if stored then wrap B.sizeBits (chan * elementAlign) else 0
      mValidSize := if b.mValidSize = 0 then length else min b.mValidSize length
      mChannels := chan
      buffer_lt := by
        split
        · exact wrap_lt _ _
        · exact Nat.two_pow_pos _
      valid_lt := by
        split
        · exact length.isLt
        · exact (Nat.min_le_left _ _).trans_lt b.valid_lt
      channels_lt := chan.isLt
      channels_ne := by
        rintro hne hzero
        rw [hzero, Nat.zero_mul, wrap, Nat.zero_mod, ite_self] at hne
        exact hne rfl }

/-- `resize(length)` -/
def resizeLength (B : BufferType) (b : AudioBuffer B.sizeBits α)
    (length : Fin (2 ^ B.sizeBits)) (stored : Bool) : AudioBuffer B.sizeBits α :=
  b.resize B length ⟨max 1 b.mChannels, max_lt (by decide) b.channels_lt⟩ stored

/-- `resize(buffer)` -/
def resizeLike (B : BufferType) (b buffer : AudioBuffer B.sizeBits α) (stored : Bool) :
    AudioBuffer B.sizeBits α :=
  b.resize B ⟨buffer.size, buffer.size_lt⟩ ⟨buffer.mChannels, buffer.channels_lt⟩ stored

/-- `clone(buffer)` -/
def clone (B : BufferType) (b buffer : AudioBuffer B.sizeBits α) (stored : Bool) :
    AudioBuffer B.sizeBits α :=
  (b.resizeLike B buffer stored).setBuffer buffer 0 0 0

end Storage

/-- `inject(mem, size, chan)`; `aligned` tells whether `mem` is.  There is no
meaning for `chan = 0`, by which the source divides. -/
def inject (b : AudioBuffer w α) (mem : ℕ → α) (size : Fin (2 ^ w)) (chan : Fin (2 ^ 8))
    (aligned : Bool) : Option (AudioBuffer w α) :=
  if aligned then
    if h : (chan : ℕ) = 0 then none
    else
      some
        { cell := mem
          mBufferSize := size
          mValidSize := size / chan
          mChannels := chan
          buffer_lt := size.isLt
          valid_lt := (Nat.div_le_self _ _).trans_lt size.isLt
          channels_lt := chan.isLt
          channels_ne := fun _ => h }
  else some b

/-- `AudioBuffer(AudioBuffer&&)` and `operator=(AudioBuffer&&)`: what the target
and the source are afterwards.  The source still names the memory, but does not own
it any more. -/
def move (source : AudioBuffer w α) : AudioBuffer w α × AudioBuffer w α := (source, source)

/-! ### Where the samples are -/

/-- The channels fit into the storage. -/
theorem channels_mul_size_le (b : AudioBuffer w α) : b.mChannels * b.size ≤ b.mBufferSize := by
  rw [size_eq]
  exact Nat.mul_div_le _ _

/-- Channels are laid out one after the other. -/
theorem get_eq {b : AudioBuffer w α} {c : ℕ} (hc : c < b.mChannels) :
    b.get c = c * b.size := by
  have hle : c * b.size ≤ b.mBufferSize :=
    (Nat.mul_le_mul_right _ hc.le).trans b.channels_mul_size_le
  unfold get
  rw [← size_eq, wrap_of_lt (hle.trans_lt b.buffer_lt)]

/-- A channel lies within the storage. -/
theorem get_add_lt {b : AudioBuffer w α} {c i : ℕ} (hc : c < b.mChannels) (hi : i < b.size) :
    b.get c + i < b.mBufferSize := by
  have hrow : (c + 1) * b.size ≤ b.mChannels * b.size := Nat.mul_le_mul_right _ hc
  rw [Nat.add_mul, Nat.one_mul] at hrow
  have := b.channels_mul_size_le
  rw [get_eq hc]
  omega

/-- The samples of all channels are in different cells. -/
theorem get_add_injective {b : AudioBuffer w α} {c d i j : ℕ} (hc : c < b.mChannels)
    (hd : d < b.mChannels) (hi : i < b.size) (hj : j < b.size)
    (h : b.get c + i = b.get d + j) : c = d ∧ i = j := by
  rw [get_eq hc, get_eq hd] at h
  exact stride_injective hi hj h

/-- So are the cells of any stretch of frames. -/
theorem gridInjective_get {b : AudioBuffer w α} {offset n : ℕ} (hfit : offset + n ≤ b.size) :
    GridInjective b.mChannels n fun c i => b.get c + offset + i := by
  intro c hc i hi d hd j hj h
  simp only [Nat.add_assoc] at h
  have hsame := get_add_injective hc hd (by omega) (by omega) h
  exact ⟨hsame.1, Nat.add_left_cancel hsame.2⟩

/-! ### Memory and shape -/

section WithCells

variable (b : AudioBuffer w α) (m : ℕ → α)

@[simp] theorem withCells_cell : (b.withCells m).cell = m := rfl

@[simp] theorem withCells_mChannels : (b.withCells m).mChannels = b.mChannels := rfl

@[simp] theorem withCells_size : (b.withCells m).size = b.size := rfl

theorem withCells_sample (c i : ℕ) : (b.withCells m).sample c i = m (b.get c + i) := rfl

end WithCells

/-- Rewriting a stretch of frames, one sample after the other, in all
channels. -/
theorem sample_modifyGrid {b : AudioBuffer w α} {offset n : ℕ} {f : ℕ → ℕ → α → α}
    (hfit : offset + n ≤ b.size) {c i : ℕ} (hc : c < b.mChannels) (hi : i < b.size) :
    (b.withCells
      (modifyGrid b.mChannels n (fun c i => b.get c + offset + i) f b.cell)).sample c i =
      if offset ≤ i ∧ i < offset + n then f c (i - offset) (b.sample c i) else b.sample c i := by
  rw [withCells_sample]
  by_cases hin : offset ≤ i ∧ i < offset + n
  · obtain ⟨k, rfl⟩ := Nat.exists_eq_add_of_le hin.1
    rw [if_pos hin, Nat.add_sub_cancel_left, sample, ← Nat.add_assoc,
      modifyGrid_addr (gridInjective_get hfit) hc (by omega)]
  · rw [if_neg hin, sample]
    apply modifyGrid_of_ne
    intro d hd j hj h
    rw [Nat.add_assoc] at h
    have := get_add_injective hd hc (by omega) hi h
    omega

/-! ### Writing to a channel, and to all of them -/

section SetChannel

variable {b : AudioBuffer w α} {s : ℕ → α} {length channel offsetDst : ℕ}

theorem setChannel_eq (hchan : channel < b.mChannels) (hfit : offsetDst + length ≤ b.size) :
    b.setChannel s length channel offsetDst =
      b.withCells (modifyEach length (fun i => b.get channel + offsetDst + i) (fun i _ => s i)
        b.cell) := by
  have hroom : min length (wsub w b.size offsetDst) = length := by
    rw [wsub_of_le b.size_lt (by omega)]
    exact Nat.min_eq_left (by omega)
  rw [setChannel, if_neg (Nat.not_le.mpr hchan), hroom]

/-- What `set` of a single channel does to the samples. -/
theorem sample_setChannel (hchan : channel < b.mChannels) (hfit : offsetDst + length ≤ b.size)
    {c i : ℕ} (hc : c < b.mChannels) (hi : i < b.size) :
    (b.setChannel s length channel offsetDst).sample c i =
      if c = channel ∧ offsetDst ≤ i ∧ i < offsetDst + length then s (i - offsetDst)
      else b.sample c i := by
  rw [setChannel_eq hchan hfit, withCells_sample]
  by_cases hin : c = channel ∧ offsetDst ≤ i ∧ i < offsetDst + length
  · obtain ⟨rfl, hlo, hhi⟩ := hin
    obtain ⟨k, rfl⟩ := Nat.exists_eq_add_of_le hlo
    rw [if_pos ⟨rfl, hlo, hhi⟩, ← Nat.add_assoc, Nat.add_sub_cancel_left]
    exact modifyEach_addr (fun _ _ _ _ h => by omega) (by omega)
  · rw [if_neg hin, sample]
    refine modifyEach_of_ne fun j hj h => hin ?_
    rw [Nat.add_assoc] at h
    have := get_add_injective hchan hc (by omega) hi h
    omega

/-- What does not fit behind `offsetDst` is dropped. -/
theorem setChannel_clip (s : ℕ → α) (length channel : ℕ) (hle : offsetDst ≤ b.size) :
    b.setChannel s length channel offsetDst =
      b.setChannel s (min length (b.size - offsetDst)) channel offsetDst := by
  simp only [setChannel, wsub_of_le b.size_lt hle, Nat.min_assoc, Nat.min_self]

theorem exists_setChannel_eq_withCells (b : AudioBuffer w α) (s : ℕ → α)
    (length channel offsetDst : ℕ) :
    ∃ m, b.setChannel s length channel offsetDst = b.withCells m := by
  unfold setChannel
  split
  · exact ⟨b.cell, rfl⟩
  · exact ⟨_, rfl⟩

/-- What `set` to a constant from some frame on does to the samples. -/
theorem sample_setValue {v : α} (hle : offsetDst ≤ b.size) {c i : ℕ} (hc : c < b.mChannels)
    (hi : i < b.size) :
    (b.setValue v 0 offsetDst).sample c i = if offsetDst ≤ i then v else b.sample c i := by
  have hlength : min (wsub w b.size offsetDst) (if (0 : ℕ) ≠ 0 then 0 else b.size) =
      b.size - offsetDst := by
    rw [wsub_of_le b.size_lt hle, if_neg (not_not.mpr rfl)]
    exact Nat.min_eq_left (Nat.sub_le _ _)
  rw [setValue, hlength, sample_modifyGrid (by omega) hc hi]
  by_cases hin : offsetDst ≤ i
  · rw [if_pos hin, if_pos ⟨hin, by omega⟩]
  · rw [if_neg hin, if_neg fun h => hin h.1]

end SetChannel

/-! ### Copying from another buffer -/

section SetBuffer

variable {b buffer : AudioBuffer w α} {length offsetSrc offsetDst : ℕ}

/-- `set` changes nothing but memory contents. -/
theorem exists_setBuffer_eq_withCells (b buffer : AudioBuffer w α)
    (length offsetSrc offsetDst : ℕ) :
    ∃ m, b.setBuffer buffer length offsetSrc offsetDst = b.withCells m := by
  unfold setBuffer
  refine countUp_invariant (fun _ d => ∃ m, d = b.withCells m) ⟨b.cell, rfl⟩ ?_
  rintro c - d ⟨m, rfl⟩
  unfold setChannel
  split
  · exact ⟨m, rfl⟩
  · exact ⟨_, rfl⟩

@[simp] theorem setBuffer_size :
    (b.setBuffer buffer length offsetSrc offsetDst).size = b.size := by
  obtain ⟨m, hm⟩ := exists_setBuffer_eq_withCells b buffer length offsetSrc offsetDst
  rw [hm, withCells_size]

@[simp] theorem setBuffer_mChannels :
    (b.setBuffer buffer length offsetSrc offsetDst).mChannels = b.mChannels := by
  obtain ⟨m, hm⟩ := exists_setBuffer_eq_withCells b buffer length offsetSrc offsetDst
  rw [hm, withCells_mChannels]

/-- `set` from a buffer with as many channels, when the target has room for what
is asked for. -/
theorem setBuffer_eq (hlength : length ≠ 0) (hch : buffer.mChannels = b.mChannels)
    (hfit : offsetDst + length ≤ b.size) :
    b.setBuffer buffer length offsetSrc offsetDst =
      b.withCells
        (modifyGrid b.mChannels length (fun c i => b.get c + offsetDst + i)
          (fun c i _ => buffer.cell (buffer.get c + offsetSrc + i)) b.cell) := by
  have hroom : min length (wsub w b.size offsetDst) = length := by
    rw [wsub_of_le b.size_lt (by omega)]
    exact Nat.min_eq_left (by omega)
  unfold setBuffer modifyGrid
  rw [if_neg hlength, hch]
  apply countUp_hom b.withCells
  intro c hc m
  unfold setChannel
  rw [withCells_mChannels, if_neg (Nat.not_le.mpr hc), withCells_size, hroom]
  rfl

/-- `set` without a length copies what is valid. -/
theorem setBuffer_zero (b buffer : AudioBuffer w α) (offsetSrc offsetDst : ℕ) :
    b.setBuffer buffer 0 offsetSrc offsetDst =
      b.setBuffer buffer buffer.mValidSize offsetSrc offsetDst := by
  unfold setBuffer
  rw [if_pos rfl, ite_eq_right_iff.mpr fun _ => rfl]

/-- What `set` from a buffer does to the samples. -/
theorem sample_setBuffer (hlength : length ≠ 0) (hch : buffer.mChannels = b.mChannels)
    (hfit : offsetDst + length ≤ b.size) {c i : ℕ} (hc : c < b.mChannels) (hi : i < b.size) :
    (b.setBuffer buffer length offsetSrc offsetDst).sample c i =
      if offsetDst ≤ i ∧ i < offsetDst + length then
        buffer.sample c (offsetSrc + (i - offsetDst))
      else b.sample c i := by
  rw [setBuffer_eq hlength hch hfit, sample_modifyGrid hfit hc hi, Nat.add_assoc]
  rfl

end SetBuffer

/-! ### Frames -/

/-- The samples of all channels at one instant. -/
def frame (b : AudioBuffer w α) (i : ℕ) : List α :=
  (List.range b.mChannels).map fun c => b.sample c i

/-- `n` frames in a row. -/
def frames (b : AudioBuffer w α) (offset n : ℕ) : List (List α) :=
  (List.range n).map fun i => b.frame (offset + i)

/-- Frames are equal when they are equal in every channel. -/
theorem frame_congr {b d : AudioBuffer w α} {i j : ℕ} (hch : b.mChannels = d.mChannels)
    (h : ∀ c < b.mChannels, b.sample c i = d.sample c j) : b.frame i = d.frame j := by
  unfold frame
  rw [← hch]
  apply List.map_congr_left
  intro c hc
  exact h c (List.mem_range.mp hc)

/-- What `set` from a buffer does to the frames. -/
theorem frame_setBuffer {b buffer : AudioBuffer w α} {length offsetSrc offsetDst : ℕ}
    (hlength : length ≠ 0) (hch : buffer.mChannels = b.mChannels)
    (hfit : offsetDst + length ≤ b.size) {i : ℕ} (hi : i < b.size) :
    (b.setBuffer buffer length offsetSrc offsetDst).frame i =
      if offsetDst ≤ i ∧ i < offsetDst + length then
        buffer.frame (offsetSrc + (i - offsetDst))
      else b.frame i := by
  by_cases hin : offsetDst ≤ i ∧ i < offsetDst + length
  · rw [if_pos hin]
    apply frame_congr (setBuffer_mChannels.trans hch.symm)
    intro c hc
    rw [setBuffer_mChannels] at hc
    rw [sample_setBuffer hlength hch hfit hc hi, if_pos hin]
  · rw [if_neg hin]
    apply frame_congr setBuffer_mChannels
    intro c hc
    rw [setBuffer_mChannels] at hc
    rw [sample_setBuffer hlength hch hfit hc hi, if_neg hin]

/-! ### One channel -/

/-- A buffer of one channel. -/
def mono (cell : ℕ → α) (length : Fin (2 ^ w)) : AudioBuffer w α where
  cell := cell
  mBufferSize := length
  mValidSize := length
  mChannels := 1
  buffer_lt := length.isLt
  valid_lt := length.isLt
  channels_lt := by decide
  channels_ne := fun _ => Nat.one_ne_zero

theorem sample_mono (cell : ℕ → α) (length : Fin (2 ^ w)) :
    (mono cell length).sample 0 = cell := by
  funext i
  have hchannel : 0 < (mono cell length).mChannels := Nat.one_pos
  rw [sample, get_eq hchannel, Nat.zero_mul, Nat.zero_add]
  rfl

theorem size_mono (cell : ℕ → α) (length : Fin (2 ^ w)) : (mono cell length).size = length := by
  rw [size_eq]
  exact Nat.div_one _

end AudioBuffer

end Tklb
