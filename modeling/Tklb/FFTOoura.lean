import Tklb.AudioBuffer.SameFrames

/-!
# `FFTOoura`

The wrapper around a real discrete Fourier transform.  The transform `rdft` works in place
on an array of `n` numbers and packs the spectrum into it: element `2 * j` is the real part
of bin `j`, element `2 * j + 1` its negated imaginary part, and element `1`, where the
imaginary part of bin `0` would be, is bin `n / 2`.  `forward` unpacks the spectrum into
two channels, `back` packs it again.  Both go through their input block by block, `n`
samples or `n / 2 + 1` bins at a time.

The model is the class for `T2 = T`: the pointers in `back` allow nothing else.  `rdft` is
a parameter, so of the tables that the constructor computes for it the contents are left
out.  The loops compare pointers for equality and may run past the end; they have fuel.
Whether there is memory for `mBuffer` is a parameter of the constructor, as it is for
`AudioBuffer.resize`.

The length of a block is `mBuffer.size()`, which has been rounded up to the alignment;
`construct_size_eq_iff` says when it is the length the constructor was asked for.

### How the model is laid out

* `takeApart` and `putTogether` are the statements that unpack and pack, with their pointers;
  `deinterleave` and `interleave` are the loops, `forwardBlock` and `backBlock` a block,
  `forward` and `back` the functions.
* Where the source compares a pointer with an end it may have passed, the loop has fuel and no
  result when it is used up; where a read leaves the input there is none either.
* `Rdft` is the transform in between, as a parameter.  `FFTOoura.RoundTrip` needs of it only
  that it is inverted, `FFTOoura.Exact` puts in the one of the class.

### What is load-bearing

Two lengths are in play: the one the tables were made for and the one that is read back from the
storage, which is what all functions use.  `TablesFor` says that they agree, which is the
precondition of everything else, and `construct_size_eq_iff` says when the constructor makes it
so.
-/

namespace Tklb

open Foundation

/-- `rdft(n, isgn, a, ip, w)`: what it leaves in the `n` elements of `a`. -/
abbrev Rdft (α : Type) := (n : ℕ) → ℤ → (Fin n → α) → Fin n → α

/-- The fields of an `FFTOoura`; of the tables, their lengths and what `makewt` and `makect`
store in `mIp[0]` and `mIp[1]`. -/
structure FFTOoura (w : ℕ) (α : Type) where
  /-- `mIp.size()` -/
  mIpSize : ℕ
  /-- `mW.size()` -/
  mWSize : ℕ
  nw : ℕ
  nc : ℕ
  mBuffer : AudioBuffer w α

namespace FFTOoura

variable {w : ℕ} {α : Type}

/-- `FFTOoura(size)`; `stored` tells whether there is memory for `mBuffer`. -/
def construct [Zero α] (B : BufferType) (size : Fin (2 ^ B.sizeBits)) (stored : Bool) :
    FFTOoura B.sizeBits α where
  mIpSize := 2 + Nat.sqrt size
  mWSize := size / 2
  nw := size / 4
  nc := size / 4
  mBuffer := AudioBuffer.initial.resizeLength B size stored

/-- `resultSize(inputLength)`, `none` if it divides by zero. -/
def resultSize (f : FFTOoura w α) (inputLength : ℕ) : Option ℕ :=
  let size := f.mBuffer.size
  let fftResultBlockSize := size / 2 + 1
  if size = 0 then none else some (wrap w (fftResultBlockSize * (inputLength / size)))

/-! ### `forward` -/

section Forward

variable [Ring α] (rdft : Rdft α)

/-- `rdft(mBuffer.size(), isgn, mBuffer[0], …)` -/
def transform (isgn : ℤ) (b : AudioBuffer w α) : AudioBuffer w α :=
  b.setChannel
    (fun i => if h : i < b.size then rdft b.size isgn (fun j => b.sample 0 j) ⟨i, h⟩ else 0)
    b.size 0 0

/-- `*(r++) = *(b++); *(i++) = -(*(b++));`, where `b` is at `p` and the state is `r`, `i` and the
memory they point into. -/
def takeApart (b : ℕ → α) (p : ℕ) (s : ℕ × ℕ × (ℕ → α)) : Option (ℕ × ℕ × (ℕ → α)) :=
  some (s.1 + 1, s.2.1 + 1,
    Function.update (Function.update s.2.2 s.1 (b p)) s.2.1 (-b (p + 1)))

/-- The loop that takes `size` samples apart. -/
def deinterleave (size : ℕ) (b : ℕ → α) (real imaginary : ℕ) (m : ℕ → α) : Option (ℕ → α) :=
  (pointerLoop size 2 (takeApart b) size 0 (real, imaginary, m)).map fun s => s.2.2

/-- What changes in the loop of `forward`; `output` is the memory of the output. -/
structure ForwardState (w : ℕ) (α : Type) where
  real : ℕ
  imaginary : ℕ
  mBuffer : AudioBuffer w α
  output : ℕ → α

/-- An iteration of the loop of `forward`, for the block of the input at `p`. -/
def forwardBlock (input : AudioBuffer w α) (p : ℕ) (s : ForwardState w α) :
    Option (ForwardState w α) :=
  let mBuffer := transform rdft 1
    (s.mBuffer.setChannel (fun i => input.cell (input.get 0 + p + i)) s.mBuffer.size 0 0)
  let sizeHalf := s.mBuffer.size / 2
  (deinterleave s.mBuffer.size (mBuffer.sample 0) s.real s.imaginary s.output).map fun m =>
    let m := Function.update m (s.real + sizeHalf) (-m s.imaginary)
    let m := Function.update m s.imaginary 0
    let m := Function.update m (s.imaginary + sizeHalf) 0
    { real := s.real + (sizeHalf + 1)
      imaginary := s.imaginary + (sizeHalf + 1)
      mBuffer := mBuffer
      output := m }

/-- `forward(input, output)`: the transform and the output afterwards; `none` if it divides
by zero or runs past the end of the input. -/
def forward (f : FFTOoura w α) (input output : AudioBuffer w α) :
    Option (FFTOoura w α × AudioBuffer w α) :=
  let size := f.mBuffer.size
  let fftResultBlockSize := size / 2 + 1
  if size = 0 then none
  else
    (pointerLoop input.mValidSize size (forwardBlock rdft input) input.mValidSize 0
      ⟨output.get 0, output.get 1, f.mBuffer, output.cell⟩).map fun s =>
      ({ f with mBuffer := s.mBuffer },
        (output.withCells s.output).setValidSize
          (wrap w (fftResultBlockSize * (input.mValidSize / size))))

end Forward

/-! ### `back` -/

section Back

variable [DivisionRing α] (rdft : Rdft α) (build : Build) (dst : ℕ)

/-- `*(b++) = *(r++); *(b++) = -(*(i++));`, where `b` is `p` samples behind the start of the
memory at `start`. -/
def putTogether (bins : ℕ → α) (start p : ℕ) (s : ℕ × ℕ × (ℕ → α)) :
    Option (ℕ × ℕ × (ℕ → α)) :=
  some (s.1 + 1, s.2.1 + 1,
    Function.update (Function.update s.2.2 (start + p) (bins s.1)) (start + (p + 1))
      (-bins s.2.1))

/-- The loop that puts `size` samples together. -/
def interleave (size : ℕ) (bins : ℕ → α) (real imaginary start : ℕ) (m : ℕ → α) :
    Option (ℕ → α) :=
  (pointerLoop size 2 (putTogether bins start) size 0 (real, imaginary, m)).map fun s => s.2.2

/-- What changes in the loop of `back`; `output` is the memory of the output. -/
structure BackState (w : ℕ) (α : Type) where
  imaginary : ℕ
  out : ℕ
  mBuffer : AudioBuffer w α
  output : ℕ → α

/-- An iteration of the loop of `back`, for the block of the input at `p`; `dst` is where the
storage of `mBuffer` starts. -/
def backBlock (input : AudioBuffer w α) (p : ℕ) (s : BackState w α) :
    Option (BackState w α) :=
  let size := s.mBuffer.size
  let real := input.get 0 + p
  (interleave size input.cell real s.imaginary (s.mBuffer.get 0) s.mBuffer.cell).bind fun m =>
    let m := Function.update m (s.mBuffer.get 0 + 1) (input.cell (real + size / 2))
    let mBuffer := transform rdft (-1) (s.mBuffer.withCells m)
    -- the result is scaled
    (mBuffer.multiplyValue build dst ((2 : ℕ) / size)).bind fun mBuffer =>
      (mBuffer.put id (fun i => s.output (s.out + i)) mBuffer.size 0 0).map fun target =>
        { imaginary := s.imaginary + (size / 2 + 1)
          out := s.out + size
          mBuffer := mBuffer
          output := fun a => if s.out ≤ a then target.2 (a - s.out) else s.output a }

/-- `back(input, output)`: the transform and the output afterwards; `none` if it runs past the
end of the input, reads what is not there, or `multiply` faults. -/
def back (f : FFTOoura w α) (input output : AudioBuffer w α) :
    Option (FFTOoura w α × AudioBuffer w α) :=
  let fftResultBlockSize := f.mBuffer.size / 2 + 1
  (pointerLoop input.mValidSize fftResultBlockSize (backBlock rdft build dst input)
    input.mValidSize 0 ⟨input.get 1, output.get 0, f.mBuffer, output.cell⟩).map fun s =>
    ({ f with mBuffer := s.mBuffer }, output.withCells s.output)

end Back

/-! ### The length of a block -/

section BlockLength

variable {B : BufferType} {size : Fin (2 ^ B.sizeBits)}

/-- The tables are the ones for a transform of `n` samples.  The sizes of both tables and the two
lengths that are stored in front are those of that number. -/
structure TablesFor (f : FFTOoura w α) (n : ℕ) : Prop where
  mIp : f.mIpSize = 2 + Nat.sqrt n
  mW : f.mWSize = n / 2
  nw : f.nw = n / 4
  nc : f.nc = n / 4

/-- The number of samples a channel is rounded up to, as `Size`. -/
def chunk (B : BufferType) : ℕ := max (wrap B.sizeBits (B.alignment / B.sizeofT)) 1

/-- What rounding up adds is never lost: it is less than a chunk, and a chunk fits `Size`. -/
theorem wrap_roundUp_eq_iff {n : ℕ} (hn : n < 2 ^ B.sizeBits) :
    wrap B.sizeBits (roundUp n (chunk B)) = n ↔ chunk B ∣ n := by
  have hpos : 0 < chunk B := lt_max_of_lt_right Nat.one_pos
  constructor
  · intro heq
    have hle := le_roundUp n hpos
    have hlt := roundUp_lt n hpos
    have hchunk : chunk B ≤ 2 ^ B.sizeBits := max_le (wrap_lt _ _).le Nat.one_le_two_pow
    have hsame : roundUp n (chunk B) = n := by
      rcases Nat.lt_or_ge (roundUp n (chunk B)) (2 ^ B.sizeBits) with hfit | hwide
      · rwa [wrap_of_lt hfit] at heq
      · -- wrapped, it would be below `n`
        rw [wrap, Nat.mod_eq_sub_mod hwide, Nat.mod_eq_of_lt (by omega)] at heq
        omega
    exact hsame ▸ dvd_roundUp n (chunk B)
  · intro hdvd
    rw [roundUp_of_dvd hdvd, wrap_of_lt hn]

variable [Zero α]

/-- A new `mBuffer` has one channel. -/
theorem construct_mBuffer_mChannels (stored : Bool) :
    (construct (α := α) B size stored).mBuffer.mChannels = 1 :=
  AudioBuffer.resize_mChannels _ _ _ _

/-- The length of this channel. -/
theorem construct_mBuffer_size (stored : Bool) :
    (construct (α := α) B size stored).mBuffer.size =
      if stored then wrap B.sizeBits (roundUp size (chunk B)) else 0 := by
  have hone : (1 : ℕ) ≠ (AudioBuffer.initial : AudioBuffer B.sizeBits α).mChannels := nofun
  have hbuffer : (construct (α := α) B size stored).mBuffer.mBufferSize =
      if stored then wrap B.sizeBits (1 * HeapBuffer.closestChunkSize B size
        (wrap B.sizeBits (B.alignment / B.sizeofT))) else 0 := by
    rw [construct, AudioBuffer.resizeLength, AudioBuffer.resize, if_neg fun h => hone h.1]
    rfl
  rw [AudioBuffer.size_eq, construct_mBuffer_mChannels, Nat.div_one, hbuffer, Nat.one_mul,
    AudioBuffer.closestChunkSize_eq_wrap size.isLt, ← chunk, wrap_of_lt (wrap_lt _ _)]

/-- **The length of a block** is the one the tables are made for exactly if there is memory for
it and it is a whole number of chunks. -/
theorem construct_size_eq_iff (hsize : 0 < (size : ℕ)) (stored : Bool) :
    (construct (α := α) B size stored).mBuffer.size = size ∧
        (construct (α := α) B size stored).TablesFor
          (construct (α := α) B size stored).mBuffer.size ↔
      stored = true ∧ chunk B ∣ size := by
  have hlength : (construct (α := α) B size stored).mBuffer.size = size ↔
      stored = true ∧ chunk B ∣ size := by
    rw [construct_mBuffer_size]
    cases stored with
    | false => exact iff_of_false (fun h => hsize.ne h) nofun
    | true =>
        rw [if_pos rfl, wrap_roundUp_eq_iff size.isLt]
        exact (and_iff_right rfl).symm
  refine ⟨fun h => hlength.mp h.1, fun h => ?_⟩
  have heq := hlength.mpr h
  rw [heq]
  exact ⟨rfl, ⟨rfl, rfl, rfl, rfl⟩⟩

/-- Blocks of 128 `double`s, sixteen bytes aligned. -/
theorem construct_size_eq_iff_128 :
    (construct (α := ℚ) ⟨32, 64, 8, 16⟩ 128 true).mBuffer.size = 128 ∧
      (construct (α := ℚ) ⟨32, 64, 8, 16⟩ 128 true).TablesFor
        (construct (α := ℚ) ⟨32, 64, 8, 16⟩ 128 true).mBuffer.size :=
  (@construct_size_eq_iff ℚ ⟨32, 64, 8, 16⟩ 128 _ (by decide) true).mpr
    ⟨rfl, by decide⟩

/-- For two `float`s a block is four samples long. -/
theorem construct_size_ne_two :
    (construct (α := ℚ) ⟨32, 64, 4, 16⟩ 2 true).mBuffer.size = 4 ∧
      ¬ (construct (α := ℚ) ⟨32, 64, 4, 16⟩ 2 true).TablesFor
        (construct (α := ℚ) ⟨32, 64, 4, 16⟩ 2 true).mBuffer.size := by
  have hsize : (construct (α := ℚ) ⟨32, 64, 4, 16⟩ 2 true).mBuffer.size = 4 := by
    rw [construct_mBuffer_size]
    decide
  rw [hsize]
  exact ⟨rfl, fun h => absurd h.mW (by decide)⟩

end BlockLength

end FFTOoura

end Tklb
