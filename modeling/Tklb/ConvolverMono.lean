import Mathlib.Algebra.Order.Floor.Div
import Mathlib.Algebra.Order.Group.Nat
import Mathlib.Algebra.Order.Ring.Abs
import Mathlib.Data.Nat.Log
import Mathlib.Tactic.Ring
import Tklb.AudioBuffer.Storage

/-!
# `ConvolverMono`

The convolver cuts an impulse response into segments of one block, keeps their spectra, and
keeps the spectra of as many blocks of the signal.  A block of output is the inverse
transform of the sum of the products; it is computed anew whenever samples arrive, also
when the block is not full yet.  `mCurrentPosition` goes backwards through the ring of
spectra, so the block before the current one is at the next index.

The model is the class for `T2 = T`, built with `TKLB_NO_SIMD`.  The transform is a
parameter.  `powerOf2` is the least power of two not below its argument, and
`mSegments.construct()` does nothing.  There is memory for every buffer, and the lengths
computed from one another (`2 * mBlockSize`, `irLength - i * mBlockSize`, …) do not leave
`Size`.  A new convolver is zeroed memory: the class initialises none of its numbers.

The loop of `process` makes progress as long as the input buffer is not full when it
starts; `processLoop` runs it with fuel and gives `none` when the fuel is used up.

### How the model is laid out

* `Fft` is what the class needs of a transform; which one it is, is an argument, and what is
  assumed of it is stated where it is used (`Fft.IsRealDft`).
* `load` and `process` follow the source statement by statement, with a local name for every
  buffer that is assigned, and the loops are `countUp` and `processLoop`.
* `silence`, the constant that `load` trims with, is an argument as well, since it is a constant
  of the sample type.

Where the source looks wrong the model does the same: `trim` starts with the index behind the
last valid sample, and the arguments of the `set` that should save the overlap are in the order of
the source.
-/

namespace Tklb

open Foundation

/-- A transform of blocks of `N` samples: to the real and imaginary parts of the bins
`0, …, N / 2`, and back. -/
structure Fft (α : Type) where
  forward : ℕ → (ℕ → α) → (ℕ → α) × (ℕ → α)
  back : ℕ → (ℕ → α) × (ℕ → α) → ℕ → α

namespace Fft

variable {w : ℕ} {α : Type}

/-- `forward(input, output)` for an input of one block. -/
def forwardInto (fft : Fft α) (N : ℕ) (input output : AudioBuffer w α) : AudioBuffer w α :=
  let spectrum := fft.forward N (input.sample 0)
  ((output.setChannel spectrum.1 (N / 2 + 1) 0 0).setChannel spectrum.2 (N / 2 + 1) 1
    0).setValidSize (N / 2 + 1)

/-- `back(input, output)` for a spectrum of one block. -/
def backInto (fft : Fft α) (N : ℕ) (input output : AudioBuffer w α) : AudioBuffer w α :=
  output.setChannel (fft.back N (input.sample 0, input.sample 1)) N 0 0

end Fft

/-- `powerOf2(b)` -/
def powerOf2 (b : ℕ) : ℕ := 2 ^ Nat.clog 2 b

/-- The fields of a `ConvolverMono`; `mComplexIr` is not used. -/
structure ConvolverMono (w : ℕ) (α : Type) where
  mBlockSize : ℕ
  mSegmentSize : ℕ
  mSegmentCount : ℕ
  mFFTComplexSize : ℕ
  mInputBufferFill : ℕ
  mCurrentPosition : ℕ
  mFFTBuffer : AudioBuffer w α
  /-- `size()` of `mSegmentsIR` and `mSegments`. -/
  segments : ℕ
  mSegmentsIR : ℕ → AudioBuffer w α
  mSegments : ℕ → AudioBuffer w α
  /-- The length `mFFT` transforms. -/
  mFFT : ℕ
  mPremultipliedBuffer : AudioBuffer w α
  mInputBuffer : AudioBuffer w α
  mConvolutionBuffer : AudioBuffer w α
  mOverlapBuffer : AudioBuffer w α

namespace ConvolverMono

/-- A new convolver. -/
def start {w : ℕ} {α : Type} [Zero α] : ConvolverMono w α where
  mBlockSize := 0
  mSegmentSize := 0
  mSegmentCount := 0
  mFFTComplexSize := 0
  mInputBufferFill := 0
  mCurrentPosition := 0
  mFFTBuffer := .initial
  segments := 0
  mSegmentsIR := fun _ => .initial
  mSegments := fun _ => .initial
  mFFT := 0
  mPremultipliedBuffer := .initial
  mInputBuffer := .initial
  mConvolutionBuffer := .initial
  mOverlapBuffer := .initial

/-! ### `load` -/

section Load

variable {α : Type} [Field α] [LinearOrder α]

/-- `silence > fabs(v)`; the constant `silence` is 0.000001, as a number of the sample type of
the response, which is nearest to that but not the same for `float` and `double`. -/
def Silent (silence v : α) : Prop := |v| < silence

instance (silence v : α) : Decidable (Silent silence v) :=
  inferInstanceAs (Decidable (|v| < silence))

/-- The loop that trims silence, from index `irLength` downwards. -/
def trim (silence : α) (ir : ℕ → α) : ℕ → ℕ
  | 0 => 0
  | irLength + 1 =>
      if Silent silence (ir (irLength + 1)) then trim silence ir irLength else irLength + 1

variable (B : BufferType) (fft : Fft α) (silence : α)

/-- A number as an argument of type `Size`. -/
def toSize (n : ℕ) : Fin (2 ^ B.sizeBits) := ⟨wrap B.sizeBits n, wrap_lt _ _⟩

/-- `resize(count)` of a `HeapBuffer` of buffers: what is new is constructed. -/
def resizeSegments (segments count : ℕ) (s : ℕ → AudioBuffer B.sizeBits α) :
    ℕ → AudioBuffer B.sizeBits α :=
  fun i => if i < min segments count then s i else .initial

/-- One iteration of the loop of `load` over the segments. -/
def loadSegment (ir : ℕ → α) (irLength i : ℕ) (c : ConvolverMono B.sizeBits α) :
    ConvolverMono B.sizeBits α :=
  let remaining := min (irLength - i * c.mBlockSize) c.mBlockSize
  let mFFTBuffer := (c.mFFTBuffer.setValue 0 0 0).setChannel
    (fun j => ir (i * c.mBlockSize + j)) remaining 0 0
  let result := (c.mSegmentsIR i).resize B (toSize B c.mFFTComplexSize) 2 true
  { c with
    mFFTBuffer := mFFTBuffer
    mSegmentsIR := Function.update c.mSegmentsIR i (fft.forwardInto c.mFFT mFFTBuffer result)
    mSegments := Function.update c.mSegments i
      ((c.mSegments i).resize B (toSize B c.mFFTComplexSize) 2 true) }

/-- `load(buffer, blockSize, channel)` -/
def load (c : ConvolverMono B.sizeBits α) (buffer : AudioBuffer B.sizeBits α)
    (blockSize channel : ℕ) : ConvolverMono B.sizeBits α :=
  let ir := buffer.sample channel
  -- the sample behind the valid ones is looked at as well
  let irLength := trim silence ir buffer.mValidSize
  if irLength = 0 then c
  else
    let irLength := irLength + 1
    let mBlockSize := powerOf2 blockSize
    let mSegmentSize := 2 * mBlockSize
    let mSegmentCount := irLength ⌈/⌉ mBlockSize
    let mFFTComplexSize := mBlockSize + 1
    let c := countUp mSegmentCount (loadSegment B fft ir irLength)
      { c with
        mBlockSize := mBlockSize
        mSegmentSize := mSegmentSize
        mSegmentCount := mSegmentCount
        mFFTComplexSize := mFFTComplexSize
        mFFT := mSegmentSize
        mFFTBuffer := c.mFFTBuffer.resizeLength B (toSize B mSegmentSize) true
        segments := mSegmentCount
        mSegments := resizeSegments B c.segments mSegmentCount c.mSegments
        mSegmentsIR := resizeSegments B c.segments mSegmentCount c.mSegmentsIR }
    { c with
      mPremultipliedBuffer :=
        c.mPremultipliedBuffer.resize B (toSize B mFFTComplexSize) 2 true
      mConvolutionBuffer := c.mConvolutionBuffer.resize B (toSize B mFFTComplexSize) 2 true
      mOverlapBuffer := c.mOverlapBuffer.resizeLength B (toSize B mBlockSize) true
      mInputBuffer := c.mInputBuffer.resizeLength B (toSize B mBlockSize) true
      mCurrentPosition := 0
      mInputBufferFill := 0 }

end Load

/-! ### `process` -/

section Process

variable {w : ℕ} {α : Type} [CommRing α]

/-- One iteration of the loop of `complexMultiply`. -/
def multiplyBin (out a b : AudioBuffer w α) (i : ℕ) (m : ℕ → α) : ℕ → α :=
  let m := Function.update m (out.get 0 + i)
    (m (out.get 0 + i) + (a.sample 0 i * b.sample 0 i - a.sample 1 i * b.sample 1 i))
  Function.update m (out.get 1 + i)
    (m (out.get 1 + i) + (a.sample 0 i * b.sample 1 i + a.sample 1 i * b.sample 0 i))

/-- `complexMultiply(bufferOut, bufferA, bufferB)` -/
def complexMultiply (out a b : AudioBuffer w α) : AudioBuffer w α :=
  out.withCells (countUp out.size (multiplyBin out a b) out.cell)

/-- The products with the blocks before the current one, `i = 1, …, mSegmentCount - 1`. -/
def premultiply (c : ConvolverMono w α) (mSegments : ℕ → AudioBuffer w α) : AudioBuffer w α :=
  countUp (c.mSegmentCount - 1)
    (fun i b => complexMultiply b (c.mSegmentsIR (i + 1))
      (mSegments ((c.mCurrentPosition + (i + 1)) % c.mSegmentCount)))
    (c.mPremultipliedBuffer.setValue 0 0 0)

variable (fft : Fft α)

/-- One iteration of the loop of `process`: `processed`, the convolver and `outBuf`
afterwards. -/
def processBlock (c : ConvolverMono w α) (inBuf outBuf : AudioBuffer w α)
    (channel length processed : ℕ) : ℕ × ConvolverMono w α × AudioBuffer w α :=
  let processing := min (length - processed) (c.mBlockSize - c.mInputBufferFill)
  let inputBufferPos := c.mInputBufferFill
  let mInputBuffer := c.mInputBuffer.setChannel
    (fun i => inBuf.sample channel (processed + i)) processing 0 inputBufferPos
  let mFFTBuffer := (c.mFFTBuffer.setBuffer mInputBuffer c.mBlockSize 0 0).setValue 0 0
    c.mBlockSize
  let mSegments := Function.update c.mSegments c.mCurrentPosition
    (fft.forwardInto c.mFFT mFFTBuffer (c.mSegments c.mCurrentPosition))
  let mPremultipliedBuffer :=
    if inputBufferPos = 0 then c.premultiply mSegments else c.mPremultipliedBuffer
  let mConvolutionBuffer :=
    complexMultiply (c.mConvolutionBuffer.setBuffer mPremultipliedBuffer 0 0 0)
      (c.mSegmentsIR 0) (mSegments c.mCurrentPosition)
  let mFFTBuffer := fft.backInto c.mFFT mConvolutionBuffer mFFTBuffer
  let outBuf := outBuf.withCells
    (modifyEach processing (fun i => outBuf.get channel + (i + processed))
      (fun i _ => mFFTBuffer.sample 0 (i + inputBufferPos) +
        c.mOverlapBuffer.sample 0 (i + inputBufferPos))
      outBuf.cell)
  let c := { c with
    mInputBuffer := mInputBuffer
    mFFTBuffer := mFFTBuffer
    mSegments := mSegments
    mPremultipliedBuffer := mPremultipliedBuffer
    mConvolutionBuffer := mConvolutionBuffer
    mInputBufferFill := inputBufferPos + processing }
  let c :=
    if c.mInputBufferFill = c.mBlockSize then
      { c with
        mInputBuffer := c.mInputBuffer.setValue 0 0 0
        mInputBufferFill := 0
        -- the third argument is the offset in the source, the fourth in the target
        mOverlapBuffer := c.mOverlapBuffer.setBuffer c.mFFTBuffer c.mBlockSize 0 c.mBlockSize
        mCurrentPosition :=
          if 0 < c.mCurrentPosition then c.mCurrentPosition - 1 else c.mSegmentCount - 1 }
    else c
  (processed + processing, c, outBuf)

/-- The loop of `process`. -/
def processLoop (inBuf : AudioBuffer w α) (channel length : ℕ) :
    ℕ → ℕ → ConvolverMono w α → AudioBuffer w α → Option (ConvolverMono w α × AudioBuffer w α)
  | fuel, processed, c, outBuf =>
      if processed < length then
        match fuel with
        | 0 => none
        | fuel + 1 =>
            let p := c.processBlock fft inBuf outBuf channel length processed
            processLoop inBuf channel length fuel p.1 p.2.1 p.2.2
      else some (c, outBuf)

/-- `process(inBuf, outBuf, channel)`; an iteration that makes progress takes at least one
sample, so the fuel is the number of samples. -/
def process (c : ConvolverMono w α) (inBuf outBuf : AudioBuffer w α) (channel : ℕ) :
    Option (ConvolverMono w α × AudioBuffer w α) :=
  if c.mSegmentCount = 0 then some (c, outBuf.setBuffer inBuf 0 0 0)
  else processLoop fft inBuf channel inBuf.mValidSize inBuf.mValidSize 0 c outBuf

end Process

end ConvolverMono

end Tklb
