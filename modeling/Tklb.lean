import Tklb.Foundation.Runs
import Tklb.Foundation.Walks
import Tklb.Foundation.Unsigned
import Tklb.Foundation.ByteMemory
import Tklb.Foundation.Extents
import Tklb.Foundation.Ledger
import Tklb.Foundation.ObjectStore
import Tklb.Foundation.Loops
import Tklb.Foundation.InPlace
import Tklb.Foundation.BitReversal
import Tklb.Foundation.Decimation
import Tklb.Foundation.FirstFew
import Tklb.Foundation.Replies
import Tklb.Foundation.BoundedQueue
import Tklb.Foundation.RealDft
import Tklb.Foundation.Congruential
import Tklb.Foundation.RecordedMemory
import Tklb.Foundation.ByteStreams
import Tklb.Foundation.Suffixes
import Tklb.Foundation.LentMemory
import Tklb.Target
import Tklb.CString
import Tklb.HandleBuffer
import Tklb.HandleBuffer.FreeList
import Tklb.HandleBuffer.Liveness
import Tklb.HandleBuffer.Generations
import Tklb.HandleBuffer.Iterate
import Tklb.HandleBuffer.Resizing
import Tklb.HandleBuffer.Bounds
import Tklb.HandleBuffer.Lifetimes
import Tklb.FixedPool
import Tklb.FixedPool.Layout
import Tklb.FixedPool.Integrity
import Tklb.FixedPool.Accounting
import Tklb.FixedPool.Contents
import Tklb.FixedPool.FirstFit
import Tklb.FixedPool.Overflow
import Tklb.FixedPool.Slivers
import Tklb.HeapBuffer
import Tklb.HeapBuffer.Allocation
import Tklb.HeapBuffer.Storage
import Tklb.HeapBuffer.Operations
import Tklb.HeapBuffer.Contents
import Tklb.HeapBuffer.Lifetime
import Tklb.HeapBuffer.Ownership
import Tklb.HeapBuffer.Sizes
import Tklb.HeapBuffer.Failure
import Tklb.HeapBuffer.Borrowing
import Tklb.HeapBuffer.Disowning
import Tklb.HeapBuffer.Alignment
import Tklb.TString
import Tklb.TString.Contents
import Tklb.TString.Comparing
import Tklb.TString.Searching
import Tklb.TString.Appending
import Tklb.TString.Concatenation
import Tklb.EventBus
import Tklb.EventBus.Firing
import Tklb.SpinLock
import Tklb.SharedPool
import Tklb.SharedPool.Simulation
import Tklb.SharedPool.Atomicity
import Tklb.SharedPool.Progress
import Tklb.AudioBuffer
import Tklb.AudioBuffer.Interleaving
import Tklb.AudioBuffer.Storage
import Tklb.AudioBuffer.Allocation
import Tklb.AudioBuffer.ValidSize
import Tklb.AudioBuffer.Setting
import Tklb.AudioBuffer.Putting
import Tklb.AudioBuffer.Mixing
import Tklb.AudioBuffer.MixedFrames
import Tklb.AudioBuffer.SameFrames
import Tklb.AudioBuffer.Cloning
import Tklb.Decoding
import Tklb.AudioRingBuffer
import Tklb.AudioRingBuffer.Fifo
import Tklb.AudioRingBuffer.PushOver
import Tklb.AudioRingBuffer.Retrieval
import Tklb.AudioRingBuffer.Counters
import Tklb.AudioRingBuffer.Offsets
import Tklb.ConvolverBrute
import Tklb.ConvolverBrute.Bounds
import Tklb.ConvolverBrute.Loading
import Tklb.Resampler
import Tklb.ResamplerHold
import Tklb.ResamplerLinear
import Tklb.ResamplerLinear.Splitting
import Tklb.ResamplerLinear.Accesses
import Tklb.ResamplerLinear.Interpolation
import Tklb.FFTOoura
import Tklb.Ooura
import Tklb.Ooura.BitReversal
import Tklb.Ooura.Tables
import Tklb.Ooura.Butterflies
import Tklb.Ooura.Complex
import Tklb.Ooura.RealTransform
import Tklb.Ooura.Reuse
import Tklb.FFTOoura.RoundTrip
import Tklb.FFTOoura.Exact
import Tklb.ConvolverMono
import Tklb.ConvolverMono.Buffers
import Tklb.ConvolverMono.Accumulating
import Tklb.ConvolverMono.Convolution
import Tklb.ConvolverMono.Processing
import Tklb.ConvolverMono.Exactness
import Tklb.Convolver
import Tklb.Random
import Tklb.Uuid
import Tklb.StringCopy
import Tklb.StackString
import Tklb.MagicBlock
import Tklb.CheckedHeap
import Tklb.DrWav
import Tklb.Wave
import Tklb.Logger
