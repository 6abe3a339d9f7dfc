import Tklb.AudioBuffer.Storage
import Tklb.HeapBuffer.Sizes

/-!
# The result of `resize`

`resize` of an `AudioBuffer` returns `true`, whatever its two calls of `mBuffer.resize`
return.  Here the buffer stands on its `HeapBuffer` and its heap, so the allocator may
refuse, and the sizes that are computed on the way may be wrapped.

Three sizes are: the length rounded up to the alignment and multiplied by the number of
channels, this rounded up to whole chunks, and the bytes of these.  If the first is
wrapped, the storage is too small for what was asked for (`wrapped_lt`); if one of the
others is, elements are constructed where there is no memory for them, and the call
fails here.  `resize_tells_iff` says when the result is right.

### The two models of an `AudioBuffer`

`AudioBuffer` is the model of the samples and knows of its storage only whether it was
found (`stored`), `AudioBufferState` is the one of the storage and knows nothing of the
samples.  They have the same fields after every `resize` (`Represents.resize`), and they
agree about the memory: `stored` is `true` only if the bytes of all elements are a number
of `Size`, and then it is the answer of the allocator (`Represents.resize_of_fits`).  This
is what the results about `AudioBuffer` mean by storage that is found, those about `clone`,
about the constructor of the transform, the decoders and the convolvers included, which
all make their buffers with `resize`.
-/

namespace Tklb

open Foundation BufferState

variable {T : Type} {B : BufferType}

namespace BufferState

/-- All elements are in the block, which was allocated with enough bytes.  It is asked of the bytes
and not of the capacity, since the capacity is what the code believes. -/
def InMemory (B : BufferType) (s : BufferState T) : Prop :=
  s.buffer.mSize ≤ s.buffer.mRealSize ∧
    (s.buffer.mRealSize = 0 ∨
      s.buffer.mBuf.any fun b => s.buffer.mRealSize * B.sizeofT + B.alignment ≤ s.heap.bytes b)

instance (B : BufferType) (s : BufferState T) : Decidable (s.InMemory B) :=
  inferInstanceAs (Decidable (_ ∧ _))

theorem sized_iff_inMemory {s : BufferState T} {n : ℕ} (hsize : s.buffer.mSize = n) :
    s.Sized B n ↔ s.InMemory B := by
  have hblock : s.BlockFits B ↔ (s.buffer.mRealSize = 0 ∨
      s.buffer.mBuf.any fun b =>
        s.buffer.mRealSize * B.sizeofT + B.alignment ≤ s.heap.bytes b) := by
    rw [BlockFits, ← or_iff_not_imp_left, Option.any_eq_true]
    simp only [decide_eq_true_eq]
  exact ⟨fun h => ⟨h.room, hblock.mp h.block⟩, fun h => ⟨hblock.mpr h.2, h.1, hsize⟩⟩

end BufferState

/-- An `AudioBuffer` on its heap.  The storage is a `HeapBuffer` in the state it has there, so what
the allocator answers decides what a resize does to the buffer. -/
structure AudioBufferState (T : Type) where
  mBuffer : BufferState T
  mValidSize : ℕ
  mChannels : ℕ

namespace AudioBufferState

/-- `size()` -/
def size (s : AudioBufferState T) : ℕ :=
  if s.mBuffer.buffer.empty then 0 else s.mBuffer.buffer.mSize / s.mChannels

theorem size_eq (s : AudioBufferState T) : s.size = s.mBuffer.buffer.mSize / s.mChannels := by
  unfold size HeapBuffer.empty
  by_cases hzero : s.mBuffer.buffer.mSize = 0
  · rw [hzero, Nat.zero_div, ite_self]
  · rw [if_neg (by simpa using hzero)]

/-- `resize(length, chan)`, `none` if an element is constructed where there is no memory
for it. -/
def resize [Inhabited T] (B : BufferType) (s : AudioBufferState T) (length chan : ℕ) :
    Option (Bool × AudioBufferState T) :=
  if chan = s.mChannels ∧ s.size = length then some (true, s)
  else
    -- each channel is padded so that the next one is aligned
    let elementAlign := HeapBuffer.closestChunkSize B length
      (wrap B.sizeBits (B.alignment / B.sizeofT))
    let emptied := (s.mBuffer.resize B 0 true).2
    let (ok, mBuffer) := emptied.resize B (wrap B.sizeBits (chan * elementAlign)) true
    if ok ∧ ¬ mBuffer.InMemory B then none
    else
      some
        (true,
          { mBuffer := mBuffer
            mChannels := chan
            mValidSize := if s.mValidSize = 0 then length else min s.mValidSize length })

/-- **The result of `resize` is right**: it is `true` if and only if the buffer has the
channels and the size it was asked for, and with `false` it has no size and nothing is
valid. -/
def Tells [Inhabited T] (B : BufferType) (s : AudioBufferState T) (length chan : ℕ) : Prop :=
  ∃ ok t, s.resize B length chan = some (ok, t) ∧
    (ok = true ↔ t.mChannels = chan ∧ length ≤ t.size) ∧
    (ok = false → t.size = 0 ∧ t.mValidSize = 0)

variable [Inhabited T] {s : AudioBufferState T}

/-! ### The storage -/

section Emptied

variable {e t : BufferState T} {n : ℕ} {ok : Bool} (h : e.resize B n true = (ok, t))
include h

/-- An empty storage gets its elements or, after a request that was refused, none. -/
theorem emptied_mSize (hsize : e.buffer.mSize = 0) : t.buffer.mSize = if ok then n else 0 := by
  cases ok with
  | true => rcases resize_true h with ⟨-, s₂, -, rfl⟩ | ⟨-, rfl⟩ <;> rw [extend_buffer, if_pos rfl]
  | false =>
      obtain ⟨-, hcall⟩ := resize_false h
      rw [allocate_false hcall, if_neg Bool.false_ne_true]
      exact (congrArg HeapBuffer.mSize (truncate_buffer n)).trans hsize

/-- They are in its memory if and only if no size was wrapped. -/
theorem emptied_inMemory_iff (hn : n < 2 ^ B.sizeBits) (hsize : e.buffer.mSize = 0)
    (hreal : e.buffer.mRealSize = 0) (hok : ok = true) :
    t.InMemory B ↔ BufferState.RoundFits B n := by
  subst hok
  have hall : t.buffer.mSize = n := emptied_mSize h hsize
  have hfits := resize_sized_iff (by omega) hn h
  rw [sized_iff_inMemory hall, ResizeFits] at hfits
  rw [hfits]
  split
  · rename_i hkeeps
    -- nothing is kept but nothing
    obtain rfl : n = 0 := by
      have := hkeeps.1
      omega
    refine ⟨fun _ => ⟨hn, fun hzero => absurd hzero (lt_irrefl 0)⟩, fun _ hne => ?_⟩
    exact absurd hreal hne
  · exact Iff.rfl

/-- The allocator is asked for elements that fit. -/
theorem emptied_granted (hreal : e.buffer.mRealSize = 0) (hpos : 0 < n)
    (hround : BufferState.RoundFits B n) : ok = e.heap.grants e.heap.requests := by
  have hchunk := closestChunkSize_eq hround
  have hpositive : 0 < HeapBuffer.closestChunkSize B n HeapBuffer.chunkSize := by omega
  have hreallocates : Reallocates B e.buffer n true := Or.inl (by omega)
  obtain ⟨X, htruncate⟩ := truncate_heap (s := e) n
  have hallocator : (e.truncate n).heap.grants (e.truncate n).heap.requests =
      e.heap.grants e.heap.requests := by rw [htruncate]
  rw [resize_eq, if_pos hreallocates] at h
  cases hgrant : e.heap.grants e.heap.requests with
  | false =>
      rw [allocate_refused hpositive (hallocator.trans hgrant)] at h
      exact (Prod.mk.inj h).1.symm
  | true =>
      obtain ⟨t', hcall, -⟩ := allocate_exchanges (B := B) hpositive (hallocator.trans hgrant)
      rw [hcall] at h
      exact (Prod.mk.inj h).1.symm

end Emptied

/-- **The two calls of `mBuffer.resize`.**  The storage has all elements or none, as the
allocator decides where no size was wrapped. -/
theorem resize_storage {r : BufferState T} {n : ℕ} (hn : n < 2 ^ B.sizeBits)
    {ok : Bool} {t : BufferState T} (h : (r.resize B 0 true).2.resize B n true = (ok, t)) :
    t.buffer.mSize = (if ok then n else 0) ∧
      (ok = true → (t.InMemory B ↔ BufferState.RoundFits B n)) ∧
      (0 < n → BufferState.RoundFits B n → ok = r.heap.grants r.heap.requests) := by
  obtain ⟨e, hempty, hbuffer, -⟩ := resize_zero_eq B r
  obtain ⟨hrequests, hgrants⟩ := resize_zero_requests B r
  rw [hempty] at h hrequests hgrants
  have hsize : e.buffer.mSize = 0 := by rw [hbuffer]
  have hreal : e.buffer.mRealSize = 0 := by rw [hbuffer]
  rw [← hrequests, ← hgrants]
  exact ⟨emptied_mSize h hsize, emptied_inMemory_iff h hn hsize hreal, emptied_granted h hreal⟩

/-! ### The result -/

section Result

variable {length : Fin (2 ^ B.sizeBits)} {chan : Fin (2 ^ 8)}

/-- A buffer that has the shape already is not touched. -/
theorem resize_of_same (h : (chan : ℕ) = s.mChannels ∧ s.size = length) :
    s.resize B length chan = some (true, s) :=
  if_pos h

/-- A resize that changes the shape: the storage gets its elements, or none. -/
theorem resize_of_change (hchange : ¬ ((chan : ℕ) = s.mChannels ∧ s.size = length)) {n : ℕ}
    (hn : wrap B.sizeBits (chan * HeapBuffer.closestChunkSize B length
      (wrap B.sizeBits (B.alignment / B.sizeofT))) = n) :
    ∃ (granted : Bool) (storage : BufferState T),
      s.resize B length chan =
        (if granted = true ∧ ¬ storage.InMemory B then none
        else some (true, ⟨storage,
          if s.mValidSize = 0 then (length : ℕ) else min s.mValidSize length, chan⟩)) ∧
      storage.buffer.mSize = (if granted then n else 0) ∧
      (granted = true → (storage.InMemory B ↔ BufferState.RoundFits B n)) ∧
      (0 < n → BufferState.RoundFits B n →
        granted = s.mBuffer.heap.grants s.mBuffer.heap.requests) := by
  rcases hcall : (s.mBuffer.resize B 0 true).2.resize B n true with ⟨granted, storage⟩
  refine ⟨granted, storage, ?_, resize_storage (hn ▸ wrap_lt _ _) hcall⟩
  rw [resize, if_neg hchange]
  dsimp only
  rw [hn, hcall]

/-- `b` has the fields of `s`, whatever is in its memory.  The other files work with `b`, in which a
resize that fails has no cause; this is what ties the two together. -/
structure Represents [Zero T] (s : AudioBufferState T) (b : AudioBuffer B.sizeBits T) : Prop where
  buffer : b.mBufferSize = s.mBuffer.buffer.mSize
  valid : b.mValidSize = s.mValidSize
  channels : b.mChannels = s.mChannels

/-- The elements a resize that changes the shape asks its storage for. -/
def elements (B : BufferType) (length chan : ℕ) : ℕ :=
  wrap B.sizeBits (chan * HeapBuffer.closestChunkSize B length
    (wrap B.sizeBits (B.alignment / B.sizeofT)))

omit [Inhabited T] in
/-- The fields after a resize that changes the shape. -/
theorem Represents.reshape [Zero T] {b : AudioBuffer B.sizeBits T} (h : s.Represents b)
    (hchange : ¬ ((chan : ℕ) = s.mChannels ∧ s.size = length)) {stored : Bool}
    {storage : BufferState T}
    (hstorage : storage.buffer.mSize = if stored then elements B length chan else 0) :
    Represents ⟨storage, if s.mValidSize = 0 then (length : ℕ) else min s.mValidSize length, chan⟩
      (b.resize B length chan stored) := by
  have hsize : b.size = s.size := by
    rw [size_eq, AudioBuffer.size_eq, h.buffer, h.channels]
  have hchange' : ¬ ((chan : ℕ) = b.mChannels ∧ b.size = length) := by
    rwa [h.channels, hsize]
  rw [AudioBuffer.resize, if_neg hchange']
  refine ⟨hstorage.symm, ?_, rfl⟩
  dsimp only
  rw [h.valid]

omit [Inhabited T] in
/-- A resize to the shape there is already keeps them. -/
theorem Represents.resize_of_same [Zero T] {b : AudioBuffer B.sizeBits T} (h : s.Represents b)
    (hsame : (chan : ℕ) = s.mChannels ∧ s.size = length) (stored : Bool) :
    s.Represents (b.resize B length chan stored) := by
  have hsize : b.size = s.size := by
    rw [size_eq, AudioBuffer.size_eq, h.buffer, h.channels]
  rwa [AudioBuffer.resize_of_same ⟨hsame.1.trans h.channels.symm, hsize.trans hsame.2⟩]

/-- **`resize` of the two models.**  Where no element is constructed outside of the memory,
the storage was found or it was not, and the fields are those of `AudioBuffer.resize`.  It was
found only if the bytes of its elements are a number of `Size`. -/
theorem Represents.resize [Zero T] {b : AudioBuffer B.sizeBits T} (h : s.Represents b)
    {ok : Bool} {t : AudioBufferState T} (hcall : s.resize B length chan = some (ok, t)) :
    ∃ stored, (stored = true → BufferState.RoundFits B (elements B length chan)) ∧
      t.Represents (b.resize B length chan stored) := by
  by_cases hsame : (chan : ℕ) = s.mChannels ∧ s.size = length
  · rw [AudioBufferState.resize_of_same hsame] at hcall
    obtain ⟨-, rfl⟩ := Prod.mk.inj (Option.some.inj hcall)
    exact ⟨false, fun hfound => absurd hfound Bool.false_ne_true, h.resize_of_same hsame false⟩
  · obtain ⟨granted, storage, hresult, hstorage, hmemory, -⟩ := resize_of_change hsame rfl
    rw [hresult] at hcall
    split at hcall
    · cases hcall
    rename_i hinside
    obtain ⟨-, rfl⟩ := Prod.mk.inj (Option.some.inj hcall)
    refine ⟨granted, fun hfound => (hmemory hfound).mp ?_, h.reshape hsame hstorage⟩
    exact not_not.mp fun hnot => hinside ⟨hfound, hnot⟩

/-- If they are one, the allocator is asked for them, and decides. -/
theorem Represents.resize_of_fits [Zero T] {b : AudioBuffer B.sizeBits T} (h : s.Represents b)
    (hfits : BufferState.RoundFits B (elements B length chan)) :
    ∃ t, s.resize B length chan = some (true, t) ∧ t.Represents
      (b.resize B length chan (s.mBuffer.heap.grants s.mBuffer.heap.requests)) := by
  by_cases hsame : (chan : ℕ) = s.mChannels ∧ s.size = length
  · exact ⟨s, AudioBufferState.resize_of_same hsame, h.resize_of_same hsame _⟩
  · obtain ⟨granted, storage, hresult, hstorage, hmemory, hgranted⟩ := resize_of_change hsame rfl
    have hinside : ¬ (granted = true ∧ ¬ storage.InMemory B) :=
      fun hnot => hnot.2 ((hmemory hnot.1).mpr hfits)
    refine ⟨_, hresult.trans (if_neg hinside), h.reshape hsame ?_⟩
    rcases Nat.eq_zero_or_pos (elements B length chan) with hzero | hpos
    · -- nothing is asked for
      rw [hstorage]
      exact (ite_eq_right_iff.mpr fun _ => hzero).trans
        (ite_eq_right_iff.mpr fun _ => hzero).symm
    · rw [← hgranted hpos hfits]
      exact hstorage

end Result

/-- **`resize`.**  For every state of the buffer, every length and number of channels and
every answer of the allocator, the result is right if and only if the buffer has the shape
already, or no size is wrapped and the allocator meets the request. -/
theorem resize_tells_iff (hA : AudioBuffer.Aligned B)
    (hsmall : 256 * AudioBuffer.stride B ≤ 2 ^ B.sizeBits) (s : AudioBufferState T)
    (length : Fin (2 ^ B.sizeBits)) (chan : Fin (2 ^ 8)) (hlength : 1 ≤ (length : ℕ))
    (hchan : 1 ≤ (chan : ℕ)) :
    s.Tells B length chan ↔
      ((chan : ℕ) = s.mChannels ∧ s.size = length) ∨
        AudioBuffer.SizeFits B length chan ∧
          BufferState.RoundFits B (chan * AudioBuffer.padded B length) ∧
          s.mBuffer.heap.grants s.mBuffer.heap.requests = true := by
  by_cases hsame : (chan : ℕ) = s.mChannels ∧ s.size = length
  · refine iff_of_true ⟨true, s, resize_of_same hsame, ?_, fun h => by cases h⟩ (Or.inl hsame)
    exact ⟨fun _ => ⟨hsame.1.symm, hsame.2.ge⟩, fun _ => rfl⟩
  rw [or_iff_right hsame]
  obtain ⟨granted, storage, hcall, hsize, hmemory, hgranted⟩ :=
    resize_of_change hsame (AudioBuffer.elements_eq_wrap hsmall)
  constructor
  · rintro ⟨ok, t, hresult, htrue, -⟩
    rw [hcall] at hresult
    split at hresult
    · cases hresult
    rename_i hinside
    obtain ⟨rfl, rfl⟩ := Prod.mk.inj (Option.some.inj hresult)
    have hle := (htrue.mp rfl).2
    rw [size_eq, Nat.le_div_iff_mul_le hchan, Nat.mul_comm] at hle
    -- something was asked for, so there is storage
    have hlarge : 0 < chan * (length : ℕ) := Nat.mul_pos hchan hlength
    dsimp only at hle
    cases granted with
    | false =>
        rw [if_neg Bool.false_ne_true] at hsize
        omega
    | true =>
        rw [if_pos rfl] at hsize
        have hfit : AudioBuffer.SizeFits B length chan := by
          by_contra hnot
          have := AudioBuffer.wrapped_lt hA hsmall hnot
          omega
        rw [wrap_of_lt hfit] at hsize hmemory hgranted
        have hround := (hmemory rfl).mp (by simpa using hinside)
        exact ⟨hfit, hround, (hgranted (by omega) hround).symm⟩
  · rintro ⟨hfit, hround, hgrant⟩
    have hle := AudioBuffer.le_padded B length
    rw [wrap_of_lt hfit] at hsize hmemory hgranted
    have hmet : granted = true :=
      (hgranted (Nat.mul_pos hchan (by omega)) hround).trans hgrant
    rw [if_pos hmet] at hsize
    rw [if_neg fun h => h.2 ((hmemory hmet).mpr hround)] at hcall
    refine ⟨true, _, hcall, ⟨fun _ => ⟨rfl, ?_⟩, fun _ => rfl⟩, fun h => by cases h⟩
    rw [size_eq, hsize, Nat.mul_div_cancel_left _ hchan]
    exact hle

/-- Two channels of five `float`s in a new buffer. -/
theorem resize_tells_two_channels :
    (⟨⟨.initial fun _ => true, .initial⟩, 0, 0⟩ : AudioBufferState ℤ).Tells ⟨32, 64, 4, 16⟩ 5 2 :=
  (resize_tells_iff (B := ⟨32, 64, 4, 16⟩) ⟨by decide, 2, rfl⟩ (by decide) _ 5 2 (by decide)
    (by decide)).mpr (Or.inr ⟨by decide, ⟨by decide, fun _ => by decide⟩, rfl⟩)

/-- There is no memory for five `float`s, and the number of elements of three channels of
1431655766 samples wraps to eight: the result is `true`, and the size 0 and 2. -/
theorem not_resize_tells :
    ¬ (⟨⟨.initial fun _ => false, .initial⟩, 0, 0⟩ : AudioBufferState ℤ).Tells
        ⟨32, 64, 4, 16⟩ 5 1 ∧
      ¬ (⟨⟨.initial fun _ => true, .initial⟩, 0, 0⟩ : AudioBufferState ℤ).Tells
        ⟨32, 64, 4, 16⟩ 1431655766 3 := by
  have hfalse : ∀ (size : ℕ) {s : AudioBufferState ℤ} {length chan : ℕ},
      (s.resize ⟨32, 64, 4, 16⟩ length chan).map (fun p => (p.1, p.2.size)) = some (true, size) →
      size < length → ¬ s.Tells ⟨32, 64, 4, 16⟩ length chan := by
    rintro size s length chan hresult hlt ⟨ok, t, hcall, htrue, -⟩
    rw [hcall] at hresult
    obtain ⟨rfl, rfl⟩ := Prod.mk.inj (Option.some.inj hresult)
    exact absurd (htrue.mp rfl).2 (Nat.not_le.mpr hlt)
  exact ⟨hfalse 0 (by decide) (by decide), hfalse 2 (by decide) (by decide)⟩

end AudioBufferState

end Tklb
