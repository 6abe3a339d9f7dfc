import Tklb.HeapBuffer.Allocation
import Tklb.HeapBuffer.Storage

/-!
# The sizes a `HeapBuffer` computes

Three numbers are computed in `Size`: the size rounded up to whole chunks, the bytes of
a chunk, and the size plus one.  Each of them is wrapped at some arguments, and the code
goes on with the small number: `allocate` succeeds with fewer bytes than it records
(`allocate_blockFits_iff`), a rounded size of zero asks for no memory at all
(`closestChunkSize_of_lt`), and a buffer of the largest size is empty after a `push`.

`sized_iff_sizesFit` says at which arguments a call that returns `true` did what it says.

### Main results

* `allocate_blockFits_iff` and `closestChunkSize_of_lt` — what is left of a number of bytes and
  of a rounded size that are wrapped.
* `resize_sized_iff`, `reserve_sized_iff`, `push_sized_iff`, `set_sized_iff` — each operation.
* `sized_iff_sizesFit` — all of them, for every width of `Size`, every element type, every
  argument of that type and every state.

### What is load-bearing

`Sized` is about sizes and blocks alone.  It asks of a call that returned `true` that there is
memory for as many elements as were asked for, and does not mention the elements: where it
fails, they are outside of the block, and nothing can be said about them.  The condition is
weaker than "nothing wraps", because a buffer may keep memory it already has (`Keeps`); a
rounded size of zero is then compared with that memory and does no harm.
-/

namespace Tklb

open Foundation HeapBuffer

namespace BufferState

variable {T : Type} {B : BufferType} {s t : BufferState T}

/-- The block of a buffer that owns memory was allocated with the bytes of `mRealSize`
elements. -/
def BlockFits (B : BufferType) (s : BufferState T) : Prop :=
  s.buffer.mRealSize ≠ 0 → ∃ b, s.buffer.mBuf = some b ∧
    s.buffer.mRealSize * B.sizeofT + B.alignment ≤ s.heap.bytes b

/-- **What success means**: there is memory for the elements, as many as were asked for.  The block
is as large as the capacity says, the capacity is enough for the size, and the size is the one that
was asked for. -/
structure Sized (B : BufferType) (s : BufferState T) (size : ℕ) : Prop where
  block : s.BlockFits B
  room : s.buffer.mSize ≤ s.buffer.mRealSize
  size_eq : s.buffer.mSize = size

/-- The block does not depend on the objects in it. -/
theorem BlockFits.iff_of_same (hbuf : t.buffer.mBuf = s.buffer.mBuf)
    (hreal : t.buffer.mRealSize = s.buffer.mRealSize) (hbytes : t.heap.bytes = s.heap.bytes) :
    t.BlockFits B ↔ s.BlockFits B := by
  unfold BlockFits
  rw [hbuf, hreal, hbytes]

theorem grown_blockFits (vs : List T) (n : ℕ) : (s.grown vs n).BlockFits B ↔ s.BlockFits B := by
  obtain ⟨X, hheap⟩ := grown_heap (s := s) vs n
  exact BlockFits.iff_of_same rfl rfl (by rw [hheap])

/-! ### The three computations -/

/-- The bytes that are asked for are enough only if nothing was wrapped. -/
theorem bytes_le_iff {v w k a : ℕ} :
    k + a ≤ wrap v (wrap w k + a) ↔ k < 2 ^ w ∧ k + a < 2 ^ v := by
  constructor
  · intro hle
    have houter : wrap v (wrap w k + a) ≤ wrap w k + a := Nat.mod_le _ _
    have hk : k < 2 ^ w := (show k ≤ wrap w k by omega).trans_lt (wrap_lt w k)
    exact ⟨hk, hle.trans_lt (wrap_lt v _)⟩
  · rintro ⟨hk, hsum⟩
    rw [wrap_of_lt hk, wrap_of_lt hsum]

/-- **Bytes.**  A successful allocation is as large as it is recorded if and only if the
number of bytes was not wrapped. -/
theorem allocate_blockFits_iff {chunk : ℕ} (h : s.allocate B chunk = (true, t)) :
    t.buffer.mSize = s.buffer.mSize ∧ t.buffer.mRealSize = chunk ∧
      (t.BlockFits B ↔ AllocFits B chunk) := by
  rcases Nat.eq_zero_or_pos chunk with rfl | hpos
  · obtain ⟨t', hcall, hexchanged, -⟩ := allocate_zero_exchanges B s
    obtain rfl : t' = t := (Prod.mk.inj (hcall.symm.trans h)).2
    rw [BlockFits, hexchanged.buffer]
    exact ⟨rfl, rfl, fun _ hpos => absurd hpos (lt_irrefl 0), fun _ hne => absurd rfl hne⟩
  · cases hgrant : s.heap.grants s.heap.requests with
    | false =>
        rw [allocate_refused hpos hgrant] at h
        cases h
    | true =>
        obtain ⟨t', hcall, hexchanged, -, hbytes, -⟩ :=
          allocate_exchanges (B := B) (s := s) hpos hgrant
        obtain rfl : t' = t := (Prod.mk.inj (hcall.symm.trans h)).2
        rw [BlockFits, hexchanged.buffer]
        refine ⟨rfl, rfl, ?_⟩
        constructor
        · intro hfits _
          obtain ⟨b, hb, hle⟩ := hfits hpos.ne'
          obtain rfl := Option.some.inj hb
          rw [hbytes] at hle
          exact bytes_le_iff.mp hle
        · intro hfits _
          refine ⟨_, rfl, ?_⟩
          rw [hbytes]
          exact bytes_le_iff.mpr (hfits hpos)

/-- **Chunks.**  The rounded size is what it should be, or zero.  The addition in it wraps for the
last few sizes only, and masking what is left then gives nothing at all; no other wrong size comes
out. -/
theorem closestChunkSize_of_lt {n : ℕ} (hn : n < 2 ^ B.sizeBits) :
    closestChunkSize B n chunkSize =
      if (n + 15) / 16 * 16 < 2 ^ B.sizeBits then (n + 15) / 16 * 16 else 0 := by
  have hround : roundUp n (max chunkSize 1) = (n + 15) / 16 * 16 := rfl
  split
  · rename_i hlt
    rw [← hround]
    exact closestChunkSize_eq_roundUp hlt
  · rename_i hge
    have hmax : max chunkSize 1 = 16 := rfl
    simp only [closestChunkSize, hmax]
    rw [show chunkSize = 16 from rfl, if_neg (by omega), if_neg (by omega), if_neg (by omega)]
    -- the next multiple of 16 is the first number that does not fit
    have hdvd : 2 ^ B.sizeBits ∣ (n / 16 + 1) * 16 := by
      rcases Nat.le_total B.sizeBits 4 with hsmall | hlarge
      · exact (Nat.pow_dvd_pow 2 hsmall).mul_left _
      · obtain ⟨k, hk⟩ := Nat.pow_dvd_pow 2 hlarge
        have heq : (n / 16 + 1) * 16 = 2 ^ B.sizeBits := by omega
        exact heq ▸ Nat.dvd_refl _
    exact Nat.mod_eq_zero_of_dvd hdvd

/-- It is not zero if there is something to round, and the result fits. -/
theorem closestChunkSize_pos_iff {n : ℕ} (hn : n < 2 ^ B.sizeBits) :
    0 < closestChunkSize B n chunkSize ↔ 0 < n ∧ (n + 15) / 16 * 16 < 2 ^ B.sizeBits := by
  rw [closestChunkSize_of_lt hn]
  split
  · omega
  · omega

/-! ### The calls -/

/-- `resize` keeps the memory.  A size that cannot be rounded up counts as small, so that
memory which need not be reduced is kept for it, too. -/
def Keeps (B : BufferType) (b : HeapBuffer) (n : ℕ) (downsize : Bool) : Prop :=
  n ≤ b.mRealSize ∧
    if downsize then (n + 15) / 16 * 16 = b.mRealSize
    else (n + 15) / 16 * 16 ≤ b.mRealSize ∨ 2 ^ B.sizeBits ≤ (n + 15) / 16 * 16

instance (B : BufferType) (b : HeapBuffer) (n : ℕ) (downsize : Bool) :
    Decidable (Keeps B b n downsize) :=
  inferInstanceAs (Decidable (_ ∧ _))

/-- Memory that is exchanged is not kept. -/
theorem not_keeps_of_reallocates {b : HeapBuffer} (hreal : b.mRealSize < 2 ^ B.sizeBits)
    {n : ℕ} (hn : n < 2 ^ B.sizeBits) {downsize : Bool} (h : Reallocates B b n downsize) :
    ¬ Keeps B b n downsize := by
  rintro ⟨hroom, hkeeps⟩
  have hchunk := closestChunkSize_of_lt (B := B) hn
  unfold Reallocates at h
  cases downsize with
  | false =>
      have hgrows := h.resolve_right fun hshrinks => Bool.false_ne_true hshrinks.1
      rw [if_neg Bool.false_ne_true] at hkeeps
      split at hchunk
      · omega
      · omega
  | true =>
      rw [if_pos rfl] at hkeeps
      rw [if_pos (by omega)] at hchunk
      rcases h with hgrows | ⟨-, hshrinks⟩
      · omega
      · omega

/-- Nothing is exchanged for a size that needs more memory only if its rounded size is
wrapped. -/
theorem wrapped_of_not_keeps {b : HeapBuffer} {n : ℕ} (hn : n < 2 ^ B.sizeBits)
    {downsize : Bool} (h : ¬ Reallocates B b n downsize) (hkeeps : ¬ Keeps B b n downsize) :
    ¬ (n + 15) / 16 * 16 < 2 ^ B.sizeBits ∧ ¬ n ≤ b.mRealSize := by
  have hchunk := closestChunkSize_of_lt (B := B) hn
  unfold Reallocates at h
  unfold Keeps at hkeeps
  rw [not_or] at h
  cases downsize with
  | false =>
      rw [if_neg Bool.false_ne_true] at hkeeps
      split at hchunk
      · omega
      · omega
  | true =>
      have hshrinks : ¬ closestChunkSize B n chunkSize < b.mRealSize := fun hlt => h.2 ⟨rfl, hlt⟩
      rw [if_pos rfl] at hkeeps
      split at hchunk
      · omega
      · omega

/-- `resize` computes no size that is wrapped, or keeps memory that is large enough. -/
def ResizeFits (B : BufferType) (s : BufferState T) (n : ℕ) (downsize : Bool) : Prop :=
  if Keeps B s.buffer n downsize then s.BlockFits B else RoundFits B n

section Calls

variable (hreal : s.buffer.mRealSize < 2 ^ B.sizeBits)
include hreal

/-- **`resize`**.  It goes right if the memory is kept and large enough, or the rounded size and its
bytes can be computed; a rounded size of zero goes right only where the memory is kept. -/
theorem resize_sized_iff [Inhabited T] {n : ℕ} {downsize : Bool} (hn : n < 2 ^ B.sizeBits)
    (h : s.resize B n downsize = (true, t)) : t.Sized B n ↔ s.ResizeFits B n downsize := by
  have hsized : t.Sized B n ↔ t.BlockFits B ∧ n ≤ t.buffer.mRealSize := by
    have hsize : t.buffer.mSize = n := by
      rcases resize_true h with ⟨-, s₂, -, rfl⟩ | ⟨-, rfl⟩ <;> rw [extend_buffer]
    refine ⟨fun hsized => ⟨hsized.block, hsize ▸ hsized.room⟩, fun hfits => ?_⟩
    exact ⟨hfits.1, hsize.symm ▸ hfits.2, hsize⟩
  have hsame : ∀ r : BufferState T, ((r.extend n).BlockFits B ↔ r.BlockFits B) ∧
      (r.extend n).buffer.mRealSize = r.buffer.mRealSize := by
    intro r
    rw [extend_eq_grown]
    exact ⟨grown_blockFits _ _, rfl⟩
  rw [hsized]
  unfold ResizeFits
  rcases resize_true h with ⟨hreallocates, s₂, hcall, rfl⟩ | ⟨hkeeps, rfl⟩
  · -- new memory: the rounded size decides
    obtain ⟨-, hreal₂, hblock⟩ := allocate_blockFits_iff hcall
    have hkeeps := not_keeps_of_reallocates hreal hn hreallocates
    rw [(hsame s₂).1, (hsame s₂).2, hreal₂, hblock, closestChunkSize_of_lt hn, if_neg hkeeps,
      RoundFits]
    split
    · rename_i hlt
      exact ⟨fun hfits => ⟨hlt, hfits.1⟩, fun hfits => ⟨hfits.2, by omega⟩⟩
    · rename_i hge
      exact ⟨fun hfits => absurd hfits.2 (by omega), fun hfits => absurd hfits.1 hge⟩
  · -- the old memory
    have htruncate : (s.truncate n).BlockFits B ↔ s.BlockFits B := by
      obtain ⟨X, hheap⟩ := truncate_heap (s := s) n
      exact BlockFits.iff_of_same (by rw [truncate_buffer]) (by rw [truncate_buffer])
        (by rw [hheap])
    rw [(hsame _).1, (hsame _).2, htruncate, truncate_buffer]
    by_cases hkept : Keeps B s.buffer n downsize
    · rw [if_pos hkept]
      exact and_iff_left hkept.1
    · rw [if_neg hkept, RoundFits]
      -- nothing was asked for, because the rounded size is zero
      have hnot := wrapped_of_not_keeps hn hkeeps hkept
      exact ⟨fun hfits => absurd hfits.2 hnot.2, fun hfits => absurd hfits.1 hnot.1⟩

omit hreal in
/-- **`reserve`**.  There are two ways: the capacity is large enough already, and then the block
must be what the capacity says; or a block is asked for, and then it must hold the elements there
are. -/
theorem reserve_sized_iff {n : ℕ} (h : s.reserve B n = (true, t)) :
    t.Sized B s.buffer.mSize ↔
      if n < s.buffer.mRealSize then s.BlockFits B ∧ s.buffer.mSize ≤ s.buffer.mRealSize
      else AllocFits B n ∧ s.buffer.mSize ≤ n := by
  rw [reserve] at h
  split at h
  · rename_i hlt
    obtain rfl := (Prod.mk.inj h).2
    rw [if_pos hlt]
    exact ⟨fun hsized => ⟨hsized.block, hsized.room⟩, fun hfits => ⟨hfits.1, hfits.2, rfl⟩⟩
  · rename_i hge
    obtain ⟨hsize, hreal, hblock⟩ := allocate_blockFits_iff h
    rw [if_neg hge, ← hblock]
    constructor
    · intro hsized
      have hroom := hsized.room
      exact ⟨hsized.block, by omega⟩
    · rintro ⟨hfits, hle⟩
      exact ⟨hfits, by omega, hsize⟩

/-- **`push`**.  With room left, nothing is computed and the block must be what the capacity says;
else the size plus one is rounded up, and both that and its bytes must fit. -/
theorem push_sized_iff {object : T} (hsize : s.buffer.mSize < 2 ^ B.sizeBits)
    (h : s.push B object = (true, t)) : t.Sized B (s.buffer.mSize + 1) ↔
      if s.buffer.mSize < s.buffer.mRealSize then s.BlockFits B
      else RoundFits B (s.buffer.mSize + 1) := by
  obtain ⟨s₁, hmemory, rfl⟩ := push_true h
  by_cases hlast : s.buffer.mSize + 1 < 2 ^ B.sizeBits
  · rw [wrap_of_lt hlast] at hmemory ⊢
    have hsized : (s₁.grown [object] (s.buffer.mSize + 1)).Sized B (s.buffer.mSize + 1) ↔
        s₁.BlockFits B ∧ s.buffer.mSize + 1 ≤ s₁.buffer.mRealSize := by
      rw [← grown_blockFits [object] (s.buffer.mSize + 1)]
      exact ⟨fun h => ⟨h.block, h.room⟩, fun h => ⟨h.1, h.2, rfl⟩⟩
    rw [hsized]
    rcases hmemory with ⟨hlt, hcall⟩ | ⟨hge, rfl⟩
    · obtain ⟨-, hreal₁, hblock₁⟩ := allocate_blockFits_iff hcall
      rw [hblock₁, hreal₁, if_neg (by omega), closestChunkSize_of_lt hlast, RoundFits]
      split
      · rename_i hfits
        exact ⟨fun h => ⟨hfits, h.1⟩, fun h => ⟨h.2, by omega⟩⟩
      · rename_i hwraps
        exact ⟨fun h => absurd h.2 (by omega), fun h => absurd h.1 hwraps⟩
    · rw [if_pos (by omega)]
      exact and_iff_left (by omega)
  · -- one more than the largest size is zero
    have hzero : wrap B.sizeBits (s.buffer.mSize + 1) = 0 := by
      rw [wrap, show s.buffer.mSize + 1 = 2 ^ B.sizeBits by omega, Nat.mod_self]
    rw [if_neg (by omega), hzero, RoundFits]
    refine ⟨fun hsized => ?_, fun hfits => absurd hfits.1 (by omega)⟩
    have hcontra : (0 : ℕ) = s.buffer.mSize + 1 := hsized.size_eq
    omega

/-- **`set`**.  A buffer with memory gives it back first and asks for new memory in any case; one
without is resized. -/
theorem set_sized_iff [Inhabited T] {data : List T} (hlength : data.length < 2 ^ B.sizeBits)
    (h : s.set B data = (true, t)) : t.Sized B data.length ↔
      if s.buffer.mBuf.isSome then RoundFits B data.length
      else s.ResizeFits B data.length true := by
  obtain ⟨s₂, hcall, rfl⟩ := set_true h
  have hsame : (s₂.constructFrom 0 data).Sized B data.length ↔ s₂.Sized B data.length := by
    have hbuffer : (s₂.constructFrom 0 data).buffer = s₂.buffer := onMemory_buffer
    obtain ⟨X, hheap⟩ := onMemory_heap (s := s₂) fun objects b => objects.constructFrom b 0 data
    have hblock : (s₂.constructFrom 0 data).BlockFits B ↔ s₂.BlockFits B :=
      BlockFits.iff_of_same (by rw [hbuffer]) (by rw [hbuffer]) (by rw [constructFrom, hheap])
    refine ⟨fun h => ⟨hblock.mp h.block, hbuffer ▸ h.room, hbuffer ▸ h.size_eq⟩, fun h => ?_⟩
    exact ⟨hblock.mpr h.block, hbuffer.symm ▸ h.room, hbuffer.symm ▸ h.size_eq⟩
  rw [hsame]
  unfold emptied at hcall
  split
  · rename_i hbuf
    rw [if_pos hbuf] at hcall
    obtain ⟨s₁, hempty, hbuffer, -⟩ := resize_zero_eq B s
    have hreal₁ : s₁.buffer.mRealSize = 0 := by rw [hbuffer]
    rw [hempty] at hcall
    change s₁.resize B data.length true = (true, s₂) at hcall
    have hpos := Nat.two_pow_pos B.sizeBits
    rw [resize_sized_iff (by omega) hlength hcall, ResizeFits]
    split
    · rename_i hkeeps
      -- nothing is kept but nothing
      have hnil : data.length = 0 := by
        have := hkeeps.1
        omega
      rw [hnil]
      refine ⟨fun _ => ⟨hpos, fun h => absurd h (lt_irrefl 0)⟩, fun _ hne => absurd hreal₁ hne⟩
    · exact Iff.rfl
  · rename_i hbuf
    rw [if_neg hbuf] at hcall
    exact resize_sized_iff hreal hlength hcall

end Calls

/-- The size a buffer is asked to have. -/
def requested (s : BufferState T) : BufferCall T → Option ℕ
  | .resize size _ => some size
  | .reserve _ => some s.buffer.mSize
  | .push _ => some (s.buffer.mSize + 1)
  | .set data => some data.length
  | _ => none

/-- The argument is a value of type `Size`. -/
def InRange (B : BufferType) : BufferCall T → Prop
  | .resize size _ | .reserve size => size < 2 ^ B.sizeBits
  | .set data => data.length < 2 ^ B.sizeBits
  | _ => True

/-- **The sizes fit.**  If the call needs new memory, the size rounded up to whole chunks
and its bytes can be represented, and `reserve` is not asked for less than there is; if it
keeps the memory, that is large enough. -/
def SizesFit (B : BufferType) (s : BufferState T) : BufferCall T → Prop
  | .resize size downsize => s.ResizeFits B size downsize
  | .reserve size =>
      if size < s.buffer.mRealSize then s.BlockFits B ∧ s.buffer.mSize ≤ s.buffer.mRealSize
      else AllocFits B size ∧ s.buffer.mSize ≤ size
  | .push _ =>
      if s.buffer.mSize < s.buffer.mRealSize then s.BlockFits B
      else RoundFits B (s.buffer.mSize + 1)
  | .set data =>
      if s.buffer.mBuf.isSome then RoundFits B data.length
      else s.ResizeFits B data.length true
  | _ => True

/-- **When success means success.**  For every width of `Size`, every element type and
every state: a call of `resize`, `reserve`, `push` or `set` that returns `true` leaves a
buffer of the size asked for, in memory that was allocated with enough bytes, if and only
if none of the sizes it computes is wrapped. -/
theorem sized_iff_sizesFit [Inhabited T] [BEq T] {size : ℕ} {c : BufferCall T}
    (hsize : s.buffer.mSize < 2 ^ B.sizeBits) (hreal : s.buffer.mRealSize < 2 ^ B.sizeBits)
    (hrange : InRange B c) (hrequested : s.requested c = some size)
    (h : s.exec B c = (.flag true, t)) : t.Sized B size ↔ s.SizesFit B c := by
  cases c with
  | resize n downsize =>
      obtain rfl := Option.some.inj hrequested
      have hcall : s.resize B n downsize = (true, t) := by
        simpa [exec, Prod.ext_iff] using h
      exact resize_sized_iff hreal hrange hcall
  | reserve n =>
      obtain rfl := Option.some.inj hrequested
      have hcall : s.reserve B n = (true, t) := by
        simpa [exec, Prod.ext_iff] using h
      exact reserve_sized_iff hcall
  | push object =>
      obtain rfl := Option.some.inj hrequested
      have hcall : s.push B object = (true, t) := by
        simpa [exec, Prod.ext_iff] using h
      exact push_sized_iff hreal hsize hcall
  | set data =>
      obtain rfl := Option.some.inj hrequested
      have hcall : s.set B data = (true, t) := by
        simpa [exec, Prod.ext_iff] using h
      exact set_sized_iff hreal hrange hcall
  | pop => cases hrequested
  | removeAt index => cases hrequested
  | removeValue object => cases hrequested
  | removePointer object => cases hrequested
  | clear => cases hrequested

/-- Five `float`s in a new buffer. -/
theorem sized_resize_five :
    ∃ t : BufferState ℕ, exec ⟨32, 64, 4, 16⟩ ⟨.initial fun _ => true, .initial⟩
        (.resize 5 true) = (.flag true, t) ∧ t.Sized ⟨32, 64, 4, 16⟩ 5 := by
  have hfits : SizesFit (T := ℕ) ⟨32, 64, 4, 16⟩ ⟨.initial fun _ => true, .initial⟩
      (.resize 5 true) := by
    show ResizeFits _ _ _ _
    rw [ResizeFits, if_neg (by decide)]
    exact ⟨by decide, fun _ => by decide⟩
  have hrange : InRange (T := ℕ) ⟨32, 64, 4, 16⟩ (.resize 5 true) :=
    (by decide : 5 < 2 ^ 32)
  exact ⟨_, rfl, (sized_iff_sizesFit (by decide) (by decide) hrange rfl rfl).mpr hfits⟩

/-- Room for 2 ^ 30 `float`s is reserved: the call succeeds with a block of 16 bytes, the
bytes of the elements wrap to none. -/
theorem not_sized_after_wrap :
    ∃ t : BufferState ℕ, exec ⟨32, 64, 4, 16⟩ ⟨.initial fun _ => true, .initial⟩
        (.reserve (2 ^ 30)) = (.flag true, t) ∧ t.buffer.mRealSize = 2 ^ 30 ∧
      t.heap.bytes 0 = 16 ∧ ¬ t.Sized ⟨32, 64, 4, 16⟩ 0 := by
  refine ⟨_, rfl, rfl, rfl, fun hsized => ?_⟩
  obtain ⟨b, hb, hle⟩ := hsized.block (by decide)
  obtain rfl := Option.some.inj hb
  exact absurd hle (by decide)

end BufferState

end Tklb
