import Tklb.AudioRingBuffer
import Tklb.Foundation.BoundedQueue
import Tklb.Foundation.Runs

/-!
# An `AudioRingBuffer` is a bounded queue of frames

The abstract ring is a `BoundedQueue` of frames whose capacity is `size()`.
`Consistent` is the invariant of the two counters, and `queue` reads the frames
the ring holds as a circular window in front of `mTail`.

The proof has three parts.  `tailStart_eq_slot`: the wrapping subtraction finds
the cell of the oldest frame.  `peek_delivers` and `push_queue`: reading and
writing in two pieces is reading and writing along the window.  And
`step_refines`, the simulation of one call, from which `refines_boundedQueue`
follows for whole runs.

### What is load-bearing

* `Consistent` says that the fill count is at most the capacity and the write index below it.
  It is all the invariant there is: the index of the oldest frame is computed, so there is no
  third counter that could disagree.
* The window lemmas of the abstract queue (`Foundation.window_append` and those about reading a
  window) are about functions on cells and know nothing of audio.  They are where the wrap
  around the end of the storage is dealt with, for reading and for writing.
* `Event` records a call with its reply and, for `peek` and `pop`, the destination before and
  after, because what is delivered is only visible there.  The destination may be any buffer; a
  call whose frames do not fit in it, or with another number of channels, is excluded by `Fits`,
  as the claim of the class is about the ring.

A later module that changes one of the functions (`pushOver`, or `pop` with an offset) is
compared with the same queue and uses `push_queue` and `pop_queue` by name.
-/

namespace Tklb

open Foundation AudioBuffer

namespace AudioRingBuffer

variable {w : ℕ} {α : Type}

/-- The counters of a ring that is only used as a ring.  A ring without room has its tail at the
start, since there is nowhere else for it to be. -/
structure Consistent (r : AudioRingBuffer w α) : Prop where
  head_le : r.mHead ≤ r.base.size
  /-- The next frame goes into the storage, if there is any. -/
  tail_lt : r.mTail < r.base.size ∨ r.mTail = 0

/-- The frames in the ring, the oldest first. -/
def queue (r : AudioRingBuffer w α) : List (List α) :=
  window r.base.frame r.base.size r.mTail r.mHead

theorem consistent_initial (base : AudioBuffer w α) : (initial base).Consistent :=
  ⟨Nat.zero_le _, Or.inr rfl⟩

namespace Consistent

variable {r : AudioRingBuffer w α} (h : r.Consistent)
include h

theorem remaining_eq : r.remaining = r.base.size - r.mHead :=
  wsub_of_le r.base.size_lt h.head_le

theorem filled_add_remaining : r.filled + r.remaining = r.base.size := by
  rw [h.remaining_eq]
  exact Nat.add_sub_cancel' h.head_le

theorem head_lt : r.mHead < 2 ^ w := h.head_le.trans_lt r.base.size_lt

theorem tail_lt_of_pos (hpos : 0 < r.base.size) : r.mTail < r.base.size := by
  rcases h.tail_lt with hlt | hzero
  · exact hlt
  · rw [hzero]
    exact hpos

end Consistent

/-! ### Reading -/

/-- **Where the oldest frame is.**  The subtraction goes below zero exactly when
the queue runs over the end of the storage, and adding the size brings it back. -/
theorem tailStart_eq_slot {n tail fill : ℕ} (hn : n < 2 ^ w) (htail : tail < n)
    (hfill : fill ≤ n) :
    (if tail < fill then wrap w (wsub w tail fill + n) else wsub w tail fill) =
      slot n tail fill 0 := by
  unfold slot
  rw [Nat.add_zero]
  by_cases hlt : tail < fill
  · have hsum : tail + n - fill < n := by omega
    rw [if_pos hlt, wrap_wsub_add (by omega) (by omega) (by omega),
      ← Nat.add_sub_assoc hfill, Nat.mod_eq_of_lt hsum]
  · have hsum : tail + (n - fill) = tail - fill + n := by omega
    rw [if_neg hlt, wsub_of_le (by omega) (by omega), hsum, Nat.add_mod_right,
      Nat.mod_eq_of_lt (by omega)]

/-- `k` frames of the storage `src`, from `start` on, copied to `out` in one piece
or, if they run over the end, in two. -/
def copyPieces (out src : AudioBuffer w α) (start k dst : ℕ) : AudioBuffer w α :=
  if src.size - start < k then
    (out.setBuffer src (src.size - start) start dst).setBuffer src
      (k - (src.size - start)) 0 (src.size - start + dst)
  else out.setBuffer src k start dst

theorem copyPieces_shape (out src : AudioBuffer w α) (start k dst : ℕ) :
    (copyPieces out src start k dst).size = out.size ∧
      (copyPieces out src start k dst).mChannels = out.mChannels := by
  unfold copyPieces
  split <;> simp only [setBuffer_size, setBuffer_mChannels, and_self]

/-- The pieces together are a copy along the circle. -/
theorem frame_copyPieces {out src : AudioBuffer w α} {start k dst i : ℕ}
    (hch : src.mChannels = out.mChannels) (hstart : start < src.size) (hpos : 0 < k)
    (hk : k ≤ src.size) (hfit : dst + k ≤ out.size) (hi : i < out.size) :
    (copyPieces out src start k dst).frame i =
      if dst ≤ i ∧ i < dst + k then src.frame ((start + (i - dst)) % src.size)
      else out.frame i := by
  unfold copyPieces
  by_cases hwraps : src.size - start < k
  · have hfirst : src.mChannels =
        (out.setBuffer src (src.size - start) start dst).mChannels :=
      hch.trans setBuffer_mChannels.symm
    rw [if_pos hwraps, frame_setBuffer (by omega) hfirst (by rw [setBuffer_size]; omega)
      (setBuffer_size.symm ▸ hi), frame_setBuffer (by omega) hch (by omega) hi]
    by_cases hin : dst ≤ i ∧ i < dst + k
    · rw [if_pos hin, add_mod_of_lt hstart (by omega)]
      by_cases hsecond : src.size - start + dst ≤ i
      · rw [if_pos (by omega), if_neg (by omega)]
        congr 1
        omega
      · rw [if_neg (by omega), if_pos (by omega), if_pos (by omega)]
    · rw [if_neg hin, if_neg (by omega), if_neg (by omega)]
  · rw [if_neg hwraps, frame_setBuffer (by omega) hch hfit hi]
    by_cases hin : dst ≤ i ∧ i < dst + k
    · rw [if_pos hin, if_pos hin, Nat.mod_eq_of_lt (by omega)]
    · rw [if_neg hin, if_neg hin]

/-- The frames `fs` were written to `out` from `dst` on, and nothing else, and
are what is valid there. -/
structure Delivered (out : AudioBuffer w α) (dst : ℕ) (fs : List (List α))
    (out' : AudioBuffer w α) : Prop where
  channels : out'.mChannels = out.mChannels
  size : out'.size = out.size
  valid : out'.mValidSize = fs.length
  inside : ∀ k (hk : k < fs.length), out'.frame (dst + k) = fs[k]
  outside : ∀ i < out.size, i < dst ∨ dst + fs.length ≤ i → out'.frame i = out.frame i

theorem Delivered.of_frame {out out' : AudioBuffer w α} {dst k : ℕ} {f : ℕ → List α}
    (hchannels : out'.mChannels = out.mChannels) (hsize : out'.size = out.size)
    (hvalid : out'.mValidSize = k) (hfit : dst + k ≤ out.size)
    (hframe : ∀ i < out.size,
      out'.frame i = if dst ≤ i ∧ i < dst + k then f (i - dst) else out.frame i) :
    Delivered out dst ((List.range k).map f) out' where
  channels := hchannels
  size := hsize
  valid := by rw [hvalid, List.length_map, List.length_range]
  inside := by
    intro j hj
    rw [List.length_map, List.length_range] at hj
    rw [hframe _ (by omega), if_pos (by omega), List.getElem_map, List.getElem_range,
      Nat.add_sub_cancel_left]
  outside := by
    intro i hi hout
    rw [List.length_map, List.length_range] at hout
    rw [hframe i hi, if_neg (by omega)]

variable {r : AudioRingBuffer w α}

/-- The frames `peek` has to deliver, where they are. -/
theorem take_queue (r : AudioRingBuffer w α) (n : ℕ) :
    r.queue.take n = (List.range (min n r.mHead)).map fun i =>
      r.base.frame ((slot r.base.size r.mTail r.mHead 0 + i) % r.base.size) := by
  have hlength : r.queue.length = r.mHead := length_window _ _ _ _
  rcases Nat.le_total n r.mHead with hle | hge
  · rw [Nat.min_eq_left hle, queue, take_window _ _ hle]
  · rw [Nat.min_eq_right hge, List.take_of_length_le (hlength.trans_le hge),
      ← List.take_of_length_le hlength.le, queue, take_window _ _ le_rfl]

/-- `peek` of at least one frame. -/
theorem peek_eq (h : r.Consistent) {out : AudioBuffer w α} {n dst k : ℕ}
    (hk : k = min n r.mHead) (hpos : 0 < k) (hfit : dst + n ≤ out.size) :
    r.peek out n 0 dst =
      (k, (copyPieces out r.base (slot r.base.size r.mTail r.mHead 0) k dst).setValidSize k) := by
  have hhead := h.head_le
  have hsize : 0 < r.base.size := by omega
  have hlt := r.base.size_lt
  have hout := out.size_lt
  have hstart := slot_lt hsize r.mTail r.mHead 0
  have htail := tailStart_eq_slot hlt (h.tail_lt_of_pos hsize) h.head_le
  have hclamp : (if r.mHead < n then r.mHead else n) = k := by
    split <;> omega
  generalize slot r.base.size r.mTail r.mHead 0 = start at *
  unfold peek copyPieces
  rw [wsub_of_le h.head_lt (Nat.zero_le _), Nat.sub_zero]
  simp only [hclamp, if_pos hpos, htail, wsub_of_le hlt hstart.le]
  by_cases hwraps : r.base.size - start < k
  · rw [if_pos hwraps, if_pos hwraps, wsub_of_le (by omega) hwraps.le, wrap_of_lt (by omega)]
  · rw [if_neg hwraps, if_neg hwraps]

/-- `peek` when there is nothing to retrieve. -/
theorem peek_zero (h : r.Consistent) (out : AudioBuffer w α) {n : ℕ} (dst : ℕ)
    (hzero : min n r.mHead = 0) : r.peek out n 0 dst = (0, out.setValidSize 0) := by
  have hclamp : (if r.mHead < n then r.mHead else n) = 0 := by
    split <;> omega
  unfold peek
  rw [wsub_of_le h.head_lt (Nat.zero_le _), Nat.sub_zero]
  simp only [hclamp, if_neg (Nat.lt_irrefl 0)]

/-- **`peek`.**  The oldest frames are delivered, as many as are asked for and
there are. -/
theorem peek_delivers (h : r.Consistent) {out : AudioBuffer w α} {n dst : ℕ}
    (hch : out.mChannels = r.base.mChannels) (hfit : dst + n ≤ out.size) :
    (r.peek out n 0 dst).1 = min n r.filled ∧
      Delivered out dst (r.queue.take n) (r.peek out n 0 dst).2 := by
  rw [take_queue r]
  by_cases hpos : 0 < min n r.mHead
  · have hk : min n r.mHead ≤ r.base.size := (Nat.min_le_right _ _).trans h.head_le
    have hstart := slot_lt (hpos.trans_le hk) r.mTail r.mHead 0
    obtain ⟨hsize, hchannels⟩ := copyPieces_shape out r.base
      (slot r.base.size r.mTail r.mHead 0) (min n r.mHead) dst
    rw [peek_eq h rfl hpos hfit]
    refine ⟨rfl, .of_frame hchannels hsize ?_ (by omega) ?_⟩
    · show min (copyPieces out r.base _ _ dst).size (min n r.mHead) = min n r.mHead
      rw [hsize]
      exact Nat.min_eq_right (by omega)
    · intro i hi
      exact frame_copyPieces hch.symm hstart hpos hk (by omega) hi
  · have hzero : min n r.mHead = 0 := Nat.eq_zero_of_not_pos hpos
    rw [peek_zero h out dst hzero, hzero]
    refine ⟨hzero.symm, .of_frame rfl rfl (Nat.min_zero _) (by omega) ?_⟩
    intro i _
    rw [if_neg (by omega)]
    rfl

/-- **`pop`.**  It delivers what `peek` does and removes as much.  In terms of the queue: the oldest
frames are delivered in order, as many as were asked for or as there are, and the others stay. -/
theorem pop_queue (h : r.Consistent) (n : ℕ) :
    let r' : AudioRingBuffer w α := { r with mHead := wsub w r.mHead (min n r.filled) }
    r'.Consistent ∧ r'.queue = r.queue.drop n := by
  have hle : min n r.mHead ≤ r.mHead := Nat.min_le_right _ _
  intro r'
  have hhead : r'.mHead = r.mHead - min n r.mHead := wsub_of_le h.head_lt hle
  refine ⟨⟨hhead ▸ (Nat.sub_le _ _).trans h.head_le, h.tail_lt⟩, ?_⟩
  have hqueue : r'.queue = r.queue.drop (min n r.mHead) := by
    rw [queue, hhead]
    exact window_drop _ _ hle h.head_le
  have hlength : r.queue.length = r.mHead := length_window _ _ _ _
  rw [hqueue, ← hlength]
  rcases Nat.le_total n r.queue.length with hle | hge
  · rw [Nat.min_eq_left hle]
  · rw [Nat.min_eq_right hge, List.drop_length, List.drop_eq_nil_of_le hge]

/-! ### Writing -/

/-- What a `push` that stores `k` frames of `input` leaves behind: they are in the
cells from `mTail` on, nothing else changed, and `mTail` moved on by as many. -/
structure Stored (r : AudioRingBuffer w α) (input : AudioBuffer w α) (offsetSrc k : ℕ)
    (r' : AudioRingBuffer w α) : Prop where
  size : r'.base.size = r.base.size
  channels : r'.base.mChannels = r.base.mChannels
  head : r'.mHead = r.mHead + k
  tail_lt : r'.mTail < r.base.size
  tail : r'.mTail % r.base.size = (r.mTail + k) % r.base.size
  written : ∀ i < k,
    r'.base.frame ((r.mTail + i) % r.base.size) = input.frame (offsetSrc + i)
  kept : ∀ p < r.base.size, (∀ i < k, (r.mTail + i) % r.base.size ≠ p) →
    r'.base.frame p = r.base.frame p

section Push

variable {input : AudioBuffer w α} {offsetSrc k : ℕ}

/-- The frames fit in front of the end of the storage. -/
theorem stored_straight (hch : input.mChannels = r.base.mChannels) (hpos : 0 < k)
    (hk : k ≤ r.base.size - r.mTail) {tail : ℕ}
    (htail : tail = if r.base.size - r.mTail = k then 0 else r.mTail + k) :
    Stored r input offsetSrc k
      ⟨r.base.setBuffer input k offsetSrc r.mTail, r.mHead + k, tail⟩ where
  size := setBuffer_size
  channels := setBuffer_mChannels
  head := rfl
  tail_lt := by
    show tail < r.base.size
    rw [htail]
    split <;> omega
  tail := by
    show tail % r.base.size = (r.mTail + k) % r.base.size
    rw [htail]
    split
    · rw [show r.mTail + k = r.base.size by omega, Nat.mod_self, Nat.zero_mod]
    · rfl
  written := by
    intro i hi
    show (r.base.setBuffer input k offsetSrc r.mTail).frame _ = _
    rw [Nat.mod_eq_of_lt (by omega), frame_setBuffer (by omega) hch (by omega) (by omega),
      if_pos (by omega), Nat.add_sub_cancel_left]
  kept := by
    intro p hp hne
    show (r.base.setBuffer input k offsetSrc r.mTail).frame p = _
    rw [frame_setBuffer (by omega) hch (by omega) hp, if_neg]
    -- a cell of the stretch would be one of the written ones
    intro hin
    apply hne (p - r.mTail) (by omega)
    rw [Nat.add_sub_cancel' hin.1, Nat.mod_eq_of_lt hp]

/-- The ring after a write in two pieces, of `rest` and `first`: the second piece
starts at the beginning and stays below the first one. -/
theorem frame_wrapped (offsetSrc : ℕ) {base : AudioBuffer w α} {tail first rest : ℕ}
    (hch : input.mChannels = base.mChannels) (hfirst : 0 < first) (hrest : 0 < rest)
    (hend : tail + first = base.size) (hbelow : rest ≤ tail) {p : ℕ} (hp : p < base.size) :
    ((base.setBuffer input first offsetSrc tail).setBuffer input rest
        (first + offsetSrc) 0).frame p =
      if p < rest then input.frame (first + offsetSrc + p)
      else if tail ≤ p then input.frame (offsetSrc + (p - tail))
      else base.frame p := by
  have hch' : input.mChannels = (base.setBuffer input first offsetSrc tail).mChannels :=
    hch.trans setBuffer_mChannels.symm
  rw [frame_setBuffer (by omega) hch' (by rw [setBuffer_size]; omega)
    (setBuffer_size.symm ▸ hp), frame_setBuffer (by omega) hch (by omega) hp, Nat.sub_zero]
  by_cases hlow : p < rest
  · rw [if_pos (by omega), if_pos hlow]
  · rw [if_neg (by omega), if_neg hlow]
    by_cases hhigh : tail ≤ p
    · rw [if_pos (by omega), if_pos hhigh]
    · rw [if_neg (by omega), if_neg hhigh]

/-- The frames run over the end of the storage. -/
theorem stored_wrapped (hch : input.mChannels = r.base.mChannels)
    (htail : r.mTail < r.base.size) (hwraps : r.base.size - r.mTail < k)
    (hk : k ≤ r.base.size) :
    Stored r input offsetSrc k
      ⟨(r.base.setBuffer input (r.base.size - r.mTail) offsetSrc r.mTail).setBuffer input
          (k - (r.base.size - r.mTail)) (r.base.size - r.mTail + offsetSrc) 0,
        r.mHead + k, k - (r.base.size - r.mTail)⟩ := by
  have hframe := fun p (hp : p < r.base.size) =>
    frame_wrapped offsetSrc hch (Nat.sub_pos_of_lt htail) (Nat.sub_pos_of_lt hwraps)
      (Nat.add_sub_cancel' htail.le) (by omega) hp
  refine ⟨setBuffer_size.trans setBuffer_size, setBuffer_mChannels.trans setBuffer_mChannels,
    rfl, ?_, ?_, ?_, ?_⟩
  · show k - (r.base.size - r.mTail) < r.base.size
    omega
  · show (k - (r.base.size - r.mTail)) % r.base.size = (r.mTail + k) % r.base.size
    rw [show r.mTail + k = k - (r.base.size - r.mTail) + r.base.size by omega,
      Nat.add_mod_right]
  · intro i hi
    rw [add_mod_of_lt htail (by omega)]
    by_cases hend : r.mTail + i < r.base.size
    · rw [if_pos hend, hframe _ hend, if_neg (by omega), if_pos (by omega),
        Nat.add_sub_cancel_left]
    · rw [if_neg hend, hframe _ (by omega), if_pos (by omega)]
      congr 1
      omega
  · intro p hp hne
    -- a cell of either piece would be one of the written ones
    have hlow : ¬ p < k - (r.base.size - r.mTail) := by
      intro hlow
      apply hne (r.base.size - r.mTail + p) (by omega)
      rw [show r.mTail + (r.base.size - r.mTail + p) = p + r.base.size by omega,
        Nat.add_mod_right, Nat.mod_eq_of_lt hp]
    have hhigh : ¬ r.mTail ≤ p := by
      intro hhigh
      apply hne (p - r.mTail) (by omega)
      rw [Nat.add_sub_cancel' hhigh, Nat.mod_eq_of_lt hp]
    rw [hframe p hp, if_neg hlow, if_neg hhigh]

/-- `push` when there is something to store. -/
theorem push_stored (h : r.Consistent) (hch : input.mChannels = r.base.mChannels)
    (hfit : offsetSrc + input.mValidSize ≤ input.size)
    (hk : k = min input.mValidSize (r.base.size - r.mHead)) (hpos : 0 < k) :
    ∃ r', r.push input offsetSrc = (k, r') ∧ Stored r input offsetSrc k r' := by
  have hhead := h.head_le
  have htail := h.tail_lt_of_pos (by omega)
  have hlt := r.base.size_lt
  have hinput := input.size_lt
  have hclamp : (if r.base.size - r.mHead < input.mValidSize then r.base.size - r.mHead
      else input.mValidSize) = k := by
    split <;> omega
  unfold push
  simp only [wsub_of_le hlt hhead, wsub_of_le hlt htail.le, hclamp, if_pos hpos]
  by_cases hwraps : r.base.size - r.mTail < k
  · rw [if_pos hwraps, wsub_of_le (by omega) hwraps.le, wrap_of_lt (by omega),
      wrap_of_lt (by omega), wrap_of_lt (by omega), Nat.zero_add]
    exact ⟨_, rfl, stored_wrapped hch htail hwraps (by omega)⟩
  · rw [if_neg hwraps, wrap_of_lt (by omega)]
    refine ⟨_, rfl, stored_straight hch hpos (by omega) ?_⟩
    split
    · rfl
    · exact wrap_of_lt (by omega)

/-- `push` when there is nothing to store. -/
theorem push_zero (h : r.Consistent) (input : AudioBuffer w α) (offsetSrc : ℕ)
    (hzero : min input.mValidSize (r.base.size - r.mHead) = 0) :
    r.push input offsetSrc = (0, r) := by
  have hclamp : (if r.base.size - r.mHead < input.mValidSize then r.base.size - r.mHead
      else input.mValidSize) = 0 := by
    split <;> omega
  unfold push
  simp only [wsub_of_le r.base.size_lt h.head_le, hclamp, if_neg (Nat.lt_irrefl 0)]

/-- **`push`.**  The first frames there is room for are appended.  The frames behind these are
refused, and the number that is returned says how many there were room for. -/
theorem push_queue (h : r.Consistent) (hch : input.mChannels = r.base.mChannels)
    (hfit : offsetSrc + input.mValidSize ≤ input.size) :
    ∃ r', r.push input offsetSrc = (min input.mValidSize r.remaining, r') ∧
      r'.Consistent ∧ r'.base.size = r.base.size ∧
      r'.base.mChannels = r.base.mChannels ∧
      r'.queue =
        r.queue ++ (input.frames offsetSrc input.mValidSize).take r.remaining := by
  have hframes : (input.frames offsetSrc input.mValidSize).take r.remaining =
      (List.range (min input.mValidSize r.remaining)).map fun i =>
        input.frame (offsetSrc + i) := by
    rw [AudioBuffer.frames, ← List.map_take, List.take_range, Nat.min_comm]
  rw [hframes, h.remaining_eq]
  have hhead := h.head_le
  by_cases hpos : 0 < min input.mValidSize (r.base.size - r.mHead)
  · obtain ⟨r', hpush, hstored⟩ := push_stored h hch hfit rfl hpos
    refine ⟨r', hpush, ⟨?_, Or.inl ?_⟩, hstored.size, hstored.channels, ?_⟩
    · rw [hstored.head, hstored.size]
      omega
    · rw [hstored.size]
      exact hstored.tail_lt
    · rw [queue, hstored.head, hstored.size]
      exact window_append (by omega) hstored.tail hstored.written hstored.kept
  · have hzero : min input.mValidSize (r.base.size - r.mHead) = 0 :=
      Nat.eq_zero_of_not_pos hpos
    rw [hzero, push_zero h input offsetSrc hzero]
    exact ⟨r, rfl, h, rfl, rfl, (List.append_nil _).symm⟩

end Push

/-! ### Whole runs -/

/-- A call with its reply; for `peek` and `pop`, the destination before and after
it. -/
inductive Event (w : ℕ) (α : Type)
  | push (input : AudioBuffer w α) (offsetSrc count : ℕ)
  | peek (out : AudioBuffer w α) (elements offsetDst count : ℕ) (out' : AudioBuffer w α)
  | pop (out : AudioBuffer w α) (elements offsetDst count : ℕ) (out' : AudioBuffer w α)

/-- The ring performs a call with a reply.  The reply and what was delivered are part of the label,
so a run of the ring says what a client has seen. -/
def Performs (r : AudioRingBuffer w α) : Event w α → AudioRingBuffer w α → Prop
  | .push input offsetSrc count, r' => r.push input offsetSrc = (count, r')
  | .peek out elements offsetDst count out', r' =>
      r.peek out elements 0 offsetDst = (count, out') ∧ r' = r
  | .pop out elements offsetDst count out', r' =>
      r.pop out elements 0 offsetDst = (count, out', r')

/-- The frames of the call exist, and there are as many channels as in the
ring. -/
def Fits (r : AudioRingBuffer w α) : Event w α → Prop
  | .push input offsetSrc _ =>
      input.mChannels = r.base.mChannels ∧ offsetSrc + input.mValidSize ≤ input.size
  | .peek out elements offsetDst _ _ | .pop out elements offsetDst _ _ =>
      out.mChannels = r.base.mChannels ∧ offsetDst + elements ≤ out.size

/-- What a call with a reply means for a bounded queue of frames.  It is given in terms of `offer`,
`discard` and the items, with nothing about cells or counters. -/
def QueuePerforms (q : BoundedQueue (List α)) :
    Event w α → BoundedQueue (List α) → Prop
  | .push input offsetSrc count, q' =>
      count = min input.mValidSize q.remaining ∧
        q' = q.offer (input.frames offsetSrc input.mValidSize)
  | .peek out elements offsetDst count out', q' =>
      count = min elements q.filled ∧ Delivered out offsetDst (q.items.take elements) out' ∧
        q' = q
  | .pop out elements offsetDst count out', q' =>
      count = min elements q.filled ∧ Delivered out offsetDst (q.items.take elements) out' ∧
        q' = q.discard elements

/-- The ring holds the frames of the queue.  The relation of the simulation: the capacity is the
size of the buffer, and reading the stored frames from the oldest to the newest gives the items. -/
structure Refines (r : AudioRingBuffer w α) (q : BoundedQueue (List α)) : Prop where
  consistent : r.Consistent
  capacity : q.capacity = r.base.size
  items : q.items = r.queue

theorem Refines.filled {q : BoundedQueue (List α)} (h : Refines r q) : q.filled = r.filled := by
  unfold BoundedQueue.filled
  rw [h.items]
  exact length_window _ _ _ _

theorem Refines.remaining {q : BoundedQueue (List α)} (h : Refines r q) :
    q.remaining = r.remaining := by
  unfold BoundedQueue.remaining
  rw [h.filled, h.capacity, h.consistent.remaining_eq]
  rfl

/-- **One call.**  A call on a ring that holds the frames of a queue has the reply
and the effect of the call on the queue. -/
theorem step_refines (r : AudioRingBuffer w α) (q : BoundedQueue (List α)) (e : Event w α)
    (r' : AudioRingBuffer w α) (h : Refines r q) (hstep : Guarded Performs Fits r e r') :
    ∃ q', QueuePerforms q e q' ∧ Refines r' q' := by
  obtain ⟨hfits, hperforms⟩ := hstep
  cases e with
  | push input offsetSrc count =>
      obtain ⟨r'', hpush, hconsistent, hsize, -, hqueue⟩ :=
        push_queue h.consistent hfits.1 hfits.2
      obtain ⟨rfl, rfl⟩ := Prod.mk.inj (hpush.symm.trans hperforms)
      refine ⟨_, ⟨by rw [h.remaining], rfl⟩, hconsistent, h.capacity.trans hsize.symm, ?_⟩
      rw [hqueue, ← h.items, ← h.remaining]
      rfl
  | peek out elements offsetDst count out' =>
      obtain ⟨hperforms, rfl⟩ := hperforms
      obtain ⟨hcount, hdelivered⟩ := peek_delivers h.consistent hfits.1 hfits.2
      rw [hperforms] at hcount hdelivered
      exact ⟨q, ⟨by rw [h.filled]; exact hcount, by rw [h.items]; exact hdelivered, rfl⟩, h⟩
  | pop out elements offsetDst count out' =>
      obtain ⟨hcount, hdelivered⟩ := peek_delivers h.consistent hfits.1 hfits.2
      obtain ⟨hconsistent, hqueue⟩ := pop_queue h.consistent elements
      -- `pop` is `peek`, and then the fill count goes down
      unfold Performs pop at hperforms
      simp only [Prod.mk.injEq] at hperforms
      obtain ⟨rfl, rfl, rfl⟩ := hperforms
      rw [hcount]
      refine ⟨q.discard elements, ⟨by rw [h.filled], by rw [h.items]; exact hdelivered, rfl⟩,
        hconsistent, h.capacity, ?_⟩
      rw [hqueue, ← h.items]
      rfl

/-- **A ring is a bounded queue.**  Over every run of a new ring, the replies and
the frames delivered are those of a queue of frames with capacity `size()`; the
ring holds the frames of the queue, and `filled()` and `remaining()` add up to
`size()`. -/
theorem refines_boundedQueue {base : AudioBuffer w α} {r' : AudioRingBuffer w α}
    {events : List (Event w α)}
    (hrun : Run (Guarded Performs Fits) (initial base) events r') :
    ∃ q, Run QueuePerforms (BoundedQueue.initial base.size) events q ∧
      q.capacity = base.size ∧ q.items = r'.queue ∧ r'.filled = q.filled ∧
      r'.base.size = base.size ∧ r'.filled + r'.remaining = r'.base.size := by
  have hstart : Refines (initial base) (BoundedQueue.initial base.size) :=
    ⟨consistent_initial base, rfl, rfl⟩
  obtain ⟨q, hqueue, hrefines⟩ := hrun.simulation step_refines hstart
  have hcapacity : q.capacity = base.size := by
    refine hqueue.invariant (I := fun q => q.capacity = base.size) ?_ rfl
    intro q e q' hq hstep
    cases e with
    | push => rw [hstep.2]; exact hq
    | peek => rw [hstep.2.2]; exact hq
    | pop => rw [hstep.2.2]; exact hq
  exact ⟨q, hqueue, hcapacity, hrefines.items, hrefines.filled.symm,
    hrefines.capacity.symm.trans hcapacity, hrefines.consistent.filled_add_remaining⟩

/-- A ring of three frames in one channel: two frames in, one out, and two more
in, which run over the end. -/
theorem refines_boundedQueue_wrapped :
    let buffer : (ℕ → ℕ) → AudioBuffer 8 ℕ := fun samples =>
      ⟨samples, 3, 2, 1, by decide, by decide, by decide, by decide⟩
    let out := buffer id
    let input := buffer (10 + ·)
    let first := ((initial out).push input 0).2
    let popped := first.pop out 1 0 0
    ∃ q, Run QueuePerforms (BoundedQueue.initial out.size)
        [.push input 0 2, .pop out 1 0 1 popped.2.1, .push input 0 2] q ∧
      q.items = [[11], [10], [11]] := by
  intro buffer out input first popped
  have hrun : Run (Guarded Performs Fits) (initial out)
      [.push input 0 2, .pop out 1 0 1 popped.2.1, .push input 0 2]
      (popped.2.2.push input 0).2 := by
    refine .cons ⟨⟨rfl, by decide⟩, Prod.ext (by decide) rfl⟩ (.cons ⟨⟨by decide, by decide⟩, ?_⟩
      (.cons ⟨⟨by decide, by decide⟩, Prod.ext (by decide) rfl⟩ (.nil _)))
    exact Prod.ext (by decide) rfl
  obtain ⟨q, hqueue, -, hitems, -⟩ := refines_boundedQueue hrun
  refine ⟨q, hqueue, ?_⟩
  rw [hitems]
  decide

end AudioRingBuffer

end Tklb
