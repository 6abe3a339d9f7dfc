import Tklb.AudioRingBuffer.Fifo

/-!
# What `pushOver` discards

`pushOver` stores all frames of its input and makes room for them by discarding old
ones.  It looks whether there is room, and if there is none it discards as many frames
as it is about to store, or all there are.  That is more than needed unless the ring is
full or the input fills it.

`pushOut_queue` is the discarding half, `pushOver_queue` the whole, and
`pushOver_keeps_last_iff` compares it with a queue that keeps the last frames.

### What is load-bearing

The source compares the room with the number of new frames and, if there is not enough, moves
the fill count down by the number of new frames.  It should have moved it down by what is
missing; and it takes room for exactly the new frames for too little.  `discarded` is the number
that is moved, and the comparison in `pushOver_keeps_last_iff` is between that and the least
number that has to go.  They are equal in three cases: there is room to spare, or everything has
to go, or the ring was full, where what is missing is just the number of new frames.

The result is about the queue of the ring (`queue`), so it does not depend on where in the
storage the frames are; that the push behind the first half stores what it should is
`push_queue`.
-/

namespace Tklb

open Foundation AudioBuffer

namespace AudioRingBuffer

variable {w : ℕ} {α : Type} {r : AudioRingBuffer w α} {input : AudioBuffer w α}

/-- The last `k` entries of a list. -/
def lastOf {β : Type} (k : ℕ) (l : List β) : List β := l.drop (l.length - k)

/-- The number of frames `pushOver` discards for `n` new ones. -/
def discarded (r : AudioRingBuffer w α) (n : ℕ) : ℕ :=
  if r.remaining ≤ n then min n r.mHead else 0

/-- **The first half.**  The oldest frames go, and there is room for the new ones. -/
theorem pushOut_queue (h : r.Consistent) {n : ℕ} (hn : n ≤ r.base.size) :
    (r.pushOut n).Consistent ∧ (r.pushOut n).base = r.base ∧
      (r.pushOut n).queue = r.queue.drop (r.discarded n) ∧ n ≤ (r.pushOut n).remaining := by
  have hhead := h.head_le
  unfold pushOut discarded
  by_cases hfull : r.remaining ≤ n
  · rw [if_pos hfull, if_pos hfull]
    have hclamp : (if r.mHead < n then r.mHead else n) = min n r.mHead := by
      split <;> omega
    rw [hclamp]
    obtain ⟨hconsistent, hqueue⟩ := pop_queue h (min n r.mHead)
    have hmin : min (min n r.mHead) r.filled = min n r.mHead :=
      Nat.min_eq_left (Nat.min_le_right _ _)
    rw [hmin] at hconsistent hqueue
    refine ⟨hconsistent, rfl, hqueue, ?_⟩
    rw [hconsistent.remaining_eq]
    show n ≤ r.base.size - wsub w r.mHead (min n r.mHead)
    rw [wsub_of_le h.head_lt (Nat.min_le_right _ _)]
    omega
  · rw [if_neg hfull, if_neg hfull]
    exact ⟨h, rfl, rfl, by omega⟩

/-- **`pushOver`.**  All frames are stored, behind what is left of the old ones. -/
theorem pushOver_queue (h : r.Consistent) (hch : input.mChannels = r.base.mChannels)
    (hvalid : input.mValidSize ≤ input.size) (hn : input.mValidSize ≤ r.base.size) :
    (r.pushOver input).1 = input.mValidSize ∧ (r.pushOver input).2.Consistent ∧
      (r.pushOver input).2.queue =
        r.queue.drop (r.discarded input.mValidSize) ++ input.frames 0 input.mValidSize := by
  obtain ⟨hconsistent, hbase, hqueue, hroom⟩ := pushOut_queue h hn
  have hfits : 0 + input.mValidSize ≤ input.size := by omega
  obtain ⟨r', hpush, hconsistent', -, -, hqueue'⟩ :=
    push_queue hconsistent (hbase.symm ▸ hch) hfits
  have hlength : (input.frames 0 input.mValidSize).length = input.mValidSize := by
    rw [AudioBuffer.frames, List.length_map, List.length_range]
  rw [Nat.min_eq_left hroom] at hpush
  rw [hqueue, List.take_of_length_le (hlength.trans_le hroom)] at hqueue'
  rw [pushOver, hpush]
  exact ⟨rfl, hconsistent', hqueue'⟩

/-- **When `pushOver` keeps what fits.**  It stores all frames and leaves the last
`min(size(), |q| + n)` frames of the old ones followed by the new ones, if and only if
the new ones fit with room to spare, or fill the ring, or the ring was full. -/
theorem pushOver_keeps_last_iff (h : r.Consistent) (hch : input.mChannels = r.base.mChannels)
    (hvalid : input.mValidSize ≤ input.size) (hn : input.mValidSize ≤ r.base.size) :
    ((r.pushOver input).1 = input.mValidSize ∧
      (r.pushOver input).2.queue =
        lastOf (min r.base.size (r.queue.length + input.mValidSize))
          (r.queue ++ input.frames 0 input.mValidSize)) ↔
    input.mValidSize < r.remaining ∨ input.mValidSize = r.base.size ∨
      r.filled = r.base.size := by
  obtain ⟨hcount, -, hqueue⟩ := pushOver_queue h hch hvalid hn
  have hhead := h.head_le
  have hremaining := h.remaining_eq
  have hlength : r.queue.length = r.mHead := length_window _ _ _ _
  have hframes : (input.frames 0 input.mValidSize).length = input.mValidSize := by
    rw [AudioBuffer.frames, List.length_map, List.length_range]
  -- what has to go, at least
  have hlast : lastOf (min r.base.size (r.queue.length + input.mValidSize))
      (r.queue ++ input.frames 0 input.mValidSize) =
      r.queue.drop (r.mHead + input.mValidSize - r.base.size) ++
        input.frames 0 input.mValidSize := by
    rw [lastOf, List.length_append, hframes, hlength,
      show r.mHead + input.mValidSize - min r.base.size (r.mHead + input.mValidSize) =
        r.mHead + input.mValidSize - r.base.size by omega,
      List.drop_append_of_le_length (by omega)]
  -- lists of frames with the same end are equal when they are equally long
  have hiff : (r.pushOver input).2.queue =
      lastOf (min r.base.size (r.queue.length + input.mValidSize))
        (r.queue ++ input.frames 0 input.mValidSize) ↔
      r.discarded input.mValidSize = r.mHead + input.mValidSize - r.base.size := by
    rw [hqueue, hlast, List.append_cancel_right_eq]
    refine ⟨fun heq => ?_, fun heq => by rw [heq]⟩
    have hlen := congrArg List.length heq
    rw [List.length_drop, List.length_drop, hlength] at hlen
    have hle : r.discarded input.mValidSize ≤ r.mHead := by
      unfold discarded
      split <;> omega
    omega
  rw [hiff]
  simp only [hcount, true_and]
  unfold discarded filled
  split <;> omega

/-- A ring of four frames that holds two: one more fits with room to spare. -/
theorem pushOver_keeps_last_one :
    let two : (ℕ → ℕ) → AudioBuffer 8 ℕ := fun samples =>
      ⟨samples, 4, 2, 1, by decide, by decide, by decide, by decide⟩
    let ring := ((initial (two id)).push (two (10 + ·)) 0).2
    let input := (two (20 + ·)).setValidSize 1
    (ring.pushOver input).1 = 1 ∧ (ring.pushOver input).2.queue = [[10], [11], [20]] := by
  intro two ring input
  have hring : ring.Consistent := ⟨by decide, by decide⟩
  have hch : input.mChannels = ring.base.mChannels := by decide
  obtain ⟨hcount, hqueue⟩ := (pushOver_keeps_last_iff hring hch (by decide) (by decide)).mpr
    (Or.inl (by decide))
  exact ⟨hcount.trans (by decide), hqueue.trans (by decide)⟩

/-- Two more just fit, but push both old frames out. -/
theorem not_keeps_last_when_just_fitting :
    let two : (ℕ → ℕ) → AudioBuffer 8 ℕ := fun samples =>
      ⟨samples, 4, 2, 1, by decide, by decide, by decide, by decide⟩
    let ring := ((initial (two id)).push (two (10 + ·)) 0).2
    let input := two (20 + ·)
    (ring.pushOver input).2.queue = [[20], [21]] ∧
      lastOf (min ring.base.size (ring.queue.length + input.mValidSize))
        (ring.queue ++ input.frames 0 input.mValidSize) = [[10], [11], [20], [21]] := by
  intro two ring input
  exact ⟨by decide, by decide⟩

end AudioRingBuffer

end Tklb
