import Tklb.AudioRingBuffer.Fifo

/-!
# What `pop` loses

`pop` removes as many frames from the ring as `peek` says it retrieved.  `peek` clamps
that number to the frames there are, and not to the room there is behind `offsetDst`:
frames that do not fit are dropped by `AudioBuffer::set` and are gone all the same.  And
the valid range of the destination is set to the number of frames, wherever they were
stored.

`retrieved_iff` is about every destination, also one that is too small.

### What is load-bearing

Three parties have to agree on a number: what `pop` returns and removes, what `set` copies, and
what the destination counts as valid.  `Retrieved` says that they do.  The first number is
clamped to what the ring has, the second also to the room in the destination, and the third is
the first one again, without the offset at which the frames are.  So they agree exactly if there
is room for all frames and the offset is 0, unless nothing is retrieved at all.
-/

namespace Tklb

open Foundation AudioBuffer

namespace AudioRingBuffer

variable {w : ℕ} {α : Type} {r : AudioRingBuffer w α} {out : AudioBuffer w α} {n dst : ℕ}

/-- **No frame is lost**: the returned number of frames, the oldest ones, are stored from
`dst` on and nothing else is; they are what has left the ring; and they are valid. -/
structure Retrieved (r : AudioRingBuffer w α) (out : AudioBuffer w α) (dst count : ℕ)
    (out' : AudioBuffer w α) (r' : AudioRingBuffer w α) : Prop where
  stored : out'.frames dst count = r.queue.take count
  outside : ∀ i < out.size, i < dst ∨ dst + count ≤ i → out'.frame i = out.frame i
  left : r'.queue = r.queue.drop count
  valid : dst + count ≤ out'.mValidSize

/-- Asking for more than there is makes no difference. -/
theorem peek_clamped (h : r.Consistent) (out : AudioBuffer w α) (n dst : ℕ) :
    r.peek out n 0 dst = r.peek out (min n r.mHead) 0 dst := by
  have hclamp : (if r.mHead < n then r.mHead else n) = min n r.mHead := by
    split <;> omega
  have hclamped : (if r.mHead < min n r.mHead then r.mHead else min n r.mHead) =
      min n r.mHead := if_neg (by omega)
  unfold peek
  rw [wsub_of_le h.head_lt (Nat.zero_le _), Nat.sub_zero]
  dsimp only
  rw [hclamp, hclamped]

/-- What `pop` returns, and how much of the destination it declares valid. -/
theorem pop_count (h : r.Consistent) (out : AudioBuffer w α) (n dst : ℕ) :
    (r.pop out n 0 dst).1 = min n r.filled ∧
      (r.pop out n 0 dst).2.1.mValidSize ≤ min out.size (min n r.filled) := by
  have hclamp : (if r.mHead < n then r.mHead else n) = min n r.mHead := by
    split <;> omega
  show (r.peek out n 0 dst).1 = _ ∧ (r.peek out n 0 dst).2.mValidSize ≤ _
  by_cases hpos : 0 < min n r.mHead
  · unfold peek
    rw [wsub_of_le h.head_lt (Nat.zero_le _), Nat.sub_zero]
    dsimp only
    rw [hclamp, if_pos hpos]
    refine ⟨rfl, ?_⟩
    show min (AudioBuffer.size _) (min n r.mHead) ≤ _
    generalize (if r.mTail < r.mHead then _ else _ : ℕ) = start
    split
    · rw [setBuffer_size, setBuffer_size]
      exact le_rfl
    · rw [setBuffer_size]
      exact le_rfl
  · have hzero : min n r.mHead = 0 := Nat.eq_zero_of_not_pos hpos
    rw [peek_zero h out dst hzero]
    exact ⟨hzero.symm, (Nat.min_zero _).le.trans (Nat.zero_le _)⟩

/-- **When no frame is lost.**  Exactly when they are stored at the front of the
destination and there is room for them. -/
theorem retrieved_iff (h : r.Consistent) (hch : out.mChannels = r.base.mChannels) {count : ℕ}
    {out' : AudioBuffer w α} {r' : AudioRingBuffer w α}
    (hpop : r.pop out n 0 dst = (count, out', r')) :
    Retrieved r out dst count out' r' ↔ dst = 0 ∧ min n r.filled ≤ out.size := by
  obtain ⟨hcount, hvalid⟩ := pop_count h out n dst
  rw [hpop] at hcount hvalid
  dsimp only [filled] at hcount hvalid ⊢
  constructor
  · intro hretrieved
    have := hretrieved.valid
    omega
  · rintro ⟨rfl, hroom⟩
    have hfit : 0 + min n r.mHead ≤ out.size := by
      rw [Nat.zero_add]
      exact hroom
    obtain ⟨hpeek, hdelivered⟩ := peek_delivers h hch hfit
    rw [← peek_clamped h out n 0] at hpeek hdelivered
    obtain ⟨-, hleft⟩ := pop_queue h (min n r.filled)
    rw [filled, Nat.min_assoc, Nat.min_self] at hleft
    -- `pop` is `peek`, and then the fill count goes down
    unfold pop at hpop
    simp only [Prod.mk.injEq] at hpop
    obtain ⟨rfl, rfl, rfl⟩ := hpop
    have hlength : (r.queue.take (min n r.mHead)).length = min n r.mHead := by
      rw [List.length_take, show r.queue.length = r.mHead from length_window _ _ _ _,
        Nat.min_assoc, Nat.min_self]
    rw [hcount]
    refine ⟨?_, ?_, hleft, ?_⟩
    · refine List.ext_getElem ?_ fun k hk hk' => ?_
      · rw [hlength, AudioBuffer.frames, List.length_map, List.length_range]
      · simp only [AudioBuffer.frames, List.getElem_map, List.getElem_range]
        exact hdelivered.inside k hk'
    · intro i hi hout
      refine hdelivered.outside i hi ?_
      rw [hlength]
      exact hout
    · rw [hdelivered.valid, hlength, Nat.zero_add]

/-- Two frames in a ring of four, and a destination with room for four. -/
theorem retrieved_two :
    let two : (ℕ → ℕ) → AudioBuffer 8 ℕ := fun samples =>
      ⟨samples, 4, 2, 1, by decide, by decide, by decide, by decide⟩
    let ring := ((initial (two id)).push (two (10 + ·)) 0).2
    let popped := ring.pop (two id) 3 0 0
    Retrieved ring (two id) 0 popped.1 popped.2.1 popped.2.2 := by
  intro two ring popped
  have hring : ring.Consistent := ⟨by decide, by decide⟩
  exact (retrieved_iff hring (by decide) rfl).mpr ⟨rfl, by decide⟩

/-- The same ring: a destination with room for one frame loses the other one, and a
frame that is stored at index two is not valid. -/
theorem not_retrieved :
    let two : (ℕ → ℕ) → AudioBuffer 8 ℕ := fun samples =>
      ⟨samples, 4, 2, 1, by decide, by decide, by decide, by decide⟩
    let one : AudioBuffer 8 ℕ := ⟨id, 1, 1, 1, by decide, by decide, by decide, by decide⟩
    let ring := ((initial (two id)).push (two (10 + ·)) 0).2
    let small := ring.pop one 2 0 0
    let behind := ring.pop (two id) 1 0 2
    ring.queue = [[10], [11]] ∧
      (small.1 = 2 ∧ small.2.1.size = 1 ∧ small.2.2.queue = [] ∧
        ¬ Retrieved ring one 0 small.1 small.2.1 small.2.2) ∧
      behind.2.1.frame 2 = [10] ∧ behind.2.1.mValidSize = 1 ∧
        ¬ Retrieved ring (two id) 2 behind.1 behind.2.1 behind.2.2 := by
  intro two one ring small behind
  refine ⟨by decide, ⟨by decide, by decide, by decide, fun hretrieved => ?_⟩, by decide,
    by decide, fun hretrieved => ?_⟩
  · exact absurd hretrieved.valid (by decide)
  · exact absurd hretrieved.valid (by decide)

end AudioRingBuffer

end Tklb
