import Tklb.AudioRingBuffer.Counters

/-!
# `pop` with an offset

`peek` reads from behind the `offsetSrc` oldest frames: it lowers the fill count it works
with, by an unsigned subtraction that wraps if there are not as many (`peek_offset`).
`pop` then removes as many frames as were retrieved, and always the oldest ones.  The two
are the same frames only if nothing is retrieved or nothing was skipped.

A frame is known by the cell it is in (`slots`), so two frames with equal samples are
different frames.

### What is load-bearing

`Removes` compares two lists of cells: the frames that were delivered with the frames that are
gone from the ring afterwards.  It has to be cells and not samples, since two frames may sound
the same.  With an offset the delivered ones are the `offsetSrc`-th and following, the removed
ones the first, so the comparison fails whenever both a frame was skipped and one was delivered
while others stay.

In the third case of `removes_iff` everything is skipped: there is nothing behind the offset, so
nothing is delivered and nothing removed.  An offset behind all frames is no such case.  The
subtraction wraps to a large fill count, and frames are delivered that are not in the ring.
-/

namespace Tklb

open Foundation AudioBuffer

namespace AudioRingBuffer

variable {w : ℕ} {α : Type} {r : AudioRingBuffer w α} {out : AudioBuffer w α} {n o k : ℕ}

/-- The cells of the frames in the ring, the oldest first. -/
def slots (r : AudioRingBuffer w α) : List ℕ :=
  (List.range r.mHead).map (slot r.base.size r.mTail r.mHead)

/-- The ring with another fill count. -/
def withHead (r : AudioRingBuffer w α) (head : ℕ) : AudioRingBuffer w α :=
  { r with mHead := head }

@[simp] theorem length_slots (r : AudioRingBuffer w α) : r.slots.length = r.mHead := by
  rw [slots, List.length_map, List.length_range]

/-- The frames of the ring, read from their cells. -/
theorem queue_eq_slots (r : AudioRingBuffer w α) : r.queue = r.slots.map r.base.frame := by
  rw [slots, List.map_map]
  rfl

/-- Different frames are in different cells. -/
theorem nodup_slots (h : r.mHead ≤ r.base.size) : r.slots.Nodup := by
  refine List.Nodup.map_on ?_ List.nodup_range
  intro i hi j hj heq
  rw [List.mem_range] at hi hj
  exact slot_injective (by omega) (by omega) heq

/-- A smaller fill count drops the oldest frames. -/
theorem slots_withHead (h : r.mHead ≤ r.base.size) (hk : k ≤ r.mHead) :
    (r.withHead (r.mHead - k)).slots = r.slots.drop k := by
  refine List.ext_getElem ?_ fun i hi _ => ?_
  · rw [List.length_drop, length_slots, length_slots]
    rfl
  · rw [List.getElem_drop]
    simp only [slots, withHead, List.getElem_map, List.getElem_range]
    exact slot_drop r.mTail i hk h

/-- **`peek` with an offset** is `peek` of a ring with fewer frames. -/
theorem peek_offset (hlt : r.mHead < 2 ^ w) (ho : o ≤ r.mHead) (out : AudioBuffer w α)
    (n dst : ℕ) : r.peek out n o dst = (r.withHead (r.mHead - o)).peek out n 0 dst := by
  have hhead : wsub w (r.withHead (r.mHead - o)).mHead 0 = wsub w r.mHead o := by
    show wsub w (r.mHead - o) 0 = wsub w r.mHead o
    rw [wsub_of_le hlt ho, wsub_of_le (by omega) (Nat.zero_le _), Nat.sub_zero]
  unfold peek
  rw [hhead]
  rfl

/-- `pop` where it retrieves nothing. -/
theorem pop_nothing (hlt : r.mHead < 2 ^ w) (hnone : min n (wsub w r.mHead o) = 0)
    (out : AudioBuffer w α) : r.pop out n o 0 = (0, out.setValidSize 0, r) := by
  have hclamp : (if wsub w r.mHead o < n then wsub w r.mHead o else n) = 0 := by
    split <;> omega
  have hsame : wsub w r.mHead 0 = r.mHead := wsub_of_le hlt (Nat.zero_le _)
  unfold pop peek
  simp only [hclamp, if_neg (Nat.lt_irrefl 0), hsame]

/-- `pop` where it retrieves something. -/
theorem pop_something (h : r.Bounded) (hch : out.mChannels = r.base.mChannels)
    (hroom : n ≤ out.size) (ho : o ≤ r.mHead) (hk : k = min n (r.mHead - o)) (hpos : 0 < k) :
    ∃ out', r.pop out n o 0 = (k, out', r.withHead (r.mHead - k)) ∧
      out'.frames 0 k = ((r.slots.drop o).take k).map r.base.frame := by
  have hhead := h.head_le
  have hlt := h.head_le.trans_lt r.base.size_lt
  have hsize : 0 < r.base.size := by omega
  have hrest : (r.withHead (r.mHead - o)).Consistent :=
    ⟨(Nat.sub_le _ _).trans hhead, Or.inl (h.tail_lt hsize)⟩
  have hfit : 0 + n ≤ out.size := by omega
  obtain ⟨hcount, hdelivered⟩ := peek_delivers hrest hch hfit
  rw [← peek_offset hlt ho] at hcount hdelivered
  have hcount : (r.peek out n o 0).1 = k := hcount.trans hk.symm
  have hframes : (r.withHead (r.mHead - o)).queue.take n =
      ((r.slots.drop o).take k).map r.base.frame := by
    have hlength : (r.slots.drop o).length = r.mHead - o := by
      rw [List.length_drop, length_slots]
    rw [queue_eq_slots, slots_withHead hhead ho, ← List.map_take, hk, ← hlength,
      List.take_eq_take_min]
    rfl
  rw [hframes] at hdelivered
  have hlength : (((r.slots.drop o).take k).map r.base.frame).length = k := by
    rw [List.length_map, List.length_take, List.length_drop, length_slots]
    omega
  refine ⟨(r.peek out n o 0).2, ?_, ?_⟩
  · unfold pop
    simp only [hcount, wsub_of_le hlt (show k ≤ r.mHead by omega)]
    rfl
  · refine List.ext_getElem ?_ fun i hi hi' => ?_
    · rw [hlength, AudioBuffer.frames, List.length_map, List.length_range]
    · simp only [AudioBuffer.frames, List.getElem_map, List.getElem_range]
      rw [hdelivered.inside i hi', List.getElem_map]

/-- **What is delivered is what is removed.**  With an offset there are frames behind, the
next frames are delivered and no longer in the ring, and all frames behind them are;
with a larger one nothing happens. -/
structure Removes (r : AudioRingBuffer w α) (out : AudioBuffer w α) (n o count : ℕ)
    (out' : AudioBuffer w α) (r' : AudioRingBuffer w α) : Prop where
  storage : r'.base = r.base
  clamped : o ≤ r.filled → count = min n (r.filled - o)
  delivered : o ≤ r.filled →
    out'.frames 0 count = ((r.slots.drop o).take count).map r.base.frame
  removed : o ≤ r.filled → ∀ p ∈ (r.slots.drop o).take count, p ∉ r'.slots
  kept : o ≤ r.filled → r.slots.drop (o + count) <:+ r'.slots
  nothing : r.filled < o → count = 0 ∧ out' = out.setValidSize 0 ∧ r' = r

/-- Where nothing is retrieved, nothing has to be removed. -/
theorem removes_nothing (hle : o ≤ r.mHead) (hzero : min n (r.mHead - o) = 0)
    (out : AudioBuffer w α) : Removes r out n o 0 (out.setValidSize 0) r where
  storage := rfl
  clamped := fun _ => hzero.symm
  delivered := fun _ => by simp [AudioBuffer.frames]
  removed := fun _ p hp => by simp at hp
  kept := fun _ => List.drop_suffix _ _
  nothing := fun hlt => absurd hlt (Nat.not_lt.mpr hle)

/-- Where something is retrieved, it is removed if it was in front. -/
theorem removes_something_iff (hhead : r.mHead ≤ r.base.size) (hle : o ≤ r.mHead)
    (hk : k = min n (r.mHead - o)) (hpos : 0 < k) {out' : AudioBuffer w α}
    (hframes : out'.frames 0 k = ((r.slots.drop o).take k).map r.base.frame) :
    Removes r out n o k out' (r.withHead (r.mHead - k)) ↔ o = 0 := by
  have hslots := slots_withHead hhead (show k ≤ r.mHead by omega)
  constructor
  · intro hremoves
    by_contra hskips
    -- the last frame delivered is not one of the oldest
    obtain ⟨p, hp⟩ : ∃ p, r.slots[o + (k - 1)]? = some p :=
      ⟨_, List.getElem?_eq_getElem (by rw [length_slots]; omega)⟩
    have hdelivered : p ∈ (r.slots.drop o).take k := by
      refine List.mem_of_getElem? (i := k - 1) ?_
      rw [List.getElem?_take_of_lt (by omega), List.getElem?_drop, hp]
    refine hremoves.removed hle p hdelivered ?_
    rw [hslots]
    refine List.mem_of_getElem? (i := o - 1) ?_
    rw [List.getElem?_drop, ← hp]
    congr 1
    omega
  · rintro rfl
    refine ⟨rfl, fun _ => hk, fun _ => hframes, fun _ p hp => ?_, fun _ => ?_, fun hlt => ?_⟩
    · rw [hslots]
      rw [List.drop_zero] at hp
      exact List.disjoint_take_drop (nodup_slots hhead) le_rfl hp
    · rw [hslots, Nat.zero_add]
    · exact absurd hlt (Nat.not_lt_zero _)

/-- **`pop` removes what it delivers** exactly if it is asked for nothing, skips nothing,
or skips everything. -/
theorem removes_iff (h : r.Bounded) (hch : out.mChannels = r.base.mChannels)
    (hroom : n ≤ out.size) (ho : o < 2 ^ w) {count : ℕ} {out' : AudioBuffer w α}
    {r' : AudioRingBuffer w α} (hpop : r.pop out n o 0 = (count, out', r')) :
    Removes r out n o count out' r' ↔ n = 0 ∨ o = 0 ∨ o = r.filled := by
  have hhead := h.head_le
  have hlt := h.head_le.trans_lt r.base.size_lt
  have hfilled : r.filled = r.mHead := rfl
  rcases Nat.lt_or_ge r.mHead o with hwraps | hle
  · -- the fill count wraps to a large one
    have hlarge : 0 < wsub w r.mHead o := by
      rw [wsub, wrap_of_lt (by omega)]
      omega
    rcases Nat.eq_zero_or_pos n with rfl | hn
    · rw [pop_nothing hlt (by omega)] at hpop
      simp only [Prod.mk.injEq] at hpop
      obtain ⟨rfl, rfl, rfl⟩ := hpop
      refine iff_of_true ⟨rfl, ?_, ?_, ?_, ?_, fun _ => ⟨rfl, rfl, rfl⟩⟩ (Or.inl rfl)
      all_goals exact fun hle => absurd hle (by omega)
    · refine iff_of_false (fun hremoves => ?_) (by omega)
      have hcount : (if wsub w r.mHead o < n then wsub w r.mHead o else n) = count :=
        congrArg Prod.fst hpop
      have hzero := (hremoves.nothing hwraps).1
      split at hcount
      · omega
      · omega
  · rcases Nat.eq_zero_or_pos (min n (r.mHead - o)) with hzero | hpos
    · rw [pop_nothing hlt (by rwa [wsub_of_le hlt hle])] at hpop
      simp only [Prod.mk.injEq] at hpop
      obtain ⟨rfl, rfl, rfl⟩ := hpop
      exact iff_of_true (removes_nothing hle hzero out) (by omega)
    · obtain ⟨out'', hcall, hframes⟩ := pop_something h hch hroom hle rfl hpos
      rw [hcall] at hpop
      simp only [Prod.mk.injEq] at hpop
      obtain ⟨rfl, rfl, rfl⟩ := hpop
      rw [removes_something_iff hhead hle rfl hpos hframes]
      omega

/-- Two frames in a ring of four, and one is popped from the front. -/
theorem removes_front :
    let two : (ℕ → ℕ) → AudioBuffer 8 ℕ := fun samples =>
      ⟨samples, 4, 2, 1, by decide, by decide, by decide, by decide⟩
    let ring := ((initial (two id)).push (two (10 + ·)) 0).2
    let popped := ring.pop (two id) 1 0 0
    Removes ring (two id) 1 0 popped.1 popped.2.1 popped.2.2 := by
  intro two ring popped
  have hring : ring.Bounded := ⟨by decide, by decide⟩
  exact (removes_iff hring (by decide) (by decide) (by decide) rfl).mpr (Or.inr (Or.inl rfl))

/-- The same ring: from behind the first frame the second one is delivered, and the first
one is removed.  From behind three frames, of which there are two, another is delivered
and removed. -/
theorem not_removes_behind :
    let two : (ℕ → ℕ) → AudioBuffer 8 ℕ := fun samples =>
      ⟨samples, 4, 2, 1, by decide, by decide, by decide, by decide⟩
    let ring := ((initial (two id)).push (two (10 + ·)) 0).2
    let behind := ring.pop (two id) 1 1 0
    let beyond := ring.pop (two id) 1 3 0
    ring.queue = [[10], [11]] ∧
      (behind.2.1.frames 0 1 = [[11]] ∧ behind.2.2.queue = [[11]] ∧
        ¬ Removes ring (two id) 1 1 behind.1 behind.2.1 behind.2.2) ∧
      beyond.1 = 1 ∧ beyond.2.2.filled = 1 ∧
        ¬ Removes ring (two id) 1 3 beyond.1 beyond.2.1 beyond.2.2 := by
  intro two ring behind beyond
  refine ⟨by decide, ⟨by decide, by decide, fun hremoves => ?_⟩, by decide, by decide,
    fun hremoves => ?_⟩
  · exact hremoves.removed (by decide) 1 (by decide) (by decide)
  · exact absurd (hremoves.nothing (by decide)).1 (by decide)

end AudioRingBuffer

end Tklb
