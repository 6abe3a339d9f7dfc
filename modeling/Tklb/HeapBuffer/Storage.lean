import Tklb.HeapBuffer.Allocation

/-!
# What the operations of a `HeapBuffer` do to its memory

The nine operations are put together from three: `allocate` exchanges the
memory, `constructFrom` and `destroyFrom` run over consecutive slots.  Each of
the three is described here once, for a buffer that owns its memory and an
allocator that does not fail:

* `Stored` — the buffer's memory is a block that is big enough and not freed;
* `Slots s objs` — the objects `objs` live in the first slots;
* `Exact s objs` — and nowhere else, and the books of the store balance.

An operation keeps `Stored`, leads from `Slots` to `Slots`, and where it treats
objects as it should, from `Exact` to `Exact`.

### What is load-bearing

* `allocate_spec` — the only place where a block is replaced.  It states everything at once: the
  new block, the old one, the objects that are moved and the objects that do not fit any more.
* `AllocFits` and `RoundFits` — the bounds under which the numbers of `allocate` and `resize`
  are what they should be.  They are the conditions that come back, in the words of a client, in
  every result about a `HeapBuffer`.

The three descriptions are used by name in `Operations`; no proof there looks at a loop or at
the heap.
-/

namespace Tklb

open Foundation HeapBuffer

namespace BufferState

variable {T : Type} {B : BufferType} {s : BufferState T} {objs : List (T × ℕ)}

/-- The memory is a block of `mRealSize` elements that is not freed, or there is
none; and the allocator meets every request. -/
structure Stored (B : BufferType) (s : BufferState T) : Prop where
  isSome_iff : s.buffer.mBuf.isSome ↔ 0 < s.buffer.mRealSize
  block : ∀ b, s.buffer.mBuf = some b → b < s.heap.blocks ∧ b ∉ s.heap.freed ∧
    s.heap.bytes b = s.buffer.mRealSize * B.sizeofT + B.alignment
  freed_lt : ∀ b ∈ s.heap.freed, b < s.heap.blocks
  grants : ∀ k, s.heap.grants k = true

/-- The objects `objs` live in the first slots of the memory. -/
def Slots (s : BufferState T) (objs : List (T × ℕ)) : Prop :=
  ∀ i < objs.length, s.slot i = objs[i]?

/-- The other slots are raw, every object constructed so far is one of `objs` or
was destroyed, exactly once, and nothing was overwritten or destroyed in vain. -/
structure Exact (s : BufferState T) (objs : List (T × ℕ)) : Prop where
  raw : ∀ i, objs.length ≤ i → s.slot i = none
  ledger : Ledger s.heap.objects.built s.heap.objects.destroyed (objs.map Prod.snd)
  overwritten : s.heap.objects.overwritten = []
  strayed : s.heap.objects.strayed = 0

/-- The bytes of `n` elements, and of their allocation, can be computed.  The second bound is for
the memory that is asked for, which has room for the alignment. -/
def AllocFits (B : BufferType) (n : ℕ) : Prop :=
  0 < n → n * B.sizeofT < 2 ^ B.sizeBits ∧
    n * B.sizeofT + B.alignment < 2 ^ B.pointerBits

/-- So can those of `n` elements rounded up to whole chunks.  The chunks are of sixteen elements,
whatever the elements are. -/
def RoundFits (B : BufferType) (n : ℕ) : Prop :=
  (n + 15) / 16 * 16 < 2 ^ B.sizeBits ∧ AllocFits B ((n + 15) / 16 * 16)

/-- `closestChunkSize` rounds up; a chunk of `0` counts as `1`. -/
theorem closestChunkSize_eq_roundUp {n chunk : ℕ}
    (hfit : roundUp n (max chunk 1) < 2 ^ B.sizeBits) :
    closestChunkSize B n chunk = roundUp n (max chunk 1) := by
  simp only [closestChunkSize]
  split
  · rename_i hzero
    rw [hzero, roundUp_of_dvd (Nat.dvd_zero _)]
  · split
    · rename_i hne hchunk
      rw [roundUp_of_dvd, hchunk]
      rw [hchunk, Nat.max_eq_left (by omega)]
    · split
      · rename_i hmod
        rw [roundUp_of_dvd (Nat.dvd_of_mod_eq_zero hmod)]
      · rename_i hmod
        have hdvd : ¬ max chunk 1 ∣ n := fun h => hmod (Nat.mod_eq_zero_of_dvd h)
        rw [roundUp_of_not_dvd (by omega) hdvd] at hfit ⊢
        exact wrap_of_lt hfit

theorem closestChunkSize_eq {n : ℕ} (h : RoundFits B n) :
    closestChunkSize B n chunkSize = (n + 15) / 16 * 16 :=
  closestChunkSize_eq_roundUp h.1

theorem Slots.nil : s.Slots [] := fun i hi => absurd hi (Nat.not_lt_zero i)

/-- Objects can only live in memory. -/
theorem Slots.isSome (h : s.Slots objs) (hpos : objs ≠ []) : s.buffer.mBuf.isSome := by
  have hlen : 0 < objs.length := List.length_pos_of_ne_nil hpos
  have hfirst := h 0 hlen
  cases hbuf : s.buffer.mBuf with
  | none => rw [slot, hbuf, List.getElem?_eq_getElem hlen] at hfirst; simp at hfirst
  | some b => rfl

theorem Slots.take (h : s.Slots objs) (n : ℕ) : s.Slots (objs.take n) := by
  intro i hi
  rw [List.length_take] at hi
  rw [h i (by omega), List.getElem?_take_of_lt (by omega)]

theorem Stored.onMemory (h : s.Stored B) (f : ObjectStore T → ℕ → ObjectStore T) :
    (s.onMemory f).Stored B := by
  unfold BufferState.onMemory
  split
  · exact h
  · exact ⟨h.isSome_iff, h.block, h.freed_lt, h.grants⟩

/-- The size is not part of the memory. -/
theorem Stored.resized (h : s.Stored B) (n : ℕ) :
    Stored B { s with buffer := { s.buffer with mSize := n } } :=
  ⟨h.isSome_iff, h.block, h.freed_lt, h.grants⟩

/-! ### Destroying the last objects -/

theorem destroyFrom_slots {keep gone : List (T × ℕ)} (h : s.Slots (keep ++ gone)) :
    (s.destroyFrom keep.length gone.length).Slots keep := by
  intro i hi
  cases hbuf : s.buffer.mBuf with
  | none =>
      have := h.isSome (by intro hnil; simp at hnil; simp [hnil.1] at hi)
      simp [hbuf] at this
  | some b =>
      have hold := h i (by rw [List.length_append]; omega)
      rw [List.getElem?_append_left hi, slot, hbuf] at hold
      rw [destroyFrom, onMemory_slot hbuf, ObjectStore.destroyFrom_slot, if_neg (by omega)]
      exact hold

theorem destroyFrom_exact {keep gone : List (T × ℕ)} (h : s.Slots (keep ++ gone))
    (he : s.Exact (keep ++ gone)) : (s.destroyFrom keep.length gone.length).Exact keep := by
  cases hbuf : s.buffer.mBuf with
  | none =>
      have hnil : keep ++ gone = [] := by
        by_contra hne
        have := h.isSome hne
        simp [hbuf] at this
      obtain ⟨rfl, rfl⟩ := List.append_eq_nil_iff.mp hnil
      have hsame : s.destroyFrom 0 0 = s := by simp [destroyFrom, onMemory, hbuf]
      rw [List.length_nil, hsame]
      exact he
  | some b =>
      have hlive : ∀ i < gone.length, s.heap.objects.slot b (keep.length + i) = gone[i]? := by
        intro i hi
        have hold := h (keep.length + i) (by rw [List.length_append]; omega)
        rw [List.getElem?_append_right (by omega), Nat.add_sub_cancel_left, slot, hbuf]
          at hold
        exact hold
      obtain ⟨hdestroyed, hstrayed⟩ := ObjectStore.destroyFrom_objects hlive
      refine ⟨?_, ?_, ?_, ?_⟩
      · -- a slot behind the kept objects is one of the destroyed or was raw before
        intro i hi
        rw [destroyFrom, onMemory_slot hbuf, ObjectStore.destroyFrom_slot]
        split
        · rfl
        · have hraw := he.raw i (by rw [List.length_append]; omega)
          rwa [slot, hbuf] at hraw
      · have hledger := he.ledger
        rw [List.map_append] at hledger
        rw [destroyFrom, onMemory_objects hbuf, ObjectStore.destroyFrom_built]
        exact (hledger.perm (List.Perm.refl _) List.perm_append_comm).settle.perm
          hdestroyed (List.Perm.refl _)
      · rw [destroyFrom, onMemory_objects hbuf, ObjectStore.destroyFrom_overwritten]
        exact he.overwritten
      · rw [destroyFrom, onMemory_objects hbuf, hstrayed]
        exact he.strayed

/-! ### Constructing behind the last object -/

theorem eq_nil_of_no_memory {X : Type} {l : List X} (h : l ≠ [] → s.buffer.mBuf.isSome)
    (hmem : s.buffer.mBuf = none) : l = [] := by
  by_contra hne
  have hsome := h hne
  rw [hmem] at hsome
  exact Bool.false_ne_true hsome

theorem constructFrom_slots {vs : List T} (h : s.Slots objs)
    (hbuf : vs ≠ [] → s.buffer.mBuf.isSome) :
    (s.constructFrom objs.length vs).Slots
      (objs ++ vs.zipIdx s.heap.objects.built) := by
  intro i hi
  rw [List.length_append, List.length_zipIdx] at hi
  cases hmem : s.buffer.mBuf with
  | none =>
      have hvs : vs = [] := eq_nil_of_no_memory hbuf hmem
      have hobjs : objs = [] := eq_nil_of_no_memory h.isSome hmem
      rw [hvs, hobjs] at hi
      simp at hi
  | some b =>
      rw [constructFrom, onMemory_slot hmem, ObjectStore.constructFrom_slot]
      by_cases hlt : i < objs.length
      · have hold := h i hlt
        rw [slot, hmem] at hold
        rw [if_neg (by omega), List.getElem?_append_left hlt]
        exact hold
      · rw [if_pos (by omega), List.getElem?_append_right (by omega)]

theorem constructFrom_exact {vs : List T}
    (hbuf : vs ≠ [] → s.buffer.mBuf.isSome) (he : s.Exact objs) :
    (s.constructFrom objs.length vs).Exact
      (objs ++ vs.zipIdx s.heap.objects.built) := by
  cases hmem : s.buffer.mBuf with
  | none =>
      have hvs : vs = [] := eq_nil_of_no_memory hbuf hmem
      have hsame : s.constructFrom objs.length vs = s := by
        simp [constructFrom, onMemory, hmem]
      rw [hsame, hvs, List.zipIdx_nil, List.append_nil]
      exact he
  | some b =>
      have hraw : ∀ i, objs.length ≤ i → s.heap.objects.slot b i = none := by
        intro i hi
        have := he.raw i hi
        rwa [slot, hmem] at this
      refine ⟨?_, ?_, ?_, ?_⟩
      · intro i hi
        rw [List.length_append, List.length_zipIdx] at hi
        rw [constructFrom, onMemory_slot hmem, ObjectStore.constructFrom_slot,
          if_neg (by omega)]
        exact hraw i (by omega)
      · rw [constructFrom, onMemory_objects hmem, ObjectStore.constructFrom_built,
          ObjectStore.constructFrom_destroyed, List.map_append,
          ObjectStore.map_snd_zipIdx]
        exact he.ledger.issue vs.length
      · rw [constructFrom, onMemory_objects hmem,
          ObjectStore.constructFrom_overwritten fun i hi _ => hraw i hi]
        exact he.overwritten
      · rw [constructFrom, onMemory_objects hmem, ObjectStore.constructFrom_strayed]
        exact he.strayed

/-! ### Exchanging the memory -/

theorem Stored.mRealSize_pos (hs : s.Stored B) {b : ℕ} (hbuf : s.buffer.mBuf = some b) :
    0 < s.buffer.mRealSize :=
  hs.isSome_iff.mp (by rw [hbuf]; rfl)

/-- The block that is given back is one of the old ones. -/
theorem Stored.freed_lt_of_exchanged {t : BufferState T} (hs : s.Stored B) {buf : Option ℕ}
    {chunk : ℕ} (h : s.Exchanged buf chunk t) : ∀ b ∈ t.heap.freed, b < s.heap.blocks := by
  intro b hb
  rw [h.freed, List.mem_append, Option.mem_toList] at hb
  rcases hb with hb | hb
  · unfold owned at hb
    split at hb
    · cases hb
    · exact (hs.block b hb).1
  · exact hs.freed_lt b hb

/-- `allocate(0)` leaves the buffer without memory. -/
theorem allocate_zero (hs : s.Stored B) :
    ∃ t, s.allocate B 0 = (true, t) ∧ t.Stored B ∧ t.buffer = ⟨none, s.buffer.mSize, 0⟩ ∧
      s.SameBooks t := by
  obtain ⟨t, hcall, hexchanged, hblocks⟩ := allocate_zero_exchanges B s
  obtain ⟨hbooks, hgrants⟩ := allocate_books hcall
  refine ⟨t, hcall, ⟨?_, ?_, ?_, hgrants ▸ hs.grants⟩, hexchanged.buffer, hbooks⟩
  · simp [hexchanged.buffer]
  · intro b hb
    simp [hexchanged.buffer] at hb
  · rw [hblocks]
    exact hs.freed_lt_of_exchanged hexchanged

/-- `allocate` with a request: a new block replaces the old one. -/
theorem allocate_pos (hs : s.Stored B) {chunk : ℕ} (hpos : 0 < chunk)
    (hfit : AllocFits B chunk) :
    ∃ t, s.allocate B chunk = (true, t) ∧ t.Stored B ∧
      t.buffer = ⟨some s.heap.blocks, s.buffer.mSize, chunk⟩ ∧
      (∀ i, t.slot i = if i < min s.buffer.mSize chunk then s.slot i else none) ∧
      s.SameBooks t := by
  obtain ⟨t, hcall, hexchanged, hblocks, hbytes, hslot⟩ :=
    allocate_exchanges (B := B) hpos (hs.grants s.heap.requests)
  obtain ⟨hbooks, hgrants⟩ := allocate_books hcall
  rw [wrap_of_lt (hfit hpos).1, wrap_of_lt (hfit hpos).2] at hbytes
  have hfreed := hs.freed_lt_of_exchanged hexchanged
  refine ⟨t, hcall, ⟨?_, ?_, ?_, hgrants ▸ hs.grants⟩, hexchanged.buffer, hslot ?_, hbooks⟩
  · simp [hexchanged.buffer, hpos]
  · intro b hb
    rw [hexchanged.buffer] at hb ⊢
    obtain rfl : s.heap.blocks = b := Option.some.inj hb
    exact ⟨by omega, fun hmem => lt_irrefl _ (hfreed _ hmem), hbytes⟩
  · intro b hb
    have := hfreed b hb
    omega
  · exact fun hold => lt_irrefl _ (hs.block _ hold).1

/-- **`allocate`.**  The objects that fit are in the new memory, and nothing
happened to them. -/
theorem allocate_spec (hs : s.Stored B) {chunk : ℕ} (hfit : AllocFits B chunk)
    (hslots : s.Slots objs) (hsize : objs.length ≤ s.buffer.mSize)
    (hchunk : objs.length ≤ chunk) :
    ∃ t, s.allocate B chunk = (true, t) ∧ t.Stored B ∧
      t.buffer.mSize = s.buffer.mSize ∧ t.buffer.mRealSize = chunk ∧
      t.Slots objs ∧ (s.Exact objs → t.Exact objs) := by
  rcases Nat.eq_zero_or_pos chunk with rfl | hpos
  · obtain rfl : objs = [] := List.eq_nil_of_length_eq_zero (by omega)
    obtain ⟨t, hcall, hstored, hbuffer, hbuilt, hdestroyed, hoverwritten, hstrayed⟩ :=
      allocate_zero hs
    refine ⟨t, hcall, hstored, by rw [hbuffer], by rw [hbuffer], Slots.nil, fun he => ?_⟩
    refine ⟨fun i _ => by rw [slot, hbuffer]; rfl, ?_, hoverwritten.trans he.overwritten,
      hstrayed.trans he.strayed⟩
    rw [hbuilt, hdestroyed]
    exact he.ledger
  · obtain ⟨t, hcall, hstored, hbuffer, hslot, hbuilt, hdestroyed, hoverwritten, hstrayed⟩ :=
      allocate_pos hs hpos hfit
    refine ⟨t, hcall, hstored, by rw [hbuffer], by rw [hbuffer], ?_, fun he => ?_⟩
    · intro i hi
      rw [hslot, if_pos (by omega)]
      exact hslots i hi
    · refine ⟨?_, ?_, hoverwritten.trans he.overwritten, hstrayed.trans he.strayed⟩
      · intro i hi
        rw [hslot]
        split
        · exact he.raw i hi
        · rfl
      · rw [hbuilt, hdestroyed]
        exact he.ledger

end BufferState

end Tklb
