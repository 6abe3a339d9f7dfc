import Tklb.HeapBuffer.Allocation

/-!
# Arguments that point into the heap

`push(const T&)`, `remove(const T&)` and `set(const T*)` look at their argument in the
middle of their work.  This file says when that makes a difference.

The notion that carries it is `Foreign`: a block in use that is not the memory of the
buffer.  `allocate`, `resize` and the constructions in the buffer's own memory leave such a
block alone, and it stays foreign (`Spares`), so an argument in a foreign block reads the
same before and during the call.  The results are equations with the functions that take
values:

* `constructCopies_eq`, `setFrom_eq`, `pushFrom_eq` — an argument that is not on the heap
  or in a foreign block (`Argument.Outside`) may be read at any time;
* `setFrom_elsewhere`, `pushFrom_elsewhere` — so `set` and `push`, as the other files use
  them, are these functions for arguments that are not on the heap;
* `pushFrom_own`, `setFrom_own` — an argument in the memory that the call gives back is
  read when it is gone, and the call has no result.

Between the two there are the calls that do not give the memory back: `push` of an own
element while there is room (`pushFrom_of_room`), and `set` of no elements (`setFrom_nil`).
-/

namespace Tklb

open Foundation HeapBuffer

namespace Argument

variable {T : Type} {h h' : Heap T} {data : Argument T} {values : List T}

/-- The argument points to `values`.  What is behind the last one is of no interest, as the code is
told how many there are. -/
def Reads (h : Heap T) (data : Argument T) (values : List T) : Prop :=
  ∀ i < values.length, data.read h i = values[i]?

theorem reads_elsewhere : (elsewhere values).Reads h values := fun _ _ => rfl

/-- An argument is read from its own block. -/
theorem read_congr
    (hsame : ∀ b i, data = stored b i → h'.objects.slot b = h.objects.slot b) (i : ℕ) :
    data.read h' i = data.read h i := by
  cases data with
  | elsewhere values => rfl
  | stored b k => rw [read, read, hsame b k rfl]

/-- Behind the first value are the others. -/
theorem Reads.tail {v : T} {i : ℕ} (hread : ∀ j < (v :: values).length,
    data.read h (i + j) = (v :: values)[j]?) :
    data.read h i = some v ∧ ∀ j < values.length, data.read h (i + 1 + j) = values[j]? := by
  constructor
  · simpa using hread 0 (Nat.succ_pos _)
  · intro j hj
    have hnext := hread (j + 1) (Nat.succ_lt_succ hj)
    rwa [List.getElem?_cons_succ, ← Nat.add_assoc, Nat.add_right_comm] at hnext

end Argument

namespace BufferState

variable {T : Type} {B : BufferType} {s t u : BufferState T} {b : ℕ}

/-! ### Memory of others -/

/-- A block in use that is not the memory of the buffer.  The operations of the buffer can neither
write to it nor give it back. -/
def Foreign (s : BufferState T) (b : ℕ) : Prop :=
  s.buffer.mBuf ≠ some b ∧ b < s.heap.blocks

/-- A foreign block is as it was, and is still foreign.  Most operations do that to every foreign
block, which is what makes arguments in such blocks safe. -/
structure Spares (b : ℕ) (s t : BufferState T) : Prop where
  foreign : t.Foreign b
  slot : t.heap.objects.slot b = s.heap.objects.slot b

theorem Spares.refl (h : s.Foreign b) : Spares b s s := ⟨h, rfl⟩

theorem Spares.trans (h : Spares b s t) (h' : Spares b t u) : Spares b s u :=
  ⟨h'.foreign, h'.slot.trans h.slot⟩

/-- The size is not part of the memory. -/
theorem Spares.resized (h : Spares b s t) (n : ℕ) :
    Spares b s { t with buffer := { t.buffer with mSize := n } } :=
  ⟨h.foreign, h.slot⟩

theorem owned_ne_of_foreign (h : s.Foreign b) : s.buffer.owned ≠ some b := by
  unfold owned
  split
  · exact fun heq => nomatch heq
  · exact h.1

/-- **`allocate`** works in the old memory and in the new one.  A foreign block is neither of the
two, so it is spared whether the request is met or not. -/
theorem Foreign.allocate (h : s.Foreign b) (chunk : ℕ) :
    Spares b s (s.allocate B chunk).2 := by
  rcases Nat.eq_zero_or_pos chunk with rfl | hpos
  · obtain ⟨t, hcall, hexchanged, hblocks⟩ := allocate_zero_exchanges B s
    rw [hcall]
    refine ⟨⟨?_, ?_⟩, hexchanged.others b nofun (owned_ne_of_foreign h)⟩
    · rw [hexchanged.buffer]
      exact nofun
    · rw [hblocks]
      exact h.2
  · cases hgrant : s.heap.grants s.heap.requests with
    | false =>
        rw [allocate_refused hpos hgrant]
        exact ⟨h, rfl⟩
    | true =>
        obtain ⟨t, hcall, hexchanged, hblocks, -⟩ :=
          allocate_exchanges (B := B) (s := s) hpos hgrant
        have hnew : some s.heap.blocks ≠ some b := fun heq => h.2.ne' (Option.some.inj heq)
        rw [hcall]
        refine ⟨⟨?_, ?_⟩, hexchanged.others b hnew (owned_ne_of_foreign h)⟩
        · rw [hexchanged.buffer]
          exact hnew
        · rw [hblocks]
          exact Nat.lt_succ_of_lt h.2

/-- What is done in the buffer's own memory. -/
theorem Foreign.constructFrom (h : s.Foreign b) (lo : ℕ) (vs : List T) :
    Spares b s (s.constructFrom lo vs) := by
  obtain ⟨X, hX⟩ := onMemory_heap (s := s) fun objects b => objects.constructFrom b lo vs
  refine ⟨⟨?_, ?_⟩, funext fun i => constructFrom_frame (fun heq => absurd heq h.1) vs⟩
  · rw [BufferState.constructFrom, onMemory_buffer]
    exact h.1
  · rw [BufferState.constructFrom, hX]
    exact h.2

theorem Foreign.truncate (h : s.Foreign b) (n : ℕ) : Spares b s (s.truncate n) := by
  obtain ⟨X, hX⟩ := truncate_heap (s := s) n
  refine ⟨⟨?_, ?_⟩, truncate_frame (owned_ne_of_foreign h)⟩
  · rw [truncate_buffer]
    exact h.1
  · rw [hX]
    exact h.2

theorem Foreign.extend [Inhabited T] (h : s.Foreign b) (n : ℕ) : Spares b s (s.extend n) := by
  rw [extend_eq_grown]
  have hconstructed := h.constructFrom s.buffer.mSize
    (List.replicate (n - s.buffer.mSize) default)
  exact ⟨⟨h.1, hconstructed.foreign.2⟩, hconstructed.slot⟩

/-- **`resize`** works in the old memory and in the new one.  The loops that construct and destroy
are in the buffer's own memory as well. -/
theorem Foreign.resize [Inhabited T] (h : s.Foreign b) (n : ℕ) (downsize : Bool) :
    Spares b s (s.resize B n downsize).2 := by
  have htruncated := h.truncate n
  rw [resize_eq]
  split
  · have hallocated := htruncated.trans
      (htruncated.foreign.allocate (B := B) (closestChunkSize B n chunkSize))
    dsimp only
    split
    · exact hallocated.trans (hallocated.foreign.extend n)
    · exact hallocated
  · exact htruncated.trans (htruncated.foreign.extend n)

theorem Foreign.emptied [Inhabited T] (h : s.Foreign b) : Spares b s (s.emptied B) := by
  unfold BufferState.emptied
  split
  · exact h.resize 0 true
  · exact .refl h

end BufferState

/-! ### Arguments that may be read at any time -/

namespace Argument

variable {T : Type} {s t : BufferState T} {data : Argument T}

/-- The argument is not on the heap, or in a foreign block.  Then it is the same to read it now or
later. -/
def Outside (s : BufferState T) : Argument T → Prop
  | .elsewhere _ => True
  | .stored block _ => s.Foreign block

/-- An argument in spared memory reads as before, and stays outside. -/
theorem Outside.spared (h : data.Outside s)
    (hspares : ∀ b, s.Foreign b → BufferState.Spares b s t) :
    data.Outside t ∧ ∀ i, data.read t.heap i = data.read s.heap i := by
  cases data with
  | elsewhere values => exact ⟨trivial, fun _ => rfl⟩
  | stored b k =>
      have hkept := hspares b h
      refine ⟨hkept.foreign, read_congr fun b' k' heq => ?_⟩
      obtain ⟨rfl, rfl⟩ := Argument.stored.inj heq
      exact hkept.slot

end Argument

namespace BufferState

variable {T : Type} {B : BufferType} {s t : BufferState T} {data object : Argument T}
  {values : List T} {v : T}

theorem constructFrom_cons (lo : ℕ) (v : T) (vs : List T) :
    s.constructFrom lo (v :: vs) = (s.constructFrom lo [v]).constructFrom (lo + 1) vs := by
  obtain ⟨heap, mBuf, mSize, mRealSize⟩ := s
  cases mBuf with
  | none => rfl
  | some b => rfl

/-- **The copying loop** constructs the values the argument points to.  One value is read and then
one is constructed, but what is constructed is in the buffer's own memory, so the values behind it
still read the same. -/
theorem constructCopies_eq {lo : ℕ} (hread : ∀ i < values.length,
      data.read s.heap (lo + i) = values[i]?) (hout : data.Outside s) :
    constructCopies data values.length lo s = some (s.constructFrom lo values) := by
  induction values generalizing s lo with
  | nil => rw [constructFrom_nil, List.length_nil, constructCopies]
  | cons v values ih =>
      obtain ⟨hfirst, hrest⟩ := Argument.Reads.tail hread
      obtain ⟨hout', hkept⟩ := hout.spared fun b hb => hb.constructFrom lo [v]
      rw [List.length_cons, constructCopies, hfirst, Option.bind_some,
        ih (fun i hi => (hkept _).trans (hrest i hi)) hout', ← constructFrom_cons]

section set

variable [Inhabited T]

theorem setFrom_def (data : Argument T) (n : ℕ) :
    s.setFrom B data n =
      if ((s.emptied B).resize B n true).1 then
        (constructCopies data n 0 ((s.emptied B).resize B n true).2).map (true, ·)
      else some (false, ((s.emptied B).resize B n true).2) := rfl

/-- **`set`** from an argument outside the buffer's memory.  It is then the function of the values
that were there before the call, and always has a result. -/
theorem setFrom_eq (hread : data.Reads s.heap values) (hout : data.Outside s) :
    s.setFrom B data values.length = some (s.set B values) := by
  obtain ⟨hout', hkept⟩ := hout.spared (t := ((s.emptied B).resize B values.length true).2)
    fun b hb => hb.emptied.trans (hb.emptied.foreign.resize values.length true)
  rw [setFrom_def, set_eq]
  split
  · have hread' : ∀ i < values.length,
        data.read ((s.emptied B).resize B values.length true).2.heap (0 + i) = values[i]? := by
      intro i hi
      rw [hkept, Nat.zero_add]
      exact hread i hi
    rw [constructCopies_eq hread' hout', Option.map_some]
  · rfl

/-- Values that are not on the heap. -/
theorem setFrom_elsewhere (values : List T) :
    s.setFrom B (.elsewhere values) values.length = some (s.set B values) :=
  setFrom_eq Argument.reads_elsewhere trivial

/-- Without elements nothing is read. -/
theorem setFrom_nil (data : Argument T) : s.setFrom B data 0 = some (s.set B []) := by
  rw [setFrom_def, set_eq, List.length_nil, constructFrom_nil]
  split
  · rfl
  · rfl

end set

/-- **`push`** of an object outside the buffer's memory.  It is then the function of the value that
was there before the call, also where the memory is exchanged for it. -/
theorem pushFrom_eq (hread : object.Reads s.heap [v]) (hout : object.Outside s) :
    s.pushFrom B object = some (s.push B v) := by
  simp only [pushFrom, push]
  have hkept : object.read (if s.buffer.mRealSize < wrap B.sizeBits (s.buffer.mSize + 1) then
        s.allocate B (closestChunkSize B (wrap B.sizeBits (s.buffer.mSize + 1)) chunkSize)
      else (true, s)).2.heap 0 = some v := by
    refine Eq.trans ?_ (hread 0 Nat.one_pos)
    split
    · exact (hout.spared fun b hb => hb.allocate _).2 0
    · rfl
  generalize (if s.buffer.mRealSize < wrap B.sizeBits (s.buffer.mSize + 1) then
      s.allocate B (closestChunkSize B (wrap B.sizeBits (s.buffer.mSize + 1)) chunkSize)
    else (true, s)) = r at hkept ⊢
  split
  · rw [hkept, Option.map_some]
  · rfl

/-- An object that is not on the heap. -/
theorem pushFrom_elsewhere (v : T) :
    s.pushFrom B (.elsewhere [v]) = some (s.push B v) :=
  pushFrom_eq Argument.reads_elsewhere trivial

/-- While there is room the memory stays, and any object in it can be pushed. -/
theorem pushFrom_of_room (hread : object.Reads s.heap [v])
    (hroom : wrap B.sizeBits (s.buffer.mSize + 1) ≤ s.buffer.mRealSize) :
    s.pushFrom B object = some (s.push B v) := by
  have hfirst : object.read s.heap 0 = some v := hread 0 Nat.one_pos
  simp only [pushFrom, push, if_neg (Nat.not_lt_of_le hroom), if_true, hfirst,
    Option.map_some]

/-! ### Arguments that are read too late -/

/-- What was in the memory the buffer owned is gone. -/
theorem allocate_gone {chunk b : ℕ} (howned : s.buffer.owned = some b)
    (hcall : s.allocate B chunk = (true, t)) (i : ℕ) : t.heap.objects.slot b i = none := by
  by_cases hpos : 0 < chunk
  · cases hgrant : s.heap.grants s.heap.requests with
    | false =>
        rw [allocate_refused hpos hgrant] at hcall
        cases hcall
    | true =>
        obtain ⟨g, hg, -⟩ := Heap.allocate_of_grant hgrant
          (wrap B.pointerBits (wrap B.sizeBits (chunk * B.sizeofT) + B.alignment))
        rw [allocate, if_pos hpos] at hcall
        dsimp only at hcall
        rw [hg] at hcall
        obtain rfl := (Prod.mk.inj hcall).2
        have hheap := release_heap (s := s)
          (t := moveTo ⟨g, s.buffer⟩ s.heap.blocks chunk) rfl chunk
        rw [hheap, howned]
        exact ObjectStore.clear_slot_self
  · rw [allocate, if_neg hpos] at hcall
    obtain rfl := (Prod.mk.inj hcall).2
    have hheap := release_heap (s := s)
      (t := { s with buffer := { s.buffer with mBuf := none } }) rfl chunk
    rw [hheap, howned]
    exact ObjectStore.clear_slot_self

/-- **`push`** of an own element, when the memory is exchanged: there is no result. -/
theorem pushFrom_own {b : ℕ} (howned : s.buffer.owned = some b)
    (hfull : s.buffer.mRealSize < wrap B.sizeBits (s.buffer.mSize + 1))
    (hgrant : (s.allocate B
      (closestChunkSize B (wrap B.sizeBits (s.buffer.mSize + 1)) chunkSize)).1 = true)
    (k : ℕ) : s.pushFrom B (.stored b k) = none := by
  have hgone := allocate_gone (B := B) howned (Prod.ext hgrant rfl) (k + 0)
  simp only [pushFrom, if_pos hfull, hgrant, if_true, Argument.read, hgone, Option.map_none]

variable [Inhabited T]

/-- Before it resizes, `set` has given the memory back. -/
theorem emptied_gone {b : ℕ} (howned : s.buffer.owned = some b) (i : ℕ) :
    (s.emptied B).heap.objects.slot b i = none := by
  have hreal : s.buffer.mRealSize ≠ 0 := fun hzero => by
    rw [owned_of_zero hzero] at howned
    cases howned
  have hsome : s.buffer.mBuf.isSome := by
    rw [← owned_of_ne hreal, howned]
    rfl
  have hreallocates : Reallocates B s.buffer 0 true := by
    simp only [Reallocates, closestChunkSize, if_true, true_and]
    omega
  obtain ⟨t, hcall, -⟩ := resize_zero_eq B s
  rw [BufferState.emptied, if_pos hsome, hcall]
  obtain ⟨-, r, hallocate, rfl⟩ | ⟨hkeeps, -⟩ := resize_true hcall
  · rw [extend_eq_grown, Nat.zero_sub, List.replicate_zero, grown, constructFrom_nil]
    exact allocate_gone (by rwa [truncate_buffer]) hallocate i
  · exact absurd hreallocates hkeeps

/-- **`set`** from the buffer's own memory: there is no result.  The first thing `set` does is to
give the memory back, so as soon as there is new memory and an element to copy it reads a block that
is gone. -/
theorem setFrom_own {b n : ℕ} (howned : s.buffer.owned = some b) (hlt : b < s.heap.blocks)
    (hpos : 0 < n) (hgrant : ((s.emptied B).resize B n true).1 = true) (k : ℕ) :
    s.setFrom B (.stored b k) n = none := by
  have hreal : s.buffer.mRealSize ≠ 0 := fun hzero => by
    rw [owned_of_zero hzero] at howned
    cases howned
  obtain ⟨t, hcall, hbuffer, hblocks, -⟩ := resize_zero_eq B s
  have hforeign : (s.emptied B).Foreign b := by
    rw [BufferState.emptied, if_pos (by rw [← owned_of_ne hreal, howned]; rfl), hcall]
    refine ⟨?_, by rw [hblocks]; exact hlt⟩
    rw [hbuffer, if_neg hreal]
    exact nofun
  obtain ⟨n, rfl⟩ := Nat.exists_eq_succ_of_ne_zero hpos.ne'
  have hgone : ((s.emptied B).resize B n.succ true).2.heap.objects.slot b (k + 0) = none := by
    rw [(hforeign.resize n.succ true).slot]
    exact emptied_gone howned _
  rw [setFrom_def, if_pos hgrant, constructCopies, Argument.read, hgone]
  rfl

end BufferState

end Tklb
