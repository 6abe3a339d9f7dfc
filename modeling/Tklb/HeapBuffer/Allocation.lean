import Tklb.HeapBuffer

/-!
# What `allocate` and `resize` can do

Whatever state a buffer is in, whether it owns its memory or borrows it, whether a
size was wrapped and whether the allocator meets the request: `allocate` refuses and
changes nothing (`allocate_refused`), or it exchanges the memory for none
(`allocate_zero_exchanges`) or for a new block (`allocate_exchanges`).  `resize` is
`allocate` between two loops over slots (`resize_eq`).

The file is used where no invariant of the buffer can be assumed; what the operations
do to a buffer that owns its memory is in `Storage` and `Operations`.

### Main results

* `allocate_refused`, `allocate_zero_exchanges`, `allocate_exchanges` — the three outcomes of
  `allocate`.  There is no fourth, and each says what the state is afterwards in full.
* `resize_eq` — `resize` as `truncate`, then possibly `allocate`, then `extend`.

### What is load-bearing

`Exchanged` and `SameBooks` are the two frames.  `Exchanged` says of the heap that no memory but
the old and the new block is touched, `SameBooks` that no object is constructed or destroyed:
elements are moved as bytes.  All files that look at a failing allocator, at sizes that wrap or
at borrowed memory use the outcomes in this form and do not open `allocate`.
-/

namespace Tklb

open Foundation HeapBuffer

namespace HeapBuffer

/-- The block a buffer gives back. -/
def owned (b : HeapBuffer) : Option ℕ := if b.mRealSize = 0 then none else b.mBuf

/-- Memory that is owned exists.  A capacity without memory cannot come about, and all results about
owned memory start from there. -/
def WellOwned (b : HeapBuffer) : Prop := b.mRealSize ≠ 0 → b.mBuf.isSome

theorem owned_of_zero {b : HeapBuffer} (h : b.mRealSize = 0) : b.owned = none := if_pos h

theorem owned_of_ne {b : HeapBuffer} (h : b.mRealSize ≠ 0) : b.owned = b.mBuf := if_neg h

end HeapBuffer

namespace BufferState

variable {T : Type} {B : BufferType} {s t : BufferState T}

/-! ### `allocate` -/

/-- The memory `buf` of `chunk` elements was exchanged for the old one, which was given
back if it was owned; no other memory was touched. -/
structure Exchanged (s : BufferState T) (buf : Option ℕ) (chunk : ℕ) (t : BufferState T) :
    Prop where
  buffer : t.buffer = ⟨buf, s.buffer.mSize, chunk⟩
  freed : t.heap.freed = s.buffer.owned.toList ++ s.heap.freed
  others : ∀ b, buf ≠ some b → s.buffer.owned ≠ some b →
    t.heap.objects.slot b = s.heap.objects.slot b

/-- `release` gives back what the buffer owned before. -/
theorem release_heap (hreal : t.buffer.mRealSize = s.buffer.mRealSize) (chunk : ℕ) :
    (t.release s.buffer.mBuf chunk).heap =
      s.buffer.owned.elim t.heap fun old => t.heap.deallocate old := by
  by_cases hzero : s.buffer.mRealSize = 0
  · have hnot : ¬ 0 < t.buffer.mRealSize := by omega
    rw [owned_of_zero hzero]
    cases s.buffer.mBuf with
    | none => rfl
    | some old => simp [release, hnot]
  · have hinjected : t.buffer.injected = false := by
      simp only [injected, decide_eq_false_iff_not]
      omega
    have hpos : 0 < t.buffer.mRealSize := by omega
    rw [owned_of_ne hzero]
    cases s.buffer.mBuf with
    | none => rfl
    | some old => simp [release, hinjected, hpos]

/-- Giving a block back only touches that block. -/
theorem elim_deallocate (h : Heap T) (old : Option ℕ) :
    (old.elim h fun b => h.deallocate b).freed = old.toList ++ h.freed ∧
      (old.elim h fun b => h.deallocate b).blocks = h.blocks ∧
      (old.elim h fun b => h.deallocate b).bytes = h.bytes ∧
      ∀ b, old ≠ some b →
        (old.elim h fun b => h.deallocate b).objects.slot b = h.objects.slot b := by
  cases old with
  | none => exact ⟨rfl, rfl, rfl, fun _ _ => rfl⟩
  | some old =>
      refine ⟨rfl, rfl, rfl, fun b hb => ?_⟩
      exact ObjectStore.clear_slot_of_ne fun heq => hb (congrArg some heq.symm)

/-- The copy between the two memories touches the new one only. -/
theorem moveTo_heap (newBuf chunk : ℕ) :
    (s.moveTo newBuf chunk).heap.blocks = s.heap.blocks ∧
      (s.moveTo newBuf chunk).heap.freed = s.heap.freed ∧
      (s.moveTo newBuf chunk).heap.bytes = s.heap.bytes ∧
      ∀ b, b ≠ newBuf →
        (s.moveTo newBuf chunk).heap.objects.slot b = s.heap.objects.slot b := by
  unfold moveTo
  cases s.buffer.mBuf with
  | none => exact ⟨rfl, rfl, rfl, fun _ _ => rfl⟩
  | some old =>
      dsimp only
      split
      · refine ⟨rfl, rfl, rfl, fun b hb => ?_⟩
        simp [ObjectStore.copy, hb]
      · exact ⟨rfl, rfl, rfl, fun _ _ => rfl⟩

/-- What the copy leaves in the new memory, if that is raw. -/
theorem moveTo_slot {b : ℕ} (hraw : ∀ i, s.heap.objects.slot b i = none)
    (chunk i : ℕ) : (s.moveTo b chunk).heap.objects.slot b i =
      if i < min s.buffer.mSize chunk then s.slot i else none := by
  unfold moveTo slot
  cases s.buffer.mBuf with
  | none => simp [hraw]
  | some old =>
      dsimp only
      split
      · rw [ObjectStore.copy_slot_self, hraw]
        rfl
      · rw [hraw, if_neg (by omega)]

/-- A request the allocator does not meet. -/
theorem allocate_refused {chunk : ℕ} (hpos : 0 < chunk)
    (hrefused : s.heap.grants s.heap.requests = false) :
    s.allocate B chunk =
      (false, { s with heap := { s.heap with requests := s.heap.requests + 1 } }) := by
  simp [allocate, hpos, Heap.allocate, hrefused]

/-- An `allocate` that returns `false` was refused. -/
theorem allocate_false {chunk : ℕ} (h : s.allocate B chunk = (false, t)) :
    t = { s with heap := { s.heap with requests := s.heap.requests + 1 } } := by
  unfold allocate at h
  by_cases hpos : 0 < chunk
  · cases hgrant : s.heap.grants s.heap.requests with
    | false => simpa [hpos, Heap.allocate, hgrant] using h.symm
    | true => simp [hpos, Heap.allocate, hgrant] at h
  · simp [hpos] at h

/-- No memory is asked for. -/
theorem allocate_zero_exchanges (B : BufferType) (s : BufferState T) :
    ∃ t, s.allocate B 0 = (true, t) ∧ s.Exchanged none 0 t ∧ t.heap.blocks = s.heap.blocks := by
  refine ⟨_, rfl, ?_⟩
  have hheap := release_heap (s := s) (t := { s with buffer := { s.buffer with mBuf := none } })
    rfl 0
  obtain ⟨hfreed, hblocks, -, hothers⟩ := elim_deallocate s.heap s.buffer.owned
  refine ⟨⟨rfl, ?_, ?_⟩, ?_⟩
  · rw [hheap]
    exact hfreed
  · intro b _ hb
    rw [hheap]
    exact hothers b hb
  · rw [hheap]
    exact hblocks

/-- A request the allocator meets: the new block has the bytes that were asked for, and
the first elements are copied to it. -/
theorem allocate_exchanges {chunk : ℕ} (hpos : 0 < chunk)
    (hgrant : s.heap.grants s.heap.requests = true) :
    ∃ t, s.allocate B chunk = (true, t) ∧ s.Exchanged (some s.heap.blocks) chunk t ∧
      t.heap.blocks = s.heap.blocks + 1 ∧
      t.heap.bytes s.heap.blocks =
        wrap B.pointerBits (wrap B.sizeBits (chunk * B.sizeofT) + B.alignment) ∧
      (s.buffer.mBuf ≠ some s.heap.blocks → ∀ i,
        t.slot i = if i < min s.buffer.mSize chunk then s.slot i else none) := by
  obtain ⟨g, hg, hobjects, hblocks, hbytes, hfreed, -⟩ := Heap.allocate_of_grant hgrant
    (wrap B.pointerBits (wrap B.sizeBits (chunk * B.sizeofT) + B.alignment))
  rw [allocate, if_pos hpos]
  dsimp only
  rw [hg]
  refine ⟨_, rfl, ?_⟩
  obtain ⟨hblocks₁, hfreed₁, hbytes₁, hothers₁⟩ :=
    moveTo_heap (s := ⟨g, s.buffer⟩) s.heap.blocks chunk
  have hheap := release_heap (s := s) (t := moveTo ⟨g, s.buffer⟩ s.heap.blocks chunk) rfl chunk
  obtain ⟨hfreed₂, hblocks₂, hbytes₂, hothers₂⟩ :=
    elim_deallocate (moveTo ⟨g, s.buffer⟩ s.heap.blocks chunk).heap s.buffer.owned
  rw [← hheap] at hfreed₂ hblocks₂ hbytes₂ hothers₂
  refine ⟨⟨rfl, ?_, ?_⟩, ?_, ?_, ?_⟩
  · rw [hfreed₂, hfreed₁, hfreed]
  · intro b hnew hb
    have hne : b ≠ s.heap.blocks := fun heq => hnew (congrArg some heq.symm)
    rw [hothers₂ b hb, hothers₁ b hne, hobjects, ObjectStore.clear_slot_of_ne hne]
  · rw [hblocks₂, hblocks₁, hblocks]
  · rw [hbytes₂, hbytes₁, hbytes, Function.update_self]
  · intro hold i
    -- the block that is given back is another one
    have howned : s.buffer.owned ≠ some s.heap.blocks := by
      unfold owned
      split
      · exact fun h => nomatch h
      · exact hold
    have hcopied := moveTo_slot (s := ⟨g, s.buffer⟩) (b := s.heap.blocks)
      (fun i => by rw [hobjects, ObjectStore.clear_slot_self]) chunk i
    show (release _ _ _).heap.objects.slot s.heap.blocks i = _
    rw [hothers₂ _ howned, hcopied]
    congr 1
    unfold slot
    cases hbuf : s.buffer.mBuf with
    | none => rfl
    | some old =>
        have hne : old ≠ s.heap.blocks := fun heq => hold (by rw [hbuf, heq])
        simp only [hobjects, Option.bind_some]
        rw [ObjectStore.clear_slot_of_ne hne]

/-- What happened to objects so far is the same in both states.  Elements are moved as bytes, so
`allocate` alone constructs and destroys nothing. -/
def SameBooks (s t : BufferState T) : Prop :=
  t.heap.objects.built = s.heap.objects.built ∧
    t.heap.objects.destroyed = s.heap.objects.destroyed ∧
    t.heap.objects.overwritten = s.heap.objects.overwritten ∧
    t.heap.objects.strayed = s.heap.objects.strayed

theorem SameBooks.trans {r : BufferState T} (h : r.SameBooks s) (h' : s.SameBooks t) :
    r.SameBooks t :=
  ⟨h'.1.trans h.1, h'.2.1.trans h.2.1, h'.2.2.1.trans h.2.2.1, h'.2.2.2.trans h.2.2.2⟩

theorem release_books (oldBuf : Option ℕ) (chunk : ℕ) :
    s.SameBooks (s.release oldBuf chunk) ∧
      (s.release oldBuf chunk).heap.grants = s.heap.grants := by
  unfold release
  cases oldBuf with
  | none => exact ⟨⟨rfl, rfl, rfl, rfl⟩, rfl⟩
  | some old =>
      dsimp only
      split
      · exact ⟨⟨rfl, rfl, rfl, rfl⟩, rfl⟩
      · exact ⟨⟨rfl, rfl, rfl, rfl⟩, rfl⟩

theorem moveTo_books (newBuf chunk : ℕ) :
    s.SameBooks (s.moveTo newBuf chunk) ∧ (s.moveTo newBuf chunk).heap.grants = s.heap.grants := by
  unfold moveTo
  cases s.buffer.mBuf with
  | none => exact ⟨⟨rfl, rfl, rfl, rfl⟩, rfl⟩
  | some old =>
      dsimp only
      split
      · exact ⟨⟨rfl, rfl, rfl, rfl⟩, rfl⟩
      · exact ⟨⟨rfl, rfl, rfl, rfl⟩, rfl⟩

/-- `allocate` moves bytes: nothing happens to objects. -/
theorem allocate_books {chunk : ℕ} (h : s.allocate B chunk = (true, t)) :
    s.SameBooks t ∧ t.heap.grants = s.heap.grants := by
  by_cases hpos : 0 < chunk
  · cases hgrant : s.heap.grants s.heap.requests with
    | false =>
        rw [allocate_refused hpos hgrant] at h
        cases h
    | true =>
        obtain ⟨g, hg, hobjects, -, -, -, hgrants⟩ := Heap.allocate_of_grant hgrant
          (wrap B.pointerBits (wrap B.sizeBits (chunk * B.sizeofT) + B.alignment))
        rw [allocate, if_pos hpos] at h
        dsimp only at h
        rw [hg] at h
        obtain rfl := (Prod.mk.inj h).2
        have hgrown : s.SameBooks ⟨g, s.buffer⟩ := by
          unfold SameBooks
          rw [hobjects]
          exact ⟨rfl, rfl, rfl, rfl⟩
        obtain ⟨hmoved, hmoves⟩ := moveTo_books (s := ⟨g, s.buffer⟩) s.heap.blocks chunk
        obtain ⟨hreleased, hreleases⟩ :=
          release_books (s := moveTo ⟨g, s.buffer⟩ s.heap.blocks chunk) s.buffer.mBuf chunk
        exact ⟨(hgrown.trans hmoved).trans hreleased, (hreleases.trans hmoves).trans hgrants⟩
  · rw [allocate, if_neg hpos] at h
    obtain rfl := (Prod.mk.inj h).2
    exact release_books (s := { s with buffer := { s.buffer with mBuf := none } }) _ _

/-! ### `resize` -/

/-- What `resize` leaves before it exchanges the memory: objects behind the new size are
destroyed, unless the memory is borrowed. -/
def truncate (s : BufferState T) (n : ℕ) : BufferState T :=
  if n < s.buffer.mSize ∧ s.buffer.mBuf.isSome ∧ ¬ s.buffer.injected then
    s.destroyFrom n (s.buffer.mSize - n)
  else s

/-- What `resize` does afterwards: objects are constructed up to the new size. -/
def extend [Inhabited T] (s : BufferState T) (n : ℕ) : BufferState T :=
  let s₁ :=
    if s.buffer.mSize < n then
      s.constructFrom s.buffer.mSize (List.replicate (n - s.buffer.mSize) default)
    else s
  { s₁ with buffer := { s₁.buffer with mSize := n } }

/-- `resize` exchanges the memory.  The capacity is smaller than the rounded size, or it is larger
and the caller wants it reduced. -/
def Reallocates (B : BufferType) (b : HeapBuffer) (n : ℕ) (downsize : Bool) : Prop :=
  b.mRealSize < closestChunkSize B n chunkSize ∨
    (downsize ∧ closestChunkSize B n chunkSize < b.mRealSize)

instance (B : BufferType) (b : HeapBuffer) (n : ℕ) (downsize : Bool) :
    Decidable (Reallocates B b n downsize) :=
  inferInstanceAs (Decidable (_ ∨ _))

@[simp] theorem truncate_buffer (n : ℕ) : (s.truncate n).buffer = s.buffer := by
  unfold truncate
  split
  · exact onMemory_buffer
  · rfl

/-- Working on the objects of a block is not noticed by the allocator. -/
theorem onMemory_heap (f : ObjectStore T → ℕ → ObjectStore T) :
    ∃ X, (s.onMemory f).heap = { s.heap with objects := X } := by
  unfold onMemory
  split
  · exact ⟨s.heap.objects, rfl⟩
  · exact ⟨_, rfl⟩

theorem truncate_heap (n : ℕ) : ∃ X, (s.truncate n).heap = { s.heap with objects := X } := by
  unfold truncate
  split
  · exact onMemory_heap _
  · exact ⟨s.heap.objects, rfl⟩

/-- Destroying objects behind the new size is done in memory the buffer owns. -/
theorem truncate_frame {n b : ℕ} (h : s.buffer.owned ≠ some b) :
    (s.truncate n).heap.objects.slot b = s.heap.objects.slot b := by
  unfold truncate
  split
  · rename_i hcond
    obtain ⟨hlt, hsome, hinjected⟩ := hcond
    obtain ⟨old, hold⟩ := Option.isSome_iff_exists.mp hsome
    have hreal : s.buffer.mRealSize ≠ 0 := by
      intro hzero
      apply hinjected
      simp only [injected, decide_eq_true_eq]
      exact ⟨hzero, Nat.zero_lt_of_lt hlt, hsome⟩
    rw [owned_of_ne hreal, hold] at h
    rw [destroyFrom, onMemory_objects hold]
    exact ObjectStore.destroyFrom_slot_of_ne fun heq => h (congrArg some heq.symm)
  · rfl

/-- Constructing from `lo` on leaves the slots before, and other blocks. -/
theorem constructFrom_frame {lo b i : ℕ} (h : s.buffer.mBuf = some b → i < lo) (vs : List T) :
    (s.constructFrom lo vs).heap.objects.slot b i = s.heap.objects.slot b i := by
  cases hbuf : s.buffer.mBuf with
  | none => simp [constructFrom, onMemory, hbuf]
  | some old =>
      rw [constructFrom, onMemory_objects hbuf]
      by_cases hold : b = old
      · subst hold
        rw [ObjectStore.constructFrom_slot, if_neg]
        have := h hbuf
        omega
      · rw [ObjectStore.constructFrom_slot_of_ne hold]

theorem constructFrom_nil (lo : ℕ) : s.constructFrom lo [] = s := by
  unfold constructFrom onMemory
  split <;> rfl

/-- Objects are constructed behind the last one, and the size is set. -/
def grown (s : BufferState T) (vs : List T) (n : ℕ) : BufferState T :=
  ⟨(s.constructFrom s.buffer.mSize vs).heap, { s.buffer with mSize := n }⟩

theorem grown_heap (vs : List T) (n : ℕ) :
    ∃ X, (s.grown vs n).heap = { s.heap with objects := X } :=
  onMemory_heap _

theorem grown_frame {b i : ℕ} (h : s.buffer.mBuf = some b → i < s.buffer.mSize) (vs : List T)
    (n : ℕ) : (s.grown vs n).heap.objects.slot b i = s.heap.objects.slot b i :=
  constructFrom_frame h vs

theorem truncate_of_le {n : ℕ} (h : s.buffer.mSize ≤ n) : s.truncate n = s :=
  if_neg (by omega)

/-- Borrowed memory is left alone. -/
theorem truncate_of_injected {n : ℕ} (h : s.buffer.injected) : s.truncate n = s :=
  if_neg (by simp [h])

variable [Inhabited T]

/-- `extend` constructs nothing, or what is missing. -/
theorem extend_eq_grown (s : BufferState T) (n : ℕ) :
    s.extend n = s.grown (List.replicate (n - s.buffer.mSize) default) n := by
  unfold extend grown
  dsimp only
  split
  · rw [constructFrom, onMemory_buffer]
  · rw [show n - s.buffer.mSize = 0 by omega, List.replicate_zero, constructFrom_nil]

@[simp] theorem extend_buffer (n : ℕ) :
    (s.extend n).buffer = { s.buffer with mSize := n } := by
  rw [extend_eq_grown]
  rfl

/-- **`resize`**, put together from its three parts.  Objects are destroyed first and constructed
last, and in between the memory is exchanged if it has to be; if that fails the last part is left
out and the first one is not undone. -/
theorem resize_eq (B : BufferType) (s : BufferState T) (n : ℕ) (downsize : Bool) :
    s.resize B n downsize =
      if Reallocates B s.buffer n downsize then
        let r := (s.truncate n).allocate B (closestChunkSize B n chunkSize)
        if r.1 then (true, r.2.extend n) else (false, r.2)
      else (true, (s.truncate n).extend n) := by
  have hform : s.resize B n downsize =
      let r := if Reallocates B (s.truncate n).buffer n downsize then
          (s.truncate n).allocate B (closestChunkSize B n chunkSize)
        else (true, s.truncate n)
      if r.1 then (true, r.2.extend n) else (false, r.2) := rfl
  rw [hform, truncate_buffer]
  split
  · rfl
  · rfl

/-- A `resize` that returns `true`. -/
theorem resize_true {n : ℕ} {downsize : Bool} (h : s.resize B n downsize = (true, t)) :
    (Reallocates B s.buffer n downsize ∧ ∃ s₂,
      (s.truncate n).allocate B (closestChunkSize B n chunkSize) = (true, s₂) ∧
        t = s₂.extend n) ∨
    (¬ Reallocates B s.buffer n downsize ∧ t = (s.truncate n).extend n) := by
  rw [resize_eq] at h
  split at h
  · rename_i hreallocates
    refine Or.inl ⟨hreallocates, ?_⟩
    cases hcall : (s.truncate n).allocate B (closestChunkSize B n chunkSize) with
    | mk ok s₂ =>
        rw [hcall] at h
        cases ok with
        | false => cases h
        | true => exact ⟨s₂, rfl, (Prod.mk.inj h).2.symm⟩
  · rename_i hkeeps
    exact Or.inr ⟨hkeeps, (Prod.mk.inj h).2.symm⟩

/-- A `resize` that returns `false`. -/
theorem resize_false {n : ℕ} {downsize : Bool} (h : s.resize B n downsize = (false, t)) :
    Reallocates B s.buffer n downsize ∧
      (s.truncate n).allocate B (closestChunkSize B n chunkSize) = (false, t) := by
  rw [resize_eq] at h
  split at h
  · rename_i hreallocates
    refine ⟨hreallocates, ?_⟩
    cases hcall : (s.truncate n).allocate B (closestChunkSize B n chunkSize) with
    | mk ok s₂ =>
        rw [hcall] at h
        cases ok with
        | true => cases h
        | false => exact h
  · cases h

/-- Resizing to nothing succeeds, gives back what the buffer owns, and touches no other
memory. -/
theorem resize_zero_eq (B : BufferType) (s : BufferState T) :
    ∃ t, s.resize B 0 true = (true, t) ∧
      t.buffer = ⟨if s.buffer.mRealSize = 0 then s.buffer.mBuf else none, 0, 0⟩ ∧
      t.heap.blocks = s.heap.blocks ∧
      t.heap.freed = s.buffer.owned.toList ++ s.heap.freed ∧
      ∀ b, s.buffer.owned ≠ some b → t.heap.objects.slot b = s.heap.objects.slot b := by
  have hchunk : closestChunkSize B 0 chunkSize = 0 := if_pos rfl
  have hreallocates : Reallocates B s.buffer 0 true ↔ s.buffer.mRealSize ≠ 0 := by
    unfold Reallocates
    rw [hchunk]
    simp [Nat.pos_iff_ne_zero]
  obtain ⟨X, htruncate⟩ := truncate_heap (s := s) 0
  have hextend : ∀ r : BufferState T, r.extend 0 = ⟨r.heap, { r.buffer with mSize := 0 }⟩ := by
    intro r
    rw [extend_eq_grown, Nat.zero_sub, List.replicate_zero, grown, constructFrom_nil]
  rw [resize_eq]
  by_cases hzero : s.buffer.mRealSize = 0
  · rw [if_neg (fun h => hreallocates.mp h hzero), hextend, if_pos hzero]
    refine ⟨_, rfl, ?_, by rw [htruncate], ?_, fun b hb => truncate_frame hb⟩
    · dsimp only
      rw [truncate_buffer, hzero]
    · rw [htruncate, owned_of_zero hzero]
      rfl
  · obtain ⟨t, hcall, hexchanged, hblocks⟩ := allocate_zero_exchanges B (s.truncate 0)
    rw [if_pos (hreallocates.mpr hzero), hchunk, hcall, if_neg hzero]
    refine ⟨t.extend 0, rfl, ?_, ?_, ?_, ?_⟩
    · rw [hextend, hexchanged.buffer]
    · rw [hextend, hblocks, htruncate]
    · rw [hextend, hexchanged.freed, truncate_buffer, htruncate]
    · intro b hb
      rw [hextend, hexchanged.others b nofun (by rwa [truncate_buffer]), truncate_frame hb]

/-- It asks the allocator for nothing. -/
theorem resize_zero_requests (B : BufferType) (s : BufferState T) :
    (s.resize B 0 true).2.heap.requests = s.heap.requests ∧
      (s.resize B 0 true).2.heap.grants = s.heap.grants := by
  have hrelease : ∀ (r : BufferState T) old, (r.release old 0).heap.requests = r.heap.requests ∧
      (r.release old 0).heap.grants = r.heap.grants := by
    intro r old
    unfold release
    cases old with
    | none => exact ⟨rfl, rfl⟩
    | some old =>
        dsimp only
        split
        · exact ⟨rfl, rfl⟩
        · exact ⟨rfl, rfl⟩
  have hextend : ∀ r : BufferState T, (r.extend 0).heap = r.heap := by
    intro r
    rw [extend_eq_grown, Nat.zero_sub, List.replicate_zero, grown, constructFrom_nil]
  obtain ⟨X, htruncate⟩ := truncate_heap (s := s) 0
  have hchunk : closestChunkSize B 0 chunkSize = 0 := if_pos rfl
  rw [resize_eq, hchunk]
  split
  · show ((((s.truncate 0).allocate B 0).2.extend 0).heap.requests = _) ∧
      (((s.truncate 0).allocate B 0).2.extend 0).heap.grants = _
    rw [hextend, allocate, if_neg (Nat.lt_irrefl 0)]
    have hkept := hrelease
      { s.truncate 0 with buffer := { (s.truncate 0).buffer with mBuf := none } }
      (s.truncate 0).buffer.mBuf
    exact ⟨hkept.1.trans (by rw [htruncate]), hkept.2.trans (by rw [htruncate])⟩
  · exact ⟨by rw [hextend, htruncate], by rw [hextend, htruncate]⟩

/-! ### `push` and `set` -/

omit [Inhabited T] in
/-- A `push` that returns `true`. -/
theorem push_true {object : T} (h : s.push B object = (true, t)) :
    ∃ s₁, (s.buffer.mRealSize < wrap B.sizeBits (s.buffer.mSize + 1) ∧
        s.allocate B (closestChunkSize B (wrap B.sizeBits (s.buffer.mSize + 1)) chunkSize) =
          (true, s₁) ∨
      ¬ s.buffer.mRealSize < wrap B.sizeBits (s.buffer.mSize + 1) ∧ s₁ = s) ∧
      t = s₁.grown [object] (wrap B.sizeBits (s.buffer.mSize + 1)) := by
  unfold push at h
  dsimp only at h
  by_cases hlt : s.buffer.mRealSize < wrap B.sizeBits (s.buffer.mSize + 1)
  · rw [if_pos hlt] at h
    cases hcall : s.allocate B
        (closestChunkSize B (wrap B.sizeBits (s.buffer.mSize + 1)) chunkSize) with
    | mk ok s₁ =>
        rw [hcall] at h
        cases ok with
        | false => cases h
        | true =>
            refine ⟨s₁, Or.inl ⟨hlt, rfl⟩, ?_⟩
            rw [← (Prod.mk.inj h).2, grown, constructFrom, onMemory_buffer]
  · rw [if_neg hlt] at h
    refine ⟨s, Or.inr ⟨hlt, rfl⟩, ?_⟩
    rw [← (Prod.mk.inj h).2, grown, constructFrom, onMemory_buffer]

omit [Inhabited T] in
/-- A `push` that returns `false`. -/
theorem push_false {object : T} (h : s.push B object = (false, t)) :
    s.buffer.mRealSize < wrap B.sizeBits (s.buffer.mSize + 1) ∧
      s.allocate B (closestChunkSize B (wrap B.sizeBits (s.buffer.mSize + 1)) chunkSize) =
        (false, t) := by
  unfold push at h
  dsimp only at h
  by_cases hlt : s.buffer.mRealSize < wrap B.sizeBits (s.buffer.mSize + 1)
  · rw [if_pos hlt] at h
    refine ⟨hlt, ?_⟩
    cases hcall : s.allocate B
        (closestChunkSize B (wrap B.sizeBits (s.buffer.mSize + 1)) chunkSize) with
    | mk ok s₁ =>
        rw [hcall] at h
        cases ok with
        | true => cases h
        | false => exact h
  · rw [if_neg hlt] at h
    cases h

/-- What `set` leaves before it resizes. -/
def emptied (B : BufferType) (s : BufferState T) : BufferState T :=
  if s.buffer.mBuf.isSome then (s.resize B 0 true).2 else s

theorem set_eq (B : BufferType) (s : BufferState T) (data : List T) :
    s.set B data =
      if ((s.emptied B).resize B data.length true).1 then
        (true, ((s.emptied B).resize B data.length true).2.constructFrom 0 data)
      else (false, ((s.emptied B).resize B data.length true).2) := rfl

/-- A `set` that returns `true`. -/
theorem set_true {data : List T} (h : s.set B data = (true, t)) :
    ∃ s₂, (s.emptied B).resize B data.length true = (true, s₂) ∧
      t = s₂.constructFrom 0 data := by
  rw [set_eq] at h
  split at h
  · rename_i hok
    exact ⟨_, Prod.ext hok rfl, (Prod.mk.inj h).2.symm⟩
  · cases h

/-- A `set` that returns `false`. -/
theorem set_false {data : List T} (h : s.set B data = (false, t)) :
    (s.emptied B).resize B data.length true = (false, t) := by
  rw [set_eq] at h
  split at h
  · cases h
  · rename_i hok
    exact Prod.ext (Bool.not_eq_true _ ▸ hok) (Prod.mk.inj h).2

end BufferState

end Tklb
