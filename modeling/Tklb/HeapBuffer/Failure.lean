import Tklb.HeapBuffer.Allocation

/-!
# What a failed call leaves behind

When the allocator refuses, `resize`, `reserve`, `push` and `set` return `false`.  The
refused request itself changes nothing (`allocate_false`); what matters is what was done
before it.  `reserve` and `push` do nothing before; `resize` destroys the objects behind
the new size, also when it asks for a smaller block; and `set` gives back all there is.

### Main results

* `resize_unchanged_iff` and `set_unchanged_iff` — the two operations that do something before
  they ask for memory.
* `unchanged_iff_destroysNothing` — for every call that returns `false`, whatever the allocator
  answered before: the buffer is as it was if and only if nothing was destroyed first.

### What is load-bearing

What a program can observe of a destroyed object is what its destructor does, so the results are
about the objects and not about their bytes.  An element type with a destructor that does
nothing cannot tell; one that gives back memory of its own can, and the next use of such an
element is a use of memory that is gone.
-/

namespace Tklb

open Foundation HeapBuffer

namespace BufferState

variable {T : Type} {B : BufferType} {s t : BufferState T}

/-- The buffer owns its memory, if it has any, and its elements live there.  Less than `Holds`:
nothing is said about which objects these are, nor about the allocator. -/
structure Owning (s : BufferState T) : Prop where
  isSome_iff : s.buffer.mBuf.isSome ↔ 0 < s.buffer.mRealSize
  room : s.buffer.mSize ≤ s.buffer.mRealSize
  live : ∀ i < s.buffer.mSize, ∃ x, s.slot i = some x

/-- The buffer has the size, the capacity and the block it had, and its elements are the
objects they were. -/
structure Unchanged (s t : BufferState T) : Prop where
  buffer : t.buffer = s.buffer
  elements : ∀ i < s.buffer.mSize, t.slot i = s.slot i

/-- Nothing is destroyed before the memory is asked for.  It is read off the call and the state
before it, and says nothing about the answer of the allocator. -/
def DestroysNothing (s : BufferState T) : BufferCall T → Prop
  | .resize size _ => s.buffer.mSize ≤ size
  | .set _ => s.buffer.mBuf = none
  | _ => True

/-- Only the number of requests is different. -/
theorem Unchanged.of_refused {chunk : ℕ} (h : s.allocate B chunk = (false, t)) :
    s.Unchanged t := by
  rw [allocate_false h]
  exact ⟨rfl, fun _ _ => rfl⟩

theorem Unchanged.refl (s : BufferState T) : s.Unchanged s := ⟨rfl, fun _ _ => rfl⟩

/-- The `remove` overloads return `false` when there is nothing to remove. -/
theorem removeAt_false {i : ℕ} (h : s.removeAt i = (false, t)) : t = s := by
  unfold removeAt at h
  split at h
  · exact (Prod.mk.inj h).2.symm
  · cases h

theorem removeValue_false [BEq T] {object : T} (h : s.removeValue object = (false, t)) :
    t = s := by
  unfold removeValue at h
  split at h
  · exact removeAt_false h
  · exact (Prod.mk.inj h).2.symm

theorem removePointer_false {object : ℕ × ℕ} (h : s.removePointer object = (false, t)) :
    t = s := by
  unfold removePointer at h
  split at h
  · exact removeAt_false h
  · exact (Prod.mk.inj h).2.symm

/-- A `resize` that fails has destroyed the objects behind the new size. -/
theorem resize_false_slot [Inhabited T] (h : s.Owning) {n : ℕ} {downsize : Bool}
    (hn : n < s.buffer.mSize) (hcall : s.resize B n downsize = (false, t)) :
    t.slot n = none := by
  have hroom := h.room
  obtain ⟨b, hb⟩ := Option.isSome_iff_exists.mp (h.isSome_iff.mpr (by omega))
  have howned : s.buffer.injected = false := by
    simp only [injected, decide_eq_false_iff_not]
    omega
  have htruncate : s.truncate n = s.destroyFrom n (s.buffer.mSize - n) :=
    if_pos ⟨hn, by rw [hb]; rfl, by simp [howned]⟩
  have hslot : (s.truncate n).slot n = none := by
    rw [htruncate, destroyFrom, onMemory_slot hb, ObjectStore.destroyFrom_slot,
      if_pos (by omega)]
  rw [allocate_false (resize_false hcall).2]
  exact hslot

/-- **`resize`**.  A failed resize to a smaller size has destroyed the objects behind it already;
one to the same size or a larger one has done nothing yet. -/
theorem resize_unchanged_iff [Inhabited T] (h : s.Owning) {n : ℕ} {downsize : Bool}
    (hcall : s.resize B n downsize = (false, t)) : s.Unchanged t ↔ s.buffer.mSize ≤ n := by
  constructor
  · intro hsame
    by_contra hlt
    obtain ⟨x, hx⟩ := h.live n (by omega)
    have hgone := resize_false_slot h (by omega) hcall
    rw [hsame.elements n (by omega), hx] at hgone
    cases hgone
  · intro hle
    have hrefused := (resize_false hcall).2
    rw [truncate_of_le hle] at hrefused
    exact .of_refused hrefused

/-- **`set`**.  A `set` that fails has given back the memory and destroyed the elements, unless
there was no memory to begin with. -/
theorem set_unchanged_iff [Inhabited T] (h : s.Owning) {data : List T}
    (hcall : s.set B data = (false, t)) : s.Unchanged t ↔ s.buffer.mBuf = none := by
  have hresize := set_false hcall
  unfold emptied at hresize
  cases hbuf : s.buffer.mBuf with
  | none =>
      have hreal : ¬ 0 < s.buffer.mRealSize := fun hpos => by
        have := h.isSome_iff.mpr hpos
        rw [hbuf] at this
        cases this
      have hroom := h.room
      rw [hbuf, if_neg (by simp)] at hresize
      exact ⟨fun _ => rfl, fun _ => (resize_unchanged_iff h hresize).mpr (by omega)⟩
  | some b =>
      -- the memory is already given back
      obtain ⟨s₁, hempty, hbuffer, -⟩ := resize_zero_eq B s
      have hreal := h.isSome_iff.mp (by rw [hbuf]; rfl)
      rw [hbuf, if_pos (by rfl), hempty] at hresize
      have hlost : t.buffer.mBuf = none := by
        rw [allocate_false (resize_false hresize).2]
        show (s₁.truncate data.length).buffer.mBuf = none
        rw [truncate_buffer, hbuffer, if_neg hreal.ne']
      refine ⟨fun hsame => ?_, fun hcontra => by cases hcontra⟩
      rw [hsame.buffer, hbuf] at hlost
      cases hlost

/-- **A failed call.**  Whatever the allocator answers: a call on a buffer that owns its
memory and returns `false` leaves the buffer and its elements as they were if and only
if it destroys nothing before it asks for memory. -/
theorem unchanged_iff_destroysNothing [Inhabited T] [BEq T] (h : s.Owning) {c : BufferCall T}
    (hcall : s.exec B c = (.flag false, t)) : s.Unchanged t ↔ s.DestroysNothing c := by
  cases c with
  | set data =>
      have hset : s.set B data = (false, t) := by simpa [exec, Prod.ext_iff] using hcall
      exact set_unchanged_iff h hset
  | resize size downsize =>
      have hresize : s.resize B size downsize = (false, t) := by
        simpa [exec, Prod.ext_iff] using hcall
      exact resize_unchanged_iff h hresize
  | reserve size =>
      have hreserve : s.reserve B size = (false, t) := by
        simpa [exec, Prod.ext_iff] using hcall
      rw [reserve] at hreserve
      split at hreserve
      · cases hreserve
      · exact iff_of_true (.of_refused hreserve) trivial
  | push object =>
      have hpush : s.push B object = (false, t) := by simpa [exec, Prod.ext_iff] using hcall
      exact iff_of_true (.of_refused (push_false hpush).2) trivial
  | removeAt index =>
      obtain rfl := removeAt_false (s := s) (by simpa [exec, Prod.ext_iff] using hcall)
      exact iff_of_true (.refl _) trivial
  | removeValue object =>
      obtain rfl := removeValue_false (s := s) (by simpa [exec, Prod.ext_iff] using hcall)
      exact iff_of_true (.refl _) trivial
  | removePointer object =>
      obtain rfl := removePointer_false (s := s) (by simpa [exec, Prod.ext_iff] using hcall)
      exact iff_of_true (.refl _) trivial
  | pop => simp [exec] at hcall
  | clear => simp [exec] at hcall

/-- A `push` that fails: sixteen elements fill the only block there is. -/
theorem unchanged_push_refused :
    let s : BufferState ℕ :=
      (resize ⟨32, 64, 4, 0⟩ ⟨.initial fun k => k = 0, .initial⟩ 16 true).2
    ∃ t, s.exec ⟨32, 64, 4, 0⟩ (.push 7) = (.flag false, t) ∧ s.Unchanged t := by
  intro s
  have howning : s.Owning := ⟨by decide, by decide, fun i hi =>
    Option.isSome_iff_exists.mp ((by decide : ∀ i < 16, (s.slot i).isSome) i hi)⟩
  have hrefused : (s.push ⟨32, 64, 4, 0⟩ 7).1 = false := by decide
  have hcall : s.exec ⟨32, 64, 4, 0⟩ (.push 7) = (.flag false, (s.push ⟨32, 64, 4, 0⟩ 7).2) :=
    Prod.ext (congrArg Reply.flag hrefused) rfl
  exact ⟨_, hcall, (unchanged_iff_destroysNothing howning hcall).mpr trivial⟩

/-- A `resize` from seventeen elements to three that finds no smaller block: it returns
`false`, the size is still seventeen, and the fourth element is gone.  The elements are of a
type of four bytes with a destructor that does something, which has been called for it. -/
theorem not_unchanged_resize_refused :
    let s : BufferState ℕ :=
      (resize ⟨32, 64, 4, 0⟩ ⟨.initial fun k => k = 0, .initial⟩ 17 true).2
    s.Owning ∧ ∃ t, s.exec ⟨32, 64, 4, 0⟩ (.resize 3 true) = (.flag false, t) ∧
      t.buffer.mSize = 17 ∧ t.slot 3 = none ∧ ¬ s.Unchanged t := by
  intro s
  refine ⟨⟨by decide, by decide, fun i hi =>
    Option.isSome_iff_exists.mp ((by decide : ∀ i < 17, (s.slot i).isSome) i hi)⟩,
    _, rfl, rfl, rfl, fun hsame => ?_⟩
  have hlost : s.slot 3 = none := (hsame.elements 3 (by decide)).symm.trans rfl
  cases hlost

end BufferState

end Tklb
