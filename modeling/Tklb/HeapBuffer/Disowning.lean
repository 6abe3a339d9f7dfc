import Tklb.HeapBuffer.Borrowing
import Tklb.HeapBuffer.Ownership

/-!
# The assertion of `disown`

`inject` and both moves disown a buffer, and `disown` asserts that the buffer has
memory of its own, unless it is empty.  A buffer that has elements in memory which it
borrows fails the assertion, and so does one that has elements and no memory at all.

`asserted_iff_of_run` is about programs that also lend memory to their buffers: a run
meets the assertion at every step if and only if no buffer is injected into or moved
from while it is in one of these two states.  The ownership of blocks does not matter
here, and is not kept by such programs; what every call does keep is that owned memory
exists (`exec_wellOwned`).

### Main results

* `exec_wellOwned` — a call on one buffer, with any answer of the allocator.
* `AllWellOwned.step` — a call of a program of several buffers that also lends them memory.
* `asserted_iff_of_run` — a run passes the assertion at every step if and only if no buffer is
  moved from or injected into while its elements are not in memory of its own (`HoldsOwn`).

The condition is asked of every step with the state before it.  So the result tells a program
which of its calls is the first to fail, and not only that there is one.
-/

namespace Tklb

open Foundation HeapBuffer

/-- What elements the buffer has are in memory of its own.  A buffer without elements does, and so
does one that owns its memory; one that borrows does not, unless it borrows nothing. -/
def HeapBuffer.HoldsOwn (b : HeapBuffer) : Prop :=
  ¬ b.injected ∧ (b.mBuf = none → b.mSize = 0)

/-- Seen from the fields, that is the assertion of `disown`. -/
theorem HeapBuffer.disownAsserted_iff {b : HeapBuffer} (hwell : b.WellOwned) :
    b.disownAsserted ↔ b.HoldsOwn := by
  simp only [disownAsserted, HoldsOwn, injected, empty, Bool.or_eq_true, decide_eq_true_eq]
  constructor
  · rintro (hempty | hreal)
    · exact ⟨fun h => by omega, fun _ => hempty⟩
    · refine ⟨fun h => hreal h.1, fun hnone => ?_⟩
      have hsome := hwell hreal
      rw [hnone] at hsome
      cases hsome
  · rintro ⟨hinjected, hnone⟩
    by_contra hneither
    obtain ⟨hsize, hreal⟩ := not_or.mp hneither
    cases hbuf : b.mBuf with
    | none => exact hsize (hnone hbuf)
    | some r => exact hinjected ⟨not_not.mp hreal, Nat.pos_of_ne_zero hsize, by rw [hbuf]; rfl⟩

namespace BufferState

variable {T : Type} {B : BufferType} {s t : BufferState T}

/-! ### Owned memory exists -/

/-- Only the memory and the capacity matter. -/
theorem wellOwned_of_same (hwell : s.buffer.WellOwned) (hbuf : t.buffer.mBuf = s.buffer.mBuf)
    (hreal : t.buffer.mRealSize = s.buffer.mRealSize) : t.buffer.WellOwned := by
  unfold WellOwned
  rwa [hbuf, hreal]

/-- `allocate` -/
theorem allocate_wellOwned (hwell : s.buffer.WellOwned) (chunk : ℕ) :
    (s.allocate B chunk).2.buffer.WellOwned := by
  rcases Nat.eq_zero_or_pos chunk with rfl | hpos
  · obtain ⟨t, hcall, hexchanged, -⟩ := allocate_zero_exchanges B s
    rw [hcall, hexchanged.buffer]
    exact fun hne => absurd rfl hne
  · cases hgrant : s.heap.grants s.heap.requests with
    | false =>
        rw [allocate_refused hpos hgrant]
        exact hwell
    | true =>
        obtain ⟨t, hcall, hexchanged, -⟩ := allocate_exchanges (B := B) (s := s) hpos hgrant
        rw [hcall, hexchanged.buffer]
        exact fun _ => rfl

/-- `removeAt` -/
theorem removeAt_wellOwned (hwell : s.buffer.WellOwned) (i : ℕ) :
    (s.removeAt i).2.buffer.WellOwned := by
  rw [removeAt]
  split
  · exact hwell
  · -- only the number of elements changes
    dsimp only
    split
    · -- the last object moves to the free place
      rw [destroyFrom, onMemory_buffer]
      exact wellOwned_of_same hwell (by rw [onMemory_buffer]) (by rw [onMemory_buffer])
    · rw [destroyFrom]
      exact wellOwned_of_same hwell (by rw [onMemory_buffer]) (by rw [onMemory_buffer])

/-- `push` -/
theorem push_wellOwned (hwell : s.buffer.WellOwned) (object : T) :
    (s.push B object).2.buffer.WellOwned := by
  cases hcall : s.push B object with
  | mk ok t =>
      cases ok with
      | false =>
          have hkept := allocate_wellOwned (B := B) hwell
            (closestChunkSize B (wrap B.sizeBits (s.buffer.mSize + 1)) chunkSize)
          rwa [(push_false hcall).2] at hkept
      | true =>
          obtain ⟨s₁, ⟨-, hallocate⟩ | ⟨-, rfl⟩, rfl⟩ := push_true hcall
          · have hkept := allocate_wellOwned (B := B) hwell
              (closestChunkSize B (wrap B.sizeBits (s.buffer.mSize + 1)) chunkSize)
            rw [hallocate] at hkept
            exact hkept
          · exact hwell

section Sizing

variable [Inhabited T]

/-- `resize` -/
theorem resize_wellOwned (hwell : s.buffer.WellOwned) (n : ℕ) (downsize : Bool) :
    (s.resize B n downsize).2.buffer.WellOwned := by
  have htruncated : (s.truncate n).buffer.WellOwned := by rwa [truncate_buffer]
  rw [resize_eq]
  split
  · have hallocated := allocate_wellOwned (B := B) htruncated (closestChunkSize B n chunkSize)
    dsimp only
    split
    · exact wellOwned_of_same hallocated (by rw [extend_buffer]) (by rw [extend_buffer])
    · exact hallocated
  · exact wellOwned_of_same htruncated (by rw [extend_buffer]) (by rw [extend_buffer])

/-- `set` -/
theorem set_wellOwned (hwell : s.buffer.WellOwned) (data : List T) :
    (s.set B data).2.buffer.WellOwned := by
  have hemptied : (s.emptied B).buffer.WellOwned := by
    unfold emptied
    split
    · exact resize_wellOwned hwell 0 true
    · exact hwell
  have hresized := resize_wellOwned (B := B) hemptied data.length true
  cases hcall : s.set B data with
  | mk ok t =>
      cases ok with
      | false => rwa [set_false hcall] at hresized
      | true =>
          obtain ⟨s₂, hresize, rfl⟩ := set_true hcall
          rw [hresize] at hresized
          rwa [constructFrom, onMemory_buffer]

/-- `inject` leaves nothing to own. -/
theorem inject_wellOwned (hwell : s.buffer.WellOwned) (mem : Option ℕ) (n : ℕ) :
    (s.inject B mem n).buffer.WellOwned := by
  rw [inject_buffer hwell]
  exact fun hne => absurd rfl hne

/-- **Calls on one buffer.**  Whatever the allocator answers, owned memory exists.  A buffer with a
positive capacity has memory, since `allocate` sets the two together; no bound on sizes is needed
for that. -/
theorem exec_wellOwned [BEq T] (hwell : s.buffer.WellOwned) (c : BufferCall T) :
    (s.exec B c).2.buffer.WellOwned := by
  cases c with
  | set data => exact set_wellOwned hwell data
  | resize size downsize => exact resize_wellOwned hwell size downsize
  | reserve size =>
      show (s.reserve B size).2.buffer.WellOwned
      rw [reserve]
      split
      · exact hwell
      · exact allocate_wellOwned hwell size
  | push object => exact push_wellOwned hwell object
  | pop =>
      show s.pop.2.buffer.WellOwned
      rw [pop]
      split
      · exact hwell
      · exact hwell
  | removeAt index => exact removeAt_wellOwned hwell index
  | removeValue object =>
      show (s.removeValue object).2.buffer.WellOwned
      rw [removeValue]
      split
      · exact removeAt_wellOwned hwell _
      · exact hwell
  | removePointer object =>
      show (s.removePointer object).2.buffer.WellOwned
      rw [removePointer]
      split
      · exact removeAt_wellOwned hwell _
      · exact hwell
  | clear => exact resize_wellOwned (B := B) hwell 0 false

/-- After the memory was handed back, the assertion holds if and only if the elements were
in memory of the buffer's own before. -/
theorem handBack_asserted_iff (hwell : s.buffer.WellOwned) :
    (s.handBack B).buffer.disownAsserted ↔ s.buffer.HoldsOwn := by
  unfold handBack
  by_cases hcond : ¬ s.buffer.injected ∧ s.buffer.mBuf.isSome
  · obtain ⟨t, hcall, hbuffer, -⟩ := resize_zero_eq B s
    rw [if_pos hcond, hcall]
    refine iff_of_true (by rw [hbuffer]; rfl) ⟨hcond.1, fun hnone => ?_⟩
    rw [hnone] at hcond
    cases hcond.2
  · rw [if_neg hcond]
    exact disownAsserted_iff hwell

end Sizing

end BufferState

/-! ### Programs that lend memory -/

/-- The calls of a program that also lends memory to its buffers: `size` elements in the
block `mem`. -/
inductive LendingCall (T : Type)
  | call (c : ProgramCall T)
  | inject (i mem size : ℕ)

namespace BufferProgram

variable {T : Type} [Inhabited T] [BEq T] {B : BufferType} {p p' : BufferProgram T}

/-- Perform a call. -/
def execLending (B : BufferType) (p : BufferProgram T) : LendingCall T → Option (BufferProgram T)
  | .call c => p.exec B c
  | .inject i mem size =>
      (p.buffers i).map fun b => p.put i (BufferState.inject B ⟨p.heap, b⟩ (some mem) size)

/-- **The assertion of `disown`** holds in the call, or is not reached. -/
def Asserted (B : BufferType) (p : BufferProgram T) : LendingCall T → Prop
  | .call (.moveConstruct source) => ∀ b, p.buffers source = some b → b.disownAsserted
  | .call (.moveAssign _ source) => ∀ b, p.buffers source = some b → b.disownAsserted
  | .inject i _ _ => ∀ b, p.buffers i = some b →
      (BufferState.handBack B ⟨p.heap, b⟩).buffer.disownAsserted
  | _ => True

/-- The buffer that is moved from or injected into has its elements in memory of its
own. -/
def HoldsOwn (p : BufferProgram T) : LendingCall T → Prop
  | .call (.moveConstruct source) => ∀ b, p.buffers source = some b → b.HoldsOwn
  | .call (.moveAssign _ source) => ∀ b, p.buffers source = some b → b.HoldsOwn
  | .inject i _ _ => ∀ b, p.buffers i = some b → b.HoldsOwn
  | _ => True

/-- Memory that a buffer of the program owns exists. -/
def AllWellOwned (p : BufferProgram T) : Prop := ∀ i b, p.buffers i = some b → b.WellOwned

/-- **One call** keeps it.  Moving and injecting leave a buffer that owns nothing, and all other
calls are calls on one buffer. -/
theorem AllWellOwned.step {c : LendingCall T} (h : p.AllWellOwned)
    (hexec : p.execLending B c = some p') : p'.AllWellOwned := by
  have hput : ∀ {q : BufferProgram T} {i : ℕ} {b : HeapBuffer}, q.AllWellOwned → b.WellOwned →
      ∀ j b', Function.update q.buffers i (some b) j = some b' → b'.WellOwned := by
    intro q i b hq hb
    refine wellOwned_update hq ?_
    rintro b' ⟨⟩
    exact hb
  have hinitial : HeapBuffer.initial.WellOwned := fun hne => absurd rfl hne
  cases c with
  | inject i mem size =>
      obtain ⟨b, hb, rfl⟩ := Option.map_eq_some_iff.mp hexec
      exact hput h (BufferState.inject_wellOwned (h i b hb) (some mem) size)
  | call c =>
      cases c with
      | construct =>
          obtain rfl := Option.some.inj hexec
          exact hput h hinitial
      | constructSized size =>
          obtain rfl := Option.some.inj hexec
          refine hput h ?_
          rw [BufferState.constructSized]
          split
          · exact BufferState.resize_wellOwned hinitial size true
          · exact hinitial
      | constructData data =>
          obtain rfl := Option.some.inj hexec
          exact hput h (BufferState.set_wellOwned hinitial data)
      | moveConstruct source =>
          obtain ⟨b, hb, rfl⟩ := Option.map_eq_some_iff.mp hexec
          have hwell := h source b hb
          exact hput (q := p.put source ⟨p.heap, b.move.2⟩) (hput h (disown_wellOwned hwell)) hwell
      | moveAssign target source =>
          obtain ⟨a, -, hmap⟩ := Option.bind_eq_some_iff.mp hexec
          obtain ⟨b, hb, rfl⟩ := Option.map_eq_some_iff.mp hmap
          have hwell := h source b hb
          dsimp only
          split
          · exact hput h (disown_wellOwned hwell)
          · exact hput (q := p.put target ⟨p.heap, b.move.1⟩) (hput h hwell)
              (disown_wellOwned hwell)
      | on i c =>
          obtain ⟨b, hb, rfl⟩ := Option.map_eq_some_iff.mp hexec
          exact hput h (BufferState.exec_wellOwned (h i b hb) c)
      | destroy i =>
          obtain ⟨b, hb, rfl⟩ := Option.map_eq_some_iff.mp hexec
          refine wellOwned_update h fun b' hb' => ?_
          cases hb'

omit [BEq T] in
/-- At such a state the assertion can be read off the buffer. -/
theorem AllWellOwned.asserted_iff (h : p.AllWellOwned) (c : LendingCall T) :
    p.Asserted B c ↔ p.HoldsOwn c := by
  cases c with
  | inject i mem size =>
      exact forall₂_congr fun b hb => BufferState.handBack_asserted_iff (h i b hb)
  | call c =>
      cases c with
      | moveConstruct source =>
          exact forall₂_congr fun b hb => disownAsserted_iff (h source b hb)
      | moveAssign target source =>
          exact forall₂_congr fun b hb => disownAsserted_iff (h source b hb)
      | construct => exact Iff.rfl
      | constructSized size => exact Iff.rfl
      | constructData data => exact Iff.rfl
      | on i c => exact Iff.rfl
      | destroy i => exact Iff.rfl

/-- **The assertion never fails** in a run if and only if no buffer is moved from or
injected into while it has elements that are not in memory of its own.  Memory may be
injected any number of times, and the allocator may refuse any request. -/
theorem asserted_iff_of_run {grants : ℕ → Bool} {calls : List (LendingCall T)} :
    Run (Guarded (StepOf (execLending B)) (Asserted B)) (start grants) calls p ↔
      Run (Guarded (StepOf (execLending B)) HoldsOwn) (start grants) calls p :=
  Run.guarded_congr (I := AllWellOwned) (fun _ _ _ h hstep => h.step hstep)
    (fun _ c h => h.asserted_iff c) nofun

/-- A buffer that borrows: the assertion fails when memory is injected again, and when the
buffer is moved. -/
theorem not_asserted_while_borrowing :
    ∃ p : BufferProgram ℕ, Run (StepOf (execLending ⟨32, 64, 4, 16⟩)) (start fun _ => true)
        [.call (.constructSized 2), .call .construct, .inject 1 0 2] p ∧
      ¬ p.Asserted ⟨32, 64, 4, 16⟩ (.inject 1 0 2) ∧
      ¬ p.Asserted ⟨32, 64, 4, 16⟩ (.call (.moveConstruct 1)) := by
  refine ⟨_, Run.cons rfl (Run.cons rfl (Run.cons rfl (Run.nil _))), ?_, ?_⟩
  · intro hasserted
    exact absurd (hasserted _ rfl) (by decide)
  · intro hasserted
    exact absurd (hasserted _ rfl) (by decide)

end BufferProgram

end Tklb
