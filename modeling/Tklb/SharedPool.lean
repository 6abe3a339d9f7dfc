import Tklb.FixedPool.Integrity
import Tklb.SpinLock

/-!
# A `FixedPool` that threads share

`allocate` and `deallocate` hold a `SpinLock` while they look at the headers of the pool, so
their accesses to the headers are steps of their own, between which other threads run.
`reallocate` does not take the lock: it reads the header of its block, writes the two headers of
a block that it cuts, and copies the payload, whatever the other threads do.  It calls
`allocate` and `deallocate` when the block is too small.

The model is the transition system of any number of threads that call the three functions and
store to their payloads.  A read or a write of a header word, of `allocatedSpace` or of a byte is
one atomic step, and so are the steps of the lock.  A word that the code reads twice in a row is
read once.

`live` is as in `PoolSession`: a pointer is there from when its block is counted until its block
is marked free.

### How the model is laid out

* `PoolPhase` has a constructor for every place between two accesses, with the variables the
  code has there; `exec` is what a thread does at each of them.
* `Disciplined` is what is asked of the threads, and `Undisturbed` what is asked of the
  scheduling. The second is needed because `reallocate` does not take the lock.
* `AtomicCall` and `PoolSession.AtomicStep` are the pool of a single thread; `effect` says at
  which access a call takes effect, and `Agrees` what the shared pool then has in common with
  it.

### What is load-bearing

The places where a call takes effect are chosen such that nothing written before them is seen by
anybody.  For `allocate` it is not the write that marks the block, but the count that follows
it, under the lock.
-/

namespace Tklb

open Foundation FixedPool

/-- Where a thread is in the code of the pool. -/
inductive PoolPhase
  /-- In no call. -/
  | outside
  /-- In `allocate(n)`, in the constructor of the guard. -/
  | entering (n : ℕ)
  /-- In front of `i < poolSize`. -/
  | scanning (n i : ℕ)
  /-- `block.size` is `0`, in front of reading `block.space`. -/
  | measuring (n i : ℕ)
  /-- In front of `freeBlock.size = 0`. -/
  | splitting (n i oldSize : ℕ)
  /-- In front of `freeBlock.space = oldSize - size`. -/
  | spacing (n i oldSize : ℕ)
  /-- In front of `block.size = size`. -/
  | marking (n i oldSize : ℕ)
  /-- In front of `allocatedSpace += size`. -/
  | counting (n i oldSize : ℕ)
  /-- In the destructor of the guard of `allocate`. -/
  | returning (result : Option ℕ)
  /-- In `deallocate(ptr)`, in the constructor of the guard. -/
  | freeing (ptr : ℕ)
  /-- In front of `block.space = block.size`. -/
  | releasing (ptr : ℕ)
  /-- In front of `allocatedSpace -= block.size`. -/
  | discounting (ptr : ℕ)
  /-- In front of `block.size = 0`. -/
  | unmarking (ptr : ℕ)
  /-- In the destructor of the guard of `deallocate`. -/
  | freed
  /-- In `reallocate(ptr, n)`, in front of reading `block.size`. -/
  | resizing (ptr n : ℕ)
  /-- In front of `block.size = newSize`. -/
  | shrinking (n : ℕ)
  /-- In front of `freeBlock.size = 0` in `reallocate`. -/
  | cutting (n : ℕ)
  /-- In front of `freeBlock.space = oldSize - newSize`. -/
  | resting (n : ℕ)
  /-- In `copy(ptr, newPtr, bytes)`, with `k` bytes done. -/
  | copying (newPtr k : ℕ)
  deriving DecidableEq

namespace PoolPhase

/-- The thread holds the lock. -/
def Locked : PoolPhase → Bool
  | .scanning _ _ | .measuring _ _ | .splitting _ _ _ | .spacing _ _ _ | .marking _ _ _
  | .counting _ _ _ | .returning _ | .releasing _ | .discounting _ | .unmarking _ | .freed => true
  | _ => false

/-- `reallocate` has begun to cut a block. -/
def Cuts : PoolPhase → Bool
  | .cutting _ | .resting _ => true
  | _ => false

/-- The thread is between two accesses to headers that belong together. -/
def Busy (phase : PoolPhase) : Bool := phase.Locked || phase.Cuts

end PoolPhase

/-- A thread: where it is, and the variables `ptr` and `oldSize` of the `reallocate` it is in. -/
structure PoolThread where
  phase : PoolPhase
  frame : Option (ℕ × ℕ)
  deriving DecidableEq

/-- The pointer that the call of a thread is about.  It is not to be used by others. -/
def PoolThread.uses (t : PoolThread) : Option ℕ :=
  match t.phase with
  | .freeing ptr | .releasing ptr | .discounting ptr | .unmarking ptr | .resizing ptr _ => some ptr
  | _ => t.frame.map Prod.fst

/-- A call. -/
inductive PoolRequest
  | allocate (n : ℕ)
  | deallocate (ptr : ℕ)
  | reallocate (ptr n : ℕ)

/-- An atomic step of a thread. -/
inductive SharedStep
  | call (request : PoolRequest)
  /-- `lock` reads the flag. -/
  | load
  /-- `lock` sets the flag. -/
  | store
  /-- The next access of the call. -/
  | advance
  /-- The destructor of the guard. -/
  | unlock
  /-- A thread in no call stores a byte. -/
  | write (ptr offset : ℕ) (byte : UInt8)

/-- The pool, its lock, the threads, and the pointers they may use.  Any number of threads; each has
its place in the code and the variables it has there, and everything else is shared. -/
structure SharedPool (A : Target) (ι : Type) where
  pool : FixedPool A
  mutex : SpinLock ι
  thread : ι → PoolThread
  live : List (ℕ × ℕ)

namespace SharedPool

variable {A : Target} {ι : Type} [DecidableEq ι]

/-- A pool that was just constructed. -/
def start (memory : ByteMemory) (size : ℕ) : SharedPool A ι :=
  ⟨.construct memory size, .start, fun _ => ⟨.outside, none⟩, []⟩

/-- `size` when `block.size` is set: the whole block, if the rest cannot hold a header. -/
def chosen (A : Target) (n oldSize : ℕ) : ℕ :=
  if oldSize ≤ wrap A.bits (realAllocation A n + A.ptrBytes) then oldSize else realAllocation A n

/-- Thread `i` goes on. -/
def setThread (s : SharedPool A ι) (i : ι) (t : PoolThread) : SharedPool A ι :=
  { s with thread := Function.update s.thread i t }

/-- Thread `i` goes on in its call. -/
def goto (s : SharedPool A ι) (i : ι) (phase : PoolPhase) : SharedPool A ι :=
  s.setThread i ⟨phase, (s.thread i).frame⟩

/-- The number is written to the word at offset `x`. -/
def writeWord (s : SharedPool A ι) (x value : ℕ) : SharedPool A ι :=
  { s with pool := { s.pool with memory := s.pool.memory.write x A.ptrBytes value } }

/-- A step of the lock, with which thread `i` goes on. -/
def onMutex (s : SharedPool A ι) (i : ι) (a : LockStep) (t : PoolThread) :
    Option (SharedPool A ι) :=
  (s.mutex.exec (i, a)).map fun mutex => { s.setThread i t with mutex := mutex }

/-- The pointer is handed out, or kept with another size. -/
def handOut (s : SharedPool A ι) (ptr n : ℕ) : SharedPool A ι :=
  { s with live := (ptr, n) :: s.live }

/-- The pointer is taken back. -/
def takeBack (s : SharedPool A ι) (ptr : ℕ) : SharedPool A ι :=
  { s with live := s.live.eraseP fun x => x.1 = ptr }

/-- Thread `i` enters a call. -/
def enter (s : SharedPool A ι) (i : ι) : PoolRequest → Option (SharedPool A ι)
  | .allocate n => if n = 0 then some s else s.onMutex i .lock ⟨.entering n, none⟩
  | .deallocate ptr => s.onMutex i .lock ⟨.freeing ptr, none⟩
  | .reallocate ptr n => some (s.setThread i ⟨.resizing ptr n, none⟩)

/-- The accesses of `allocate`. -/
def allocateStep (s : SharedPool A ι) (i : ι) : PoolPhase → Option (SharedPool A ι)
  | .scanning n j =>
      if j < s.pool.poolSize then
        if s.pool.sizeAt j = 0 then some (s.goto i (.measuring n j))
        else some (s.goto i (.scanning n (wrap A.bits (j + s.pool.sizeAt j))))
      else some (s.goto i (.returning none))
  | .measuring n j =>
      let space := s.pool.spaceAt j
      if realAllocation A n ≤ space then
        if space ≤ wrap A.bits (realAllocation A n + A.ptrBytes) then
          some (s.goto i (.marking n j space))
        else some (s.goto i (.splitting n j space))
      -- a free block without space was overrun
      else if space = 0 then some (s.goto i (.returning none))
      else some (s.goto i (.scanning n (wrap A.bits (j + space))))
  | .splitting n j oldSize =>
      some ((s.writeWord (j + realAllocation A n) 0).goto i (.spacing n j oldSize))
  | .spacing n j oldSize =>
      some ((s.writeWord (j + realAllocation A n + A.ptrBytes)
        (wsub A.bits oldSize (realAllocation A n))).goto i (.marking n j oldSize))
  | .marking n j oldSize =>
      some ((s.writeWord j (chosen A n oldSize)).goto i (.counting n j oldSize))
  | .counting n j oldSize =>
      let counted := { s with pool := { s.pool with
        allocatedSpace := wrap A.bits (s.pool.allocatedSpace + chosen A n oldSize) } }
      some ((counted.handOut (j + A.ptrBytes) n).goto i (.returning (some (j + A.ptrBytes))))
  | _ => none

/-- The accesses of `deallocate`. -/
def deallocateStep (s : SharedPool A ι) (i : ι) : PoolPhase → Option (SharedPool A ι)
  | .releasing ptr =>
      let block := ptr - A.ptrBytes
      some ((s.writeWord (block + A.ptrBytes) (s.pool.sizeAt block)).goto i (.discounting ptr))
  | .discounting ptr =>
      let discounted := { s with pool := { s.pool with
        allocatedSpace := wsub A.bits s.pool.allocatedSpace (s.pool.sizeAt (ptr - A.ptrBytes)) } }
      some (discounted.goto i (.unmarking ptr))
  | .unmarking ptr =>
      some (((s.writeWord (ptr - A.ptrBytes) 0).takeBack ptr).goto i .freed)
  | _ => none

/-- The accesses of `reallocate`. -/
def reallocateStep (s : SharedPool A ι) (i : ι) : PoolPhase → Option (ℕ × ℕ) →
    Option (SharedPool A ι)
  | .resizing ptr n, _ =>
      let oldSize := s.pool.sizeAt (ptr - A.ptrBytes)
      let newSize := reallocSize A n
      if newSize ≤ oldSize then
        -- a rest too small for a header stays with the block
        if oldSize ≤ wrap A.bits (newSize + A.ptrBytes) then
          some (((s.takeBack ptr).handOut ptr n).setThread i ⟨.outside, none⟩)
        else some (s.setThread i ⟨.shrinking n, some (ptr, oldSize)⟩)
      else if n = 0 then some (s.setThread i ⟨.outside, none⟩)
      else s.onMutex i .lock ⟨.entering n, some (ptr, oldSize)⟩
  | .shrinking n, some (ptr, _) =>
      some ((s.writeWord (ptr - A.ptrBytes) (reallocSize A n)).goto i (.cutting n))
  | .cutting n, some (ptr, _) =>
      some ((s.writeWord (ptr - A.ptrBytes + reallocSize A n) 0).goto i (.resting n))
  | .resting n, some (ptr, oldSize) =>
      let rest := ptr - A.ptrBytes + reallocSize A n
      let cut := s.writeWord (rest + A.ptrBytes) (wsub A.bits oldSize (reallocSize A n))
      some (((cut.takeBack ptr).handOut ptr n).setThread i ⟨.outside, none⟩)
  | .copying newPtr k, some (ptr, oldSize) =>
      -- the first parameter of `copy` is its destination
      if k < wsub A.bits oldSize A.ptrBytes then
        let memory := Function.update s.pool.memory (ptr + k) (s.pool.memory (newPtr + k))
        some ({ s with pool := { s.pool with memory := memory } }.goto i (.copying newPtr (k + 1)))
      else s.onMutex i .lock ⟨.freeing ptr, none⟩
  | _, _ => none

/-- The next access of the call that thread `i` is in. -/
def advance (s : SharedPool A ι) (i : ι) : Option (SharedPool A ι) :=
  let t := s.thread i
  match t.phase with
  | .releasing _ | .discounting _ | .unmarking _ => s.deallocateStep i t.phase
  | .resizing _ _ | .shrinking _ | .cutting _ | .resting _ | .copying _ _ =>
      s.reallocateStep i t.phase t.frame
  | phase => s.allocateStep i phase

/-- Where a thread goes on after `allocate`. -/
def afterAllocate (result : Option ℕ) (frame : Option (ℕ × ℕ)) : PoolThread :=
  match result, frame with
  | some newPtr, some _ => ⟨.copying newPtr 0, frame⟩
  | _, _ => ⟨.outside, none⟩

/-- One atomic step of thread `i`. -/
def exec (s : SharedPool A ι) : ι × SharedStep → Option (SharedPool A ι)
  | (i, .call request) => if (s.thread i).phase = .outside then s.enter i request else none
  | (i, .load) => s.onMutex i .load (s.thread i)
  | (i, .store) =>
      match (s.thread i).phase with
      | .entering n => s.onMutex i .store ⟨.scanning n 0, (s.thread i).frame⟩
      | .freeing ptr => s.onMutex i .store ⟨.releasing ptr, none⟩
      | _ => none
  | (i, .advance) => s.advance i
  | (i, .unlock) =>
      match (s.thread i).phase with
      | .returning result => s.onMutex i .unlock (afterAllocate result (s.thread i).frame)
      | .freed => s.onMutex i .unlock ⟨.outside, none⟩
      | _ => none
  | (i, .write ptr offset byte) =>
      if (s.thread i).phase = .outside then
        let memory := Function.update s.pool.memory (ptr + offset) byte
        some { s with pool := { s.pool with memory := memory } }
      else none

/-- The steps of the threads, in any interleaving. -/
abbrev Step : SharedPool A ι → ι × SharedStep → SharedPool A ι → Prop := StepOf exec

/-! ### What the threads promise, and what the lock has to -/

/-- The pointer is live, for `r` bytes, and in no call.  Only such a pointer may be passed to a call
or stored through, and by whichever thread. -/
def Owned (s : SharedPool A ι) (ptr r : ℕ) : Prop :=
  (ptr, r) ∈ s.live ∧ ∀ i, (s.thread i).uses ≠ some ptr

/-- **The discipline of the threads.**  They use live pointers that are in no other call, store
inside of what they have requested, and request sizes that `Size` can hold. -/
def Disciplined (s : SharedPool A ι) : ι × SharedStep → Prop
  | (_, .call (.allocate n)) => n + 3 * A.ptrBytes ≤ 2 ^ A.bits
  | (_, .call (.deallocate ptr)) => ∃ r, s.Owned ptr r
  | (_, .call (.reallocate ptr n)) => (∃ r, s.Owned ptr r) ∧ n + 3 * A.ptrBytes < 2 ^ A.bits
  | (_, .write ptr offset _) => ∃ r, s.Owned ptr r ∧ offset < r
  | _ => True

/-- **The side condition.**  Who claims the lock finds it free and no block half cut, and who begins
to cut a block finds no other thread at the headers. -/
def Undisturbed (s : SharedPool A ι) : ι × SharedStep → Prop
  | (_, .store) => s.mutex.mSpinLock = false ∧ ∀ j, (s.thread j).phase.Cuts = false
  | (i, .advance) => ∀ n, (s.thread i).phase = .shrinking n →
      ∀ j, (s.thread j).phase.Busy = false
  | _ => True

/-- A step of a run that behaves. -/
def Orderly (s : SharedPool A ι) (l : ι × SharedStep) : Prop := s.Disciplined l ∧ s.Undisturbed l

end SharedPool

/-! ### The atomic calls -/

/-- A call of a single thread, or a byte that `reallocate` copies. -/
inductive AtomicCall
  | call (call : PoolCall)
  | copy (ptr offset : ℕ) (byte : UInt8)

/-- The pool of a single thread, in which `reallocate` to more than the block has is a call of
`allocate`, a copy and a call of `deallocate`.  What is copied may be behind the requested bytes,
but not behind the block. -/
inductive PoolSession.AtomicStep {A : Target} (s : PoolSession A) :
    AtomicCall → PoolSession A → Prop
  | call {c : PoolCall} {t : PoolSession A} (hstep : PoolSession.Step s c t) :
      AtomicStep s (.call c) t
  | copy {ptr r offset : ℕ} {byte : UInt8} (hlive : (ptr, r) ∈ s.live)
      (hin : ptr + offset < s.payloadEnd ptr) :
      AtomicStep s (.copy ptr offset byte)
        ⟨{ s.pool with memory := Function.update s.pool.memory (ptr + offset) byte }, s.live⟩

namespace SharedPool

variable {A : Target} {ι : Type} [DecidableEq ι]

/-- The atomic call with which an access takes effect. -/
def advanceEffect (s : SharedPool A ι) (i : ι) : Option AtomicCall :=
  match (s.thread i).phase, (s.thread i).frame with
  | .scanning n j, _ => if j < s.pool.poolSize then none else some (.call (.allocate n))
  | .measuring n j, _ =>
      if s.pool.spaceAt j < realAllocation A n ∧ s.pool.spaceAt j = 0 then
        some (.call (.allocate n))
      else none
  | .counting n _ _, _ => some (.call (.allocate n))
  | .unmarking ptr, _ => some (.call (.deallocate ptr))
  | .resizing ptr n, _ =>
      let oldSize := s.pool.sizeAt (ptr - A.ptrBytes)
      if reallocSize A n ≤ oldSize ∧ oldSize ≤ wrap A.bits (reallocSize A n + A.ptrBytes) then
        some (.call (.reallocate ptr n))
      else none
  | .resting n, some (ptr, _) => some (.call (.reallocate ptr n))
  | .copying newPtr k, some (ptr, oldSize) =>
      if k < wsub A.bits oldSize A.ptrBytes then
        some (.copy ptr k (s.pool.memory (newPtr + k)))
      else none
  | _, _ => none

/-- The atomic call with which a step takes effect.  `allocate(0)` returns at once. -/
def effect (s : SharedPool A ι) : ι × SharedStep → Option AtomicCall
  | (_, .call (.allocate 0)) => some (.call (.allocate 0))
  | (i, .advance) => s.advanceEffect i
  | (_, .write ptr offset byte) => some (.call (.store ptr offset byte))
  | _ => none

/-- The atomic calls of a run from `s`, in the order in which they take effect. -/
def calls (s : SharedPool A ι) (steps : List (ι × SharedStep)) : List AtomicCall :=
  effects exec effect s steps

/-- **The shared pool `s` as a single thread would have it**, with the pool `S`.  The same pointers
are live.  When no thread is at the headers the bytes are the same, and always those of the
payloads that are in no call.  The payloads are apart, and inside the pool. -/
structure Agrees (s : SharedPool A ι) (S : PoolSession A) : Prop where
  live : S.live = s.live
  quiet : (∀ i, (s.thread i).phase.Busy = false) → s.pool = S.pool
  bytes : ∀ x ∈ s.live, (∀ i, (s.thread i).uses ≠ some x.1) →
    ByteMemory.AgreeOn S.pool.memory s.pool.memory x.1 (x.1 + x.2)
  apart : s.live.Pairwise fun x y => x.1 + x.2 ≤ y.1 ∨ y.1 + y.2 ≤ x.1
  inside : ∀ x ∈ s.live, x.1 + x.2 ≤ S.pool.poolSize

end SharedPool

end Tklb
