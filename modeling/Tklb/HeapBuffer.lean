import Tklb.Foundation.ObjectStore
import Tklb.Foundation.Unsigned

/-!
# `HeapBuffer`

A growing array.  `mBuf` is the memory, `mSize` the number of elements and
`mRealSize` the number of elements the memory has room for; `mRealSize = 0` says
that the memory is borrowed and not given back by the buffer.

This file is the model of the class.  A block of memory is named by the order in
which it was obtained, `none` is `nullptr`.  Elements are objects: they live in
the slots of a block (`ObjectStore`), are constructed and destroyed by explicit
calls, and `memory::copy` moves their bytes.  The allocator answers each request
from a script (`grants`), so it may fail at any point.  Memory that is borrowed is a
block like any other, obtained by somebody else.

### Arguments

`push` and `remove` take a `const T&`, `set` a `const T*`, and `pop` a `T*`.  All four
may point into the heap, also into the memory of the buffer itself, and what they find
there depends on when they look: `push` reads its argument after `allocate` has given
back the old block, `set` reads while the new elements are constructed, after `resize(0)`
has given back everything.  An `Argument` is therefore a place, `Argument.read` looks into
the heap at that moment, and `pushFrom`, `setFrom`, `removeFrom` and `popInto` have no
result where the source reads memory that is raw or was given back.

`push`, `set`, `removeValue` and `pop` are the same functions for arguments that are not on
the heap at all, which need no heap to be read (`pushFrom_elsewhere`, `setFrom_elsewhere`).
The results about sizes, owners and the number of objects use these; the one about the
contents uses the places (`HeapBuffer.Contents`).

### What is left out

The address arithmetic of aligned allocations, by which an aligned pointer finds back the
address the allocator returned, is in `HeapBuffer.Alignment`; the debug flag `IS_CONST` is
not part of the model.  The assertions are disabled; the one of `disown` is a predicate of
its own (`disownAsserted`).
-/

namespace Tklb

open Foundation

/-- The template arguments the code computes with: the width of `Size`,
`sizeof(T)` and `ALIGNMENT`; and the width of a pointer. -/
structure BufferType where
  sizeBits : ℕ
  pointerBits : ℕ
  sizeofT : ℕ
  alignment : ℕ

/-- The fields of a `HeapBuffer`.  `mBuf` names a block of the heap; `mRealSize` is the capacity,
and zero while the memory is borrowed. -/
structure HeapBuffer where
  mBuf : Option ℕ
  mSize : ℕ
  mRealSize : ℕ

/-- The heap: the objects in its blocks, and the books of the allocator. -/
structure Heap (T : Type) where
  objects : ObjectStore T
  /-- Blocks obtained so far. -/
  blocks : ℕ
  /-- The number of bytes a block was requested with. -/
  bytes : ℕ → ℕ
  freed : List ℕ
  /-- Requests made so far, and which requests the allocator can meet. -/
  requests : ℕ
  grants : ℕ → Bool

/-- A buffer on its heap.  Several buffers may share a heap, and then each has this view of it. -/
structure BufferState (T : Type) where
  heap : Heap T
  buffer : HeapBuffer

namespace Heap

variable {T : Type}

/-- A heap nothing was allocated on. -/
def initial (grants : ℕ → Bool) : Heap T := ⟨.initial, 0, fun _ => 0, [], 0, grants⟩

/-- `ALLOCATOR().allocate`: the new block is raw. -/
def allocate (h : Heap T) (bytes : ℕ) : Option ℕ × Heap T :=
  if h.grants h.requests then
    (some h.blocks,
      { h with
        objects := h.objects.clear h.blocks
        blocks := h.blocks + 1
        bytes := Function.update h.bytes h.blocks bytes
        requests := h.requests + 1 })
  else (none, { h with requests := h.requests + 1 })

theorem allocate_of_grant {h : Heap T} (hgrant : h.grants h.requests = true) (n : ℕ) :
    ∃ h', h.allocate n = (some h.blocks, h') ∧ h'.objects = h.objects.clear h.blocks ∧
      h'.blocks = h.blocks + 1 ∧ h'.bytes = Function.update h.bytes h.blocks n ∧
      h'.freed = h.freed ∧ h'.grants = h.grants := by
  refine ⟨(h.allocate n).2, ?_⟩
  rw [allocate, if_pos hgrant]
  exact ⟨rfl, rfl, rfl, rfl, rfl, rfl⟩

/-- `ALLOCATOR().deallocate`: whatever is in the block is gone. -/
def deallocate (h : Heap T) (b : ℕ) : Heap T :=
  { h with objects := h.objects.clear b, freed := b :: h.freed }

end Heap

namespace HeapBuffer

/-- `ChunkSize` -/
def chunkSize : ℕ := 16

/-- `HeapBuffer() = default` -/
def initial : HeapBuffer := ⟨none, 0, 0⟩

def empty (b : HeapBuffer) : Bool := b.mSize = 0

def injected (b : HeapBuffer) : Bool := b.mRealSize = 0 ∧ 0 < b.mSize ∧ b.mBuf.isSome

/-- `disown`: the memory is no longer managed by this buffer. -/
def disown (b : HeapBuffer) : HeapBuffer :=
  if b.empty then b else { b with mRealSize := 0 }

/-- The assertion of `disown` holds, or is not reached. -/
def disownAsserted (b : HeapBuffer) : Bool := b.empty || b.mRealSize ≠ 0

/-- `HeapBuffer(HeapBuffer&&)` and `operator=(HeapBuffer&&)`: what the target and
the source are afterwards.  Both take over the fields and disown the source;
the fields the target had are overwritten. -/
def move (source : HeapBuffer) : HeapBuffer × HeapBuffer :=
  (⟨source.mBuf, source.mSize, source.mRealSize⟩, source.disown)

/-- `closestChunkSize` -/
def closestChunkSize (B : BufferType) (size chunk : ℕ) : ℕ :=
  if size = 0 then 0
  else if size = chunk then size
  else
    let chunk := max chunk 1
    if size % chunk = 0 then size
    else wrap B.sizeBits ((size / chunk + 1) * chunk)

end HeapBuffer

namespace BufferState

open HeapBuffer

variable {T : Type}

/-- What is in the slot `i` of the buffer's memory. -/
def slot (s : BufferState T) (i : ℕ) : Option (T × ℕ) :=
  s.buffer.mBuf.bind fun b => s.heap.objects.slot b i

/-- `mBuf[i]` -/
def value (s : BufferState T) (i : ℕ) : Option T := (s.slot i).map Prod.fst

/-- Act on the objects in the buffer's memory; without memory nothing is done. -/
def onMemory (s : BufferState T) (f : ObjectStore T → ℕ → ObjectStore T) :
    BufferState T :=
  match s.buffer.mBuf with
  | none => s
  | some b => { s with heap := { s.heap with objects := f s.heap.objects b } }

section onMemory

variable {s : BufferState T} {f : ObjectStore T → ℕ → ObjectStore T}

@[simp] theorem onMemory_buffer : (s.onMemory f).buffer = s.buffer := by
  unfold onMemory
  split <;> rfl

theorem onMemory_slot {b : ℕ} (hb : s.buffer.mBuf = some b) (i : ℕ) :
    (s.onMemory f).slot i = (f s.heap.objects b).slot b i := by
  simp [onMemory, slot, hb]

theorem onMemory_objects {b : ℕ} (hb : s.buffer.mBuf = some b) :
    (s.onMemory f).heap.objects = f s.heap.objects b := by
  simp [onMemory, hb]

end onMemory

/-- `new (mBuf + i) T(v)` for consecutive slots from `lo` on. -/
def constructFrom (s : BufferState T) (lo : ℕ) (vs : List T) : BufferState T :=
  s.onMemory fun objects b => objects.constructFrom b lo vs

/-- `mBuf[i].~T()` for `n` slots from `lo` on. -/
def destroyFrom (s : BufferState T) (lo n : ℕ) : BufferState T :=
  s.onMemory fun objects b => objects.destroyFrom b lo n

/-- The end of `allocate`: the old memory is given back if it was owned. -/
def release (s : BufferState T) (oldBuf : Option ℕ) (chunk : ℕ) : BufferState T where
  heap := match oldBuf with
    | none => s.heap
    | some old =>
        if !s.buffer.injected && 0 < s.buffer.mRealSize then s.heap.deallocate old
        else s.heap
  buffer := { s.buffer with mRealSize := chunk }

/-- The part of `allocate` between the two memories: the existing content is
copied, `mBuf` is replaced. -/
def moveTo (s : BufferState T) (newBuf chunk : ℕ) : BufferState T where
  heap := match s.buffer.mBuf with
    | none => s.heap
    | some old =>
        if 0 < s.buffer.mSize then
          { s.heap with
            objects := s.heap.objects.copy newBuf old (min s.buffer.mSize chunk) }
        else s.heap
  buffer := { s.buffer with mBuf := some newBuf }

/-- `allocate`: memory of exactly `chunk` elements replaces the present one. -/
def allocate (B : BufferType) (s : BufferState T) (chunk : ℕ) : Bool × BufferState T :=
  if 0 < chunk then
    let bytes := wrap B.sizeBits (chunk * B.sizeofT)
    match s.heap.allocate (wrap B.pointerBits (bytes + B.alignment)) with
    | (none, heap) => (false, { s with heap := heap })
    | (some newBuf, heap) =>
        (true, ({ s with heap := heap }.moveTo newBuf chunk).release s.buffer.mBuf chunk)
  else
    (true, { s with buffer := { s.buffer with mBuf := none } }.release s.buffer.mBuf chunk)

/-- `reserve` -/
def reserve (B : BufferType) (s : BufferState T) (size : ℕ) : Bool × BufferState T :=
  if size < s.buffer.mRealSize then (true, s) else s.allocate B size

/-- `resize` -/
def resize [Inhabited T] (B : BufferType) (s : BufferState T) (size : ℕ)
    (downsize : Bool) : Bool × BufferState T :=
  let chunked := closestChunkSize B size chunkSize
  -- what goes is destroyed before the memory is exchanged
  let s₁ :=
    if size < s.buffer.mSize ∧ s.buffer.mBuf.isSome ∧ ¬ s.buffer.injected then
      s.destroyFrom size (s.buffer.mSize - size)
    else s
  let (ok, s₂) :=
    if s₁.buffer.mRealSize < chunked ∨ (downsize ∧ chunked < s₁.buffer.mRealSize) then
      s₁.allocate B chunked
    else (true, s₁)
  if ok then
    let s₃ :=
      if s₂.buffer.mSize < size then
        s₂.constructFrom s₂.buffer.mSize
          (List.replicate (size - s₂.buffer.mSize) default)
      else s₂
    (true, { s₃ with buffer := { s₃.buffer with mSize := size } })
  else (false, s₂)

/-- `set(const T* data, Size size)`, where `data` points to values that are not on the
heap. -/
def set [Inhabited T] (B : BufferType) (s : BufferState T) (data : List T) :
    Bool × BufferState T :=
  let s₁ := if s.buffer.mBuf.isSome then (s.resize B 0 true).2 else s
  let (ok, s₂) := s₁.resize B data.length true
  -- the slots already hold the default elements `resize` constructed
  if ok then (true, s₂.constructFrom 0 data) else (false, s₂)

/-- `push(const T& object)`, where `object` is not on the heap. -/
def push (B : BufferType) (s : BufferState T) (object : T) : Bool × BufferState T :=
  let newSize := wrap B.sizeBits (s.buffer.mSize + 1)
  let (ok, s₁) :=
    if s.buffer.mRealSize < newSize then
      s.allocate B (closestChunkSize B newSize chunkSize)
    else (true, s)
  if ok then
    let s₂ := s₁.constructFrom s₁.buffer.mSize [object]
    (true, { s₂ with buffer := { s₂.buffer with mSize := newSize } })
  else (false, s₁)

/-- `pop(T* object)`, where `object` is not on the heap: whether there was an element, and
the copy made of it. -/
def pop (s : BufferState T) : (Bool × Option T) × BufferState T :=
  if s.buffer.mSize = 0 then ((false, none), s)
  else
    -- the slot keeps its object
    ((true, s.value (s.buffer.mSize - 1)),
      { s with buffer := { s.buffer with mSize := s.buffer.mSize - 1 } })

/-- `remove(Size index)` -/
def removeAt (s : BufferState T) (index : ℕ) : Bool × BufferState T :=
  if s.buffer.mSize ≤ index then (false, s)
  else
    let s₁ := s.destroyFrom index 1
    let s₂ :=
      if index ≠ s.buffer.mSize - 1 then
        s₁.onMemory fun objects b => objects.relocate b index (s.buffer.mSize - 1)
      else s₁
    (true, { s₂ with buffer := { s₂.buffer with mSize := s.buffer.mSize - 1 } })

/-- `remove(const T& object)`, where `object` is not on the heap. -/
def removeValue [BEq T] (s : BufferState T) (object : T) : Bool × BufferState T :=
  match (List.range s.buffer.mSize).find? fun i => (s.value i).any (· == object) with
  | some i => s.removeAt i
  | none => (false, s)

/-- `remove(const T* object)`, a pointer being a block and an index. -/
def removePointer (s : BufferState T) (object : ℕ × ℕ) : Bool × BufferState T :=
  match (List.range s.buffer.mSize).find? fun i =>
      s.buffer.mBuf.any fun b => (b, i) = object with
  | some i => s.removeAt i
  | none => (false, s)

/-! ### Arguments on the heap -/

end BufferState

/-- Where an argument of type `const T&` or `const T*` points: to values that are not on the
heap, or to the slots of a block from `index` on. -/
inductive Argument (T : Type)
  | elsewhere (values : List T)
  | stored (block index : ℕ)

/-- `*(data + i)`.  Nothing can be read behind the values, from a raw slot, or from a block
that was given back. -/
def Argument.read {T : Type} (h : Heap T) (i : ℕ) : Argument T → Option T
  | .elsewhere values => values[i]?
  | .stored block index => (h.objects.slot block (index + i)).map Prod.fst

namespace BufferState

open HeapBuffer

variable {T : Type}

/-- `new (mBuf + i) T(*(data + i))` for `n` elements from `i` on. -/
def constructCopies (data : Argument T) : ℕ → ℕ → BufferState T → Option (BufferState T)
  | 0, _, s => some s
  | n + 1, i, s =>
      (data.read s.heap i).bind fun v => constructCopies data n (i + 1) (s.constructFrom i [v])

/-- `set(const T* data, Size size)` -/
def setFrom [Inhabited T] (B : BufferType) (s : BufferState T) (data : Argument T)
    (size : ℕ) : Option (Bool × BufferState T) :=
  let s₁ := if s.buffer.mBuf.isSome then (s.resize B 0 true).2 else s
  let (ok, s₂) := s₁.resize B size true
  -- the data is read when the old memory is gone
  if ok then (constructCopies data size 0 s₂).map (true, ·) else some (false, s₂)

/-- `push(const T& object)` -/
def pushFrom (B : BufferType) (s : BufferState T) (object : Argument T) :
    Option (Bool × BufferState T) :=
  let newSize := wrap B.sizeBits (s.buffer.mSize + 1)
  let (ok, s₁) :=
    if s.buffer.mRealSize < newSize then
      s.allocate B (closestChunkSize B newSize chunkSize)
    else (true, s)
  if ok then
    -- and so is the object
    (object.read s₁.heap 0).map fun v =>
      let s₂ := s₁.constructFrom s₁.buffer.mSize [v]
      (true, { s₂ with buffer := { s₂.buffer with mSize := newSize } })
  else some (false, s₁)

/-- `pop(T* object)`, where `object` is a slot of a block, or not on the heap. -/
def popInto (s : BufferState T) (object : Option (ℕ × ℕ)) :
    Option ((Bool × Option T) × BufferState T) :=
  if s.buffer.mSize = 0 then some ((false, none), s)
  else
    (s.value (s.buffer.mSize - 1)).map fun v =>
      ((true, some v),
        { heap := match object with
            | none => s.heap
            | some (b, i) => { s.heap with objects := s.heap.objects.construct b i v }
          buffer := { s.buffer with mSize := s.buffer.mSize - 1 } })

/-- `remove(const T& object)`; an empty buffer does not look at it. -/
def removeFrom [BEq T] (s : BufferState T) (object : Argument T) :
    Option (Bool × BufferState T) :=
  if s.buffer.mSize = 0 then some (false, s) else (object.read s.heap 0).map s.removeValue

/-! ### The remaining operations -/

/-- `clear` -/
def clear [Inhabited T] (B : BufferType) (s : BufferState T) : BufferState T :=
  (s.resize B 0 false).2

/-- The first statement of `inject`: memory that is not borrowed is given back. -/
def handBack [Inhabited T] (B : BufferType) (s : BufferState T) : BufferState T :=
  if ¬ s.buffer.injected ∧ s.buffer.mBuf.isSome then (s.resize B 0 true).2 else s

/-- `inject(mem, size)`: foreign memory is borrowed. -/
def inject [Inhabited T] (B : BufferType) (s : BufferState T) (mem : Option ℕ) (size : ℕ) :
    BufferState T :=
  let s₁ := s.handBack B
  { s₁ with buffer := { s₁.buffer.disown with mBuf := mem, mSize := size } }

/-- `HeapBuffer(const Size size)` -/
def constructSized [Inhabited T] (B : BufferType) (h : Heap T) (size : ℕ) :
    BufferState T :=
  if size ≠ 0 then (resize B ⟨h, .initial⟩ size true).2 else ⟨h, .initial⟩

/-- `HeapBuffer(const T* data, Size size)` -/
def constructData [Inhabited T] (B : BufferType) (h : Heap T) (data : List T) :
    BufferState T :=
  (set B ⟨h, .initial⟩ data).2

/-- `~HeapBuffer` -/
def destruct [Inhabited T] (B : BufferType) (s : BufferState T) : BufferState T :=
  if s.buffer.injected then s else (s.resize B 0 true).2

end BufferState

/-! ### Calls on one buffer -/

/-- The calls that change one buffer, with arguments that are values: what a call means, and
what it is for arguments that are not on the heap. -/
inductive BufferCall (T : Type)
  | set (data : List T)
  | resize (size : ℕ) (downsize : Bool)
  | reserve (size : ℕ)
  | push (object : T)
  | pop
  | removeAt (index : ℕ)
  | removeValue (object : T)
  | removePointer (object : ℕ × ℕ)
  | clear

/-- What a call returns: nothing, whether it succeeded, or, for `pop`, also the
element. -/
inductive Reply (T : Type)
  | done
  | flag (ok : Bool)
  | popped (ok : Bool) (object : Option T)

/-- The call did not fail. -/
def Reply.succeeded {T : Type} : Reply T → Bool
  | .done => true
  | .flag ok | .popped ok _ => ok

/-- The calls as a program writes them, with arguments that are places.  An argument may lie in the
memory of the buffer itself, and then it matters when the code looks at it. -/
inductive PlacedCall (T : Type)
  | set (data : Argument T) (size : ℕ)
  | resize (size : ℕ) (downsize : Bool)
  | reserve (size : ℕ)
  | push (object : Argument T)
  | pop (object : Option (ℕ × ℕ))
  | removeAt (index : ℕ)
  | removeValue (object : Argument T)
  | clear

namespace BufferState

variable {T : Type} [Inhabited T] [BEq T]

/-- Perform a call with arguments that are places; where it reads memory that is raw or was
given back there is no result. -/
def execFrom (B : BufferType) (s : BufferState T) :
    PlacedCall T → Option (Reply T × BufferState T)
  | .set data size => (s.setFrom B data size).map fun (ok, t) => (.flag ok, t)
  | .resize size downsize => let (ok, t) := s.resize B size downsize; some (.flag ok, t)
  | .reserve size => let (ok, t) := s.reserve B size; some (.flag ok, t)
  | .push object => (s.pushFrom B object).map fun (ok, t) => (.flag ok, t)
  | .pop object => (s.popInto object).map fun ((ok, v), t) => (.popped ok v, t)
  | .removeAt index => let (ok, t) := s.removeAt index; some (.flag ok, t)
  | .removeValue object => (s.removeFrom object).map fun (ok, t) => (.flag ok, t)
  | .clear => some (.done, s.clear B)

/-- Perform a call with values. -/
def exec (B : BufferType) (s : BufferState T) : BufferCall T → Reply T × BufferState T
  | .set data => let (ok, t) := s.set B data; (.flag ok, t)
  | .resize size downsize => let (ok, t) := s.resize B size downsize; (.flag ok, t)
  | .reserve size => let (ok, t) := s.reserve B size; (.flag ok, t)
  | .push object => let (ok, t) := s.push B object; (.flag ok, t)
  | .pop => let ((ok, v), t) := s.pop; (.popped ok v, t)
  | .removeAt index => let (ok, t) := s.removeAt index; (.flag ok, t)
  | .removeValue object => let (ok, t) := s.removeValue object; (.flag ok, t)
  | .removePointer object => let (ok, t) := s.removePointer object; (.flag ok, t)
  | .clear => (.done, s.clear B)

end BufferState

end Tklb
