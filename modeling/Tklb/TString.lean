import Tklb.HeapBuffer.Allocation

/-!
# `String`

A string is a `HeapBuffer` of characters whose last one is the terminator; `size()` counts
it.  A default constructed string has no storage and no terminator.

This file is the model of the class.  A string is a `HeapBuffer` on the heap it shares with
the other strings (`BufferState UInt8`).  `mData[index]` is not checked by the source; here
it is (`charAt`, `setChar`), and a call that reads or writes an index its string does not
have gives `none`.  Results the source ignores, such as the one of `mData.resize`, are
ignored here.

### Where a string is set from

A C string is an `Argument`: characters that are not on the heap, or the slots of a block
from an index on, as `c_str()` of another string gives them.  The length of a C string is
found while its memory is as it was before the call; the characters are read by
`HeapBuffer::set`, which has given back the memory of the target by then (`setData`).
`setString` is `set(const String&)`, the copy constructor and both assignments from a string:
none of them compares the two strings, so a string that is assigned to itself is read when
its memory is gone, and the call has no result.

### What is left out

`inject` and the overloads for C strings of `append`, `prepend` and `contains` are not part
of the model.  No string borrows its memory, then.

### What is load-bearing

* `setData` reads its argument when the buffer has been emptied.  The order is that of
  `HeapBuffer::set`, and it is the reason for a string not being what it is assigned from.
* `charAt` and `setChar` check the index against `size()` and not against the room there is. A
  call that ends in `some` has not looked behind the end of its strings.
-/

namespace Tklb

open Foundation HeapBuffer BufferState

namespace TString

/-- `Terminator` -/
def terminator : UInt8 := 0

/-- `HeapBuffer<char>` with its default template arguments. -/
abbrev defaultStorage : BufferType := ⟨32, 64, 1, 0⟩

/-- `MAX_LENGTH` of `set`: 32 megs. -/
def maxLength (B : BufferType) : ℕ := wrap B.sizeBits (1024 * 1024 * 32)

/-! ### `HeapBuffer<char>` -/

/-- `HeapBuffer<char>::resize`.  The loop over `mBuf[i].~T()` does nothing to characters:
they stay in the memory. -/
def resize (B : BufferType) (s : BufferState UInt8) (size : ℕ) : Bool × BufferState UInt8 :=
  if Reallocates B s.buffer size true then
    let (ok, s₁) := s.allocate B (closestChunkSize B size chunkSize)
    if ok then (true, s₁.extend size) else (false, s₁)
  else (true, s.extend size)

/-- `HeapBuffer<char>::set(data, size)`.  The characters are read when the old memory is
gone. -/
def setData (B : BufferType) (s : BufferState UInt8) (data : Argument UInt8) (size : ℕ) :
    Option (Bool × BufferState UInt8) :=
  let s₁ := if s.buffer.mBuf.isSome then (resize B s 0).2 else s
  let (ok, s₂) := resize B s₁ size
  if ok then (constructCopies data size 0 s₂).map (true, ·) else some (false, s₂)

/-- The value of `mData[index]`. -/
def charAt (s : BufferState UInt8) (index : ℕ) : Option UInt8 :=
  if index < s.buffer.mSize then s.value index else none

/-- `mData[index] = c` -/
def setChar (s : BufferState UInt8) (index : ℕ) (c : UInt8) : Option (BufferState UInt8) :=
  if index < s.buffer.mSize then
    (s.slot index).map fun object =>
      s.onMemory fun objects b => objects.put b index (some (c, object.2))
  else none

/-! ### `set` -/

/-- The loop of `set(const char*)` from `i` on, with `n` characters to go: the length of the
C string, the terminator included. -/
def cLength (h : Heap UInt8) (str : Argument UInt8) : ℕ → ℕ → Option ℕ
  | 0, i => some i
  | n + 1, i => do
      let c ← str.read h i
      if c = terminator then some (i + 1) else cLength h str n (i + 1)

/-- `set(const char* str, Size length)`; the result of `mData.set` is ignored. -/
def setChars (B : BufferType) (s : BufferState UInt8) (str : Argument UInt8) (length : ℕ) :
    Option (BufferState UInt8) :=
  if length = 0 then some s
  else (setData B s str length).bind fun r => setChar r.2 (length - 1) terminator

/-- `set(const char* str)`; `none` is `nullptr`. -/
def setCString (B : BufferType) (s : BufferState UInt8) :
    Option (Argument UInt8) → Option (BufferState UInt8)
  | none => some s
  | some str => (cLength s.heap str (maxLength B) 0).bind (setChars B s str)

/-- `String(const char* str)`, for a C string that is not on the heap. -/
def ofCString (B : BufferType) (h : Heap UInt8) (str : Option (List UInt8)) :
    Option (BufferState UInt8) :=
  setCString B ⟨h, .initial⟩ (str.map .elsewhere)

/-- `str.c_str()` -/
def cStr (str : HeapBuffer) : Argument UInt8 :=
  match str.mBuf with
  | none => .elsewhere []
  | some b => .stored b 0

/-- `set(const String& str)`, with the result of `mData.set`; `str` is any string on the same
heap, also the one that is set. -/
def setString (B : BufferType) (s : BufferState UInt8) (str : HeapBuffer) :
    Option (Bool × BufferState UInt8) :=
  setData B s (cStr str) str.mSize

/-! ### `operator==` -/

/-- The loop of `operator==` from `i` on, with `n` characters to go. -/
def equalsFrom (s : BufferState UInt8) (b : List UInt8) : ℕ → ℕ → Option Bool
  -- we have reached the terminator of this but not on b
  | 0, _ => some false
  | n + 1, i => do
      let x ← charAt s i
      let y ← b[i]?
      if x ≠ y then some false
      -- both are equal and at the end
      else if y = terminator then some true
      else equalsFrom s b n (i + 1)

/-- `operator==(const char* b)`; its negation is `operator!=`. -/
def equals (s : BufferState UInt8) (b : List UInt8) : Option Bool :=
  equalsFrom s b s.buffer.mSize 0

/-! ### `contains` -/

/-- The inner loop of `contains` from `j` on, with `n` characters to go: where it stops. -/
def matchFrom (B : BufferType) (a b : BufferState UInt8) (i : ℕ) : ℕ → ℕ → Option ℕ
  | 0, j => some j
  | n + 1, j => do
      let x ← charAt a (wrap B.sizeBits (i + j))
      let y ← charAt b j
      if x ≠ y then some j else matchFrom B a b i n (j + 1)

/-- The outer loop of `contains` from `i` on, with `n` positions to go. -/
def containsFrom (B : BufferType) (a b : BufferState UInt8) : ℕ → ℕ → Option Bool
  | 0, _ => some false
  | n + 1, i =>
      -- no more space to match
      if a.buffer.mSize < wrap B.sizeBits (i + b.buffer.mSize) then some false
      else do
        let j ← matchFrom B a b i b.buffer.mSize 0
        if j = wsub B.sizeBits b.buffer.mSize 1 then some true
        else containsFrom B a b n (i + 1)

/-- `a.contains(b)` -/
def contains (B : BufferType) (a b : BufferState UInt8) : Option Bool :=
  containsFrom B a b a.buffer.mSize 0

/-! ### `append` and `prepend` -/

/-- `mData[start + i] = str[i]` for `n` more characters from `i` on. -/
def copyFrom (B : BufferType) (str : HeapBuffer) (start : ℕ) :
    ℕ → ℕ → BufferState UInt8 → Option (BufferState UInt8)
  | 0, _, s => some s
  | n + 1, i, s => do
      let c ← charAt ⟨s.heap, str⟩ i
      let t ← setChar s (wrap B.sizeBits (start + i)) c
      copyFrom B str start n (i + 1) t

/-- `append`; `str` is a string on the same heap. -/
def append (B : BufferType) (s : BufferState UInt8) (str : HeapBuffer) :
    Option (BufferState UInt8) :=
  -- crop off own terminator
  let start := wsub B.sizeBits s.buffer.mSize 1
  copyFrom B str start str.mSize 0 (resize B s (wrap B.sizeBits (start + str.mSize))).2

/-- The first loop of `prepend`, with `n` characters to go:
`mData[mData.size() - i] = mData[oldSize - i]`. -/
def shiftFrom (B : BufferType) (oldSize : ℕ) :
    ℕ → ℕ → BufferState UInt8 → Option (BufferState UInt8)
  | 0, _, s => some s
  | n + 1, i, s => do
      let c ← charAt s (wsub B.sizeBits oldSize i)
      let t ← setChar s (wsub B.sizeBits s.buffer.mSize i) c
      shiftFrom B oldSize n (i + 1) t

/-- `prepend`; `str` is a string on the same heap. -/
def prepend (B : BufferType) (s : BufferState UInt8) (str : HeapBuffer) :
    Option (BufferState UInt8) := do
  let oldSize := s.buffer.mSize
  let size := wsub B.sizeBits (wrap B.sizeBits (oldSize + str.mSize)) 1
  let t ← shiftFrom B oldSize oldSize 0 (resize B s size).2
  -- crop off other terminator
  copyFrom B str 0 (wsub B.sizeBits str.mSize 1) 0 t

end TString

end Tklb
