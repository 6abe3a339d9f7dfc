import Tklb.Foundation.ByteMemory
import Tklb.Foundation.Runs
import Tklb.Foundation.Unsigned
import Tklb.Target

/-!
# `memory::FixedPool`

A pool manages one stretch of bytes.  It is cut into consecutive blocks, each
starting with a header word `size`.  In an allocated block `size` is the length
of the whole block and the payload starts at the following word; in a free block
`size` is `0` and the following word, `space`, is the length.  Nothing else is
recorded: the blocks are found by walking from offset `0`.

This file is the model of the class.  `Size` is the unsigned type as wide as a
pointer, so `sizeof(Size) = sizeof(void*)` is the one number the code depends on
(`Target`); arithmetic on `Size` wraps.  Offsets and pointers are relative to
the base of the pool; a pointer into the pool is the offset it designates,
`none` is `nullptr`.  The lock around the scan is not part of this file, and the
assertions are disabled.

The scan of `allocate` is a loop whose progress depends on the bytes of the
pool; `scan` runs it with fuel and gives `none` when the fuel is used up.

### How the model is laid out

* The functions of the class come first, in the order of the source and with its names; every
  addition is one of `Size` (`wrap`), and every access to a header is a read or a write of
  bytes.
* `stepAt` and `nextBlock` are how the class walks from block to block; nothing else in the pool
  says where a block is.
* `PoolCall`, `PoolSession` and `PoolSession.Step` are a client: it holds the pointers that
  calls have returned, with the number of bytes it asked for, uses only these, and stores inside
  of them.  All results about the pool are about what a client can reach by such steps.

### What is load-bearing

The payload of a block is in the same bytes as the pool's own records, so there is no state
apart from the bytes, and an invariant has to be about bytes.  `FixedPool.Layout` has it: a list
of blocks of which the bytes are the description.
-/

namespace Tklb

open Foundation

/-- The fields of a `FixedPool` and the bytes it manages.  There is nothing else: which blocks there
are, and which of them are free, is in the bytes. -/
structure FixedPool (A : Target) where
  memory : ByteMemory
  poolSize : ℕ
  /-- Used space. -/
  allocatedSpace : ℕ

namespace FixedPool

variable {A : Target}

/-- `block.size` of the block at offset `i`. -/
def sizeAt (P : FixedPool A) (i : ℕ) : ℕ := P.memory.read i A.ptrBytes

/-- `block.space` of the block at offset `i`. -/
def spaceAt (P : FixedPool A) (i : ℕ) : ℕ :=
  P.memory.read (i + A.ptrBytes) A.ptrBytes

/-- `FixedPool(void* pool, Size size)`: one free block. -/
def construct (pool : ByteMemory) (size : ℕ) : FixedPool A where
  memory := (pool.write 0 A.ptrBytes 0).write A.ptrBytes A.ptrBytes size
  poolSize := size
  allocatedSpace := 0

def allocated (P : FixedPool A) : ℕ := P.allocatedSpace

def free (P : FixedPool A) : ℕ := wsub A.bits P.poolSize P.allocatedSpace

/-- `realAllocation`: the length of the block a request takes. -/
def realAllocation (A : Target) (size : ℕ) : ℕ :=
  if size = 0 then 0
  else
    let minSize := wrap A.bits (A.ptrBytes + max A.ptrBytes size)
    let mask := 2 ^ A.log - 1
    if minSize &&& mask = 0 then minSize
    else
      let floored := minSize &&& (2 ^ A.bits - (mask + 1))
      wrap A.bits (floored + A.ptrBytes)

/-- The loop of `allocate` from offset `i` on: the offset of the first free
block with room for `size` bytes, `none` if it runs out of the pool or meets an
overrun block. -/
def scan (P : FixedPool A) (size : ℕ) : ℕ → ℕ → Option (Option ℕ)
  | 0, _ => none
  | fuel + 1, i =>
      if i < P.poolSize then
        if P.sizeAt i = 0 then
          if size ≤ P.spaceAt i then some (some i)
          -- a free block without space was overrun
          else if P.spaceAt i = 0 then some none
          else P.scan size fuel (wrap A.bits (i + P.spaceAt i))
        else P.scan size fuel (wrap A.bits (i + P.sizeAt i))
      else some none

/-- The free block at `i` is taken for a block of `size` bytes: whole when the
rest could not hold a header, and split in two otherwise. -/
def take (P : FixedPool A) (i size : ℕ) : FixedPool A :=
  let oldSize := P.spaceAt i
  if oldSize ≤ wrap A.bits (size + A.ptrBytes) then
    { P with
      memory := P.memory.write i A.ptrBytes oldSize
      allocatedSpace := wrap A.bits (P.allocatedSpace + oldSize) }
  else
    -- the rest becomes a free block behind the one that is taken
    { P with
      memory := ((P.memory.write (i + size) A.ptrBytes 0).write
        (i + size + A.ptrBytes) A.ptrBytes (wsub A.bits oldSize size)).write
        i A.ptrBytes size
      allocatedSpace := wrap A.bits (P.allocatedSpace + size) }

/-- `allocate`: the pointer returned and the pool afterwards.  The fuel is one
more than the number of offsets in the pool. -/
def allocate (P : FixedPool A) (requestedSize : ℕ) :
    Option (Option ℕ × FixedPool A) :=
  if requestedSize = 0 then some (none, P)
  else
    let size := realAllocation A requestedSize
    (P.scan size (P.poolSize + 1) 0).map fun found =>
      match found with
      | none => (none, P)
      | some i => (some (i + A.ptrBytes), P.take i size)

/-- `deallocate` -/
def deallocate (P : FixedPool A) : Option ℕ → FixedPool A
  | none => P
  | some ptr =>
      let i := ptr - A.ptrBytes
      let size := P.sizeAt i
      { P with
        memory := (P.memory.write (i + A.ptrBytes) A.ptrBytes size).write
          i A.ptrBytes 0
        allocatedSpace := wsub A.bits P.allocatedSpace size }

/-- `newSize` of `reallocate`. -/
def reallocSize (A : Target) (size : ℕ) : ℕ :=
  let newSize := wrap A.bits (size + A.ptrBytes)
  wrap A.bits (newSize + (A.ptrBytes - newSize % A.ptrBytes))

/-- The block at `i` is cut down to `newSize` bytes in place; `allocatedSpace`
is left alone. -/
def shrink (P : FixedPool A) (i newSize : ℕ) : FixedPool A :=
  let oldSize := P.sizeAt i
  { P with
    memory := ((P.memory.write i A.ptrBytes newSize).write
      (i + newSize) A.ptrBytes 0).write
      (i + newSize + A.ptrBytes) A.ptrBytes (wsub A.bits oldSize newSize) }

/-- `reallocate`.  The call `copy(ptr, newPtr, bytes)` copies *to* `ptr`, the
first parameter of `memory::copy` being its destination. -/
def reallocate (P : FixedPool A) (ptr : Option ℕ) (size : ℕ) :
    Option (Option ℕ × FixedPool A) :=
  match ptr with
  | none => P.allocate size
  | some p =>
      let i := p - A.ptrBytes
      let oldSize := P.sizeAt i
      let newSize := reallocSize A size
      if newSize ≤ oldSize then
        -- a rest too small for a header stays with the block
        if oldSize ≤ wrap A.bits (newSize + A.ptrBytes) then some (some p, P)
        else some (some p, P.shrink i newSize)
      else
        (P.allocate size).map fun (newPtr, P') =>
          match newPtr with
          -- no room: the old block stays with the caller
          | none => (none, P')
          | some q =>
              let bytes := wsub A.bits oldSize A.ptrBytes
              let copied := { P' with memory := P'.memory.move p q bytes }
              (some q, copied.deallocate (some p))

/-- The number of bytes a walk along the blocks advances by at offset `i`. -/
def stepAt (P : FixedPool A) (i : ℕ) : ℕ :=
  if P.sizeAt i = 0 then P.spaceAt i else P.sizeAt i

/-- The offset of the block after the one at `i`. -/
def nextBlock (P : FixedPool A) (i : ℕ) : ℕ := wrap A.bits (i + P.stepAt i)

end FixedPool

/-! ### A client of the pool -/

/-- A call a client makes, or a byte it stores through one of its pointers. -/
inductive PoolCall
  | allocate (size : ℕ)
  | deallocate (ptr : ℕ)
  | reallocate (ptr size : ℕ)
  | store (ptr offset : ℕ) (byte : UInt8)

/-- The pool together with its client's live pointers and, for each, the number
of bytes that was requested. -/
structure PoolSession (A : Target) where
  pool : FixedPool A
  live : List (ℕ × ℕ)

namespace PoolSession

variable {A : Target}

/-- A client that has just constructed a pool. -/
def start (pool : ByteMemory) (size : ℕ) : PoolSession A := ⟨.construct pool size, []⟩

/-- A client's step: `deallocate`, `reallocate` and stores go through live
pointers only, and a store stays inside the bytes that were requested. -/
inductive Step (s : PoolSession A) : PoolCall → PoolSession A → Prop
  | allocate {size p : ℕ} {P : FixedPool A}
      (hcall : s.pool.allocate size = some (some p, P)) :
      Step s (.allocate size) ⟨P, (p, size) :: s.live⟩
  | allocate_null {size : ℕ} {P : FixedPool A}
      (hcall : s.pool.allocate size = some (none, P)) :
      Step s (.allocate size) ⟨P, s.live⟩
  | deallocate {p r : ℕ} (hlive : (p, r) ∈ s.live) :
      Step s (.deallocate p) ⟨s.pool.deallocate (some p), s.live.erase (p, r)⟩
  | reallocate {p r size q : ℕ} {P : FixedPool A} (hlive : (p, r) ∈ s.live)
      (hcall : s.pool.reallocate (some p) size = some (some q, P)) :
      Step s (.reallocate p size) ⟨P, (q, size) :: s.live.erase (p, r)⟩
  | reallocate_null {p r size : ℕ} {P : FixedPool A} (hlive : (p, r) ∈ s.live)
      (hcall : s.pool.reallocate (some p) size = some (none, P)) :
      Step s (.reallocate p size) ⟨P, s.live⟩
  | store {p r offset : ℕ} {byte : UInt8} (hlive : (p, r) ∈ s.live)
      (hin : offset < r) :
      Step s (.store p offset byte)
        ⟨{ s.pool with memory := Function.update s.pool.memory (p + offset) byte },
          s.live⟩

end PoolSession

/-! ### The two roundings -/

namespace FixedPool

variable {A : Target}

/-- The masks of `realAllocation` round up to the next word. -/
theorem realAllocation_eq_wrap {size m : ℕ} (hpos : 0 < size)
    (hm : m = wrap A.bits (A.ptrBytes + max A.ptrBytes size)) :
    realAllocation A size =
      if m % A.ptrBytes = 0 then m
      else wrap A.bits (m / A.ptrBytes * A.ptrBytes + A.ptrBytes) := by
  have hlt : m < 2 ^ A.bits := hm ▸ wrap_lt _ _
  have hmask : m &&& (A.ptrBytes - 1) = m % A.ptrBytes := and_mask_eq_mod m A.log
  have hfloor : m &&& (2 ^ A.bits - (A.ptrBytes - 1 + 1)) =
      m / A.ptrBytes * A.ptrBytes := and_not_mask_eq (k := A.log) hlt
  rw [realAllocation, if_neg (by omega)]
  simp only [← hm, A.two_pow_log, hmask, hfloor]

/-- Rounding a request for `allocate` does not wrap. -/
theorem realAllocation_eq {size m : ℕ} (hpos : 0 < size)
    (hm : m = A.ptrBytes + max A.ptrBytes size)
    (hlt : m + A.ptrBytes ≤ 2 ^ A.bits) :
    realAllocation A size =
      if m % A.ptrBytes = 0 then m else m / A.ptrBytes * A.ptrBytes + A.ptrBytes := by
  have hword := A.ptrBytes_pos
  have hmod := Nat.mod_add_div' m A.ptrBytes
  have hmin : m = wrap A.bits (A.ptrBytes + max A.ptrBytes size) := by
    rw [← hm, wrap_of_lt (by omega)]
  rw [realAllocation_eq_wrap hpos hmin]
  split
  · rfl
  · -- a remainder leaves room for one more word
    exact wrap_of_lt (by omega)

/-- The block of a request is whole words, has room for the header and the
request, and neither rounding nor the test for a rest wraps. -/
theorem realAllocation_spec {size : ℕ} (hpos : 0 < size)
    (hlt : size + 3 * A.ptrBytes ≤ 2 ^ A.bits) :
    A.ptrBytes ∣ realAllocation A size ∧ 2 * A.ptrBytes ≤ realAllocation A size ∧
      size + A.ptrBytes ≤ realAllocation A size ∧
      realAllocation A size + A.ptrBytes < 2 ^ A.bits := by
  have hbig := A.four_mul_ptrBytes_le
  have hword := A.ptrBytes_pos
  obtain ⟨m, hm⟩ : ∃ m, m = A.ptrBytes + max A.ptrBytes size := ⟨_, rfl⟩
  have hmod := Nat.mod_add_div' m A.ptrBytes
  have hrem := Nat.mod_lt m hword
  rw [realAllocation_eq hpos hm (by omega)]
  split
  · rename_i haligned
    refine ⟨Nat.dvd_of_mod_eq_zero haligned, by omega, by omega, by omega⟩
  · refine ⟨Nat.dvd_add (Nat.dvd_mul_left _ _) dvd_rfl, by omega, by omega, by omega⟩

/-- Rounding a request for `reallocate` does not wrap; it takes one word more
than needed when the request is whole words. -/
theorem reallocSize_spec {size : ℕ} (hlt : size + 3 * A.ptrBytes < 2 ^ A.bits) :
    A.ptrBytes ∣ reallocSize A size ∧ 2 * A.ptrBytes ≤ reallocSize A size ∧
      size + A.ptrBytes < reallocSize A size ∧
      reallocSize A size ≤ size + 2 * A.ptrBytes := by
  have hword := A.ptrBytes_pos
  have hnew : wrap A.bits (size + A.ptrBytes) = size + A.ptrBytes :=
    wrap_of_lt (by omega)
  have hmod := Nat.mod_add_div' size A.ptrBytes
  have hrem := Nat.mod_lt size hword
  rw [reallocSize]
  simp only [hnew, Nat.add_mod_right]
  rw [wrap_of_lt (by omega)]
  refine ⟨?_, by omega, by omega, by omega⟩
  rw [show size + A.ptrBytes + (A.ptrBytes - size % A.ptrBytes) =
    size / A.ptrBytes * A.ptrBytes + A.ptrBytes + A.ptrBytes by omega]
  exact Nat.dvd_add (Nat.dvd_add (Nat.dvd_mul_left _ _) dvd_rfl) dvd_rfl

end FixedPool

end Tklb
