import Tklb.Foundation.ByteMemory
import Tklb.Foundation.Loops
import Tklb.Target

/-!
# `MagicBlock`

An allocation is surrounded by two blocks of bytes.  Each holds the size of the payload, one
of two magic strings, and a flag that says which of them it is.  `check` goes from the
payload back to the first block, compares its magic string with the one its flag names, and
finds the second block with the size it reads there.

### What is not seen

Nothing says which of the two blocks `check` is looking at: an end block in front of the
payload is as good as a start block, and a start block behind it as good as an end block.
And the second block is wherever the size in the first one points.  If a write has made that
size smaller, `check` looks for the second block inside the payload, and believes what it
finds there; if it has made it larger, `check` looks outside of the allocation, where it may
not look at all.  These are the changes that `check` does not report (`Disguised`), and it
reports all others (`detects_iff`).

### The memory

Memory has a byte at every address, and integers are stored little-endian; `SizeT` is as wide
as a pointer, which has up to 16 bytes, so there is no padding behind the flag.  Which of the
addresses the program may read is an argument of `check` (`readable`): the size in the first
block is read before anything says that it is one, so the address of the second block is not
known to be in the allocation, and where it is not `check` has no result.
-/

namespace Tklb

open Foundation

namespace MagicBlock

variable {A : Target}

/-- `MAGIC_STRING_START` and `MAGIC_STRING_END` -/
def magicString (start : Bool) : List UInt8 :=
  (if start then "startblockstri" else "endblockstring").toList.map Char.toUInt8 ++ [0]

/-- `MAGIC_STRING_START[i]`, `MAGIC_STRING_END[i]` -/
def magicChar (start : Bool) (i : ℕ) : UInt8 := (magicString start).getD i 0

/-- `sizeof(MAGIC_STRING_START)` -/
def magicBytes : ℕ := 15

/-- `sizeof(MagicBlock)` -/
def blockBytes (A : Target) : ℕ := A.ptrBytes + magicBytes + 1

/-- The address of `magic`. -/
def magicAddr (A : Target) (block : ℕ) : ℕ := block + A.ptrBytes

/-- The address of `start`. -/
def startAddr (A : Target) (block : ℕ) : ℕ := block + A.ptrBytes + magicBytes

/-- `block->size` -/
def sizeAt (A : Target) (m : ByteMemory) (block : ℕ) : ℕ := m.read block A.ptrBytes

/-- `block->start` -/
def startAt (A : Target) (m : ByteMemory) (block : ℕ) : Bool := m (startAddr A block) != 0

/-- `new (block) MagicBlock(size, start)` -/
def writeBlock (A : Target) (m : ByteMemory) (block size : ℕ) (start : Bool) : ByteMemory :=
  let m := m.write block A.ptrBytes size
  let m := Function.update m (startAddr A block) (if start then 1 else 0)
  modifyEach magicBytes (fun i => magicAddr A block + i) (fun i _ => magicChar start i) m

/-- `construct`: the usable space, and the memory with the two blocks. -/
def construct (A : Target) (m : ByteMemory) (allocation bytes : ℕ) : ℕ × ByteMemory :=
  let m := writeBlock A m allocation bytes true
  let useableSpace := allocation + blockBytes A
  let endBlock := useableSpace + bytes
  (useableSpace, writeBlock A m endBlock bytes false)

/-- `compare`, from `i` on with `n` characters to go. -/
def compare (a b : ℕ → UInt8) : ℕ → ℕ → Bool
  | 0, _ => true
  | n + 1, i => if a i ≠ b i then false else compare a b n (i + 1)

/-- `checkMagicString` -/
def checkMagicString (A : Target) (m : ByteMemory) (block : ℕ) : Bool :=
  if startAt A m block then
    compare (fun i => m (magicAddr A block + i)) (magicChar true) magicBytes 0
  else
    compare (fun i => m (magicAddr A block + i)) (magicChar false) magicBytes 0

/-- `CheckResult` -/
@[ext]
structure CheckResult where
  ptr : ℕ
  size : ℕ
  underrun : Bool
  overrun : Bool
deriving DecidableEq

/-- `check`.  A block can only be read where it lies in memory of the program; that the
address of the second one does is not checked. -/
def check (A : Target) (m : ByteMemory) (readable : ℕ → Bool) (ptr : ℕ) : Option CheckResult :=
  let startBlock := wsub A.bits ptr (blockBytes A)
  let result : CheckResult := ⟨startBlock, 0, true, true⟩
  if !readable startBlock then none
  else if checkMagicString A m startBlock then
    let endBlock := ptr + sizeAt A m startBlock
    let result := { result with underrun := false }
    if !readable endBlock then none
    else if checkMagicString A m endBlock then
      -- could mean overrun or underrun
      if sizeAt A m startBlock ≠ sizeAt A m endBlock then some result
      else some { result with overrun := false, size := sizeAt A m startBlock }
    else some result
  else some result

/-! ### Blocks in memory -/

/-- The block at `block` was made with this size and flag.  The size, all characters of the magic
string that belongs to the flag, and the flag itself, each in its own bytes. -/
structure HasBlock (A : Target) (m : ByteMemory) (block size : ℕ) (start : Bool) : Prop where
  size : sizeAt A m block = size
  magic : ∀ i < magicBytes, m (magicAddr A block + i) = magicChar start i
  flag : m (startAddr A block) = if start then 1 else 0

variable {m m' : ByteMemory} {block size : ℕ} {start : Bool}

theorem writeBlock_of_outside {x : ℕ} (h : x < block ∨ block + blockBytes A ≤ x) :
    writeBlock A m block size start x = m x := by
  simp only [blockBytes] at h
  rw [writeBlock, modifyEach_of_ne, Function.update_of_ne, ByteMemory.write_of_outside]
  · omega
  · rw [startAddr]
    omega
  · intro i hi
    rw [magicAddr]
    omega

theorem writeBlock_agreeOn {lo hi : ℕ} (h : hi ≤ block ∨ block + blockBytes A ≤ lo) :
    ByteMemory.AgreeOn m (writeBlock A m block size start) lo hi :=
  fun _ _ _ => writeBlock_of_outside (by omega)

theorem writeBlock_hasBlock (hsize : size < 2 ^ A.bits) :
    HasBlock A (writeBlock A m block size start) block size start where
  size := by
    have hframe : ByteMemory.AgreeOn (m.write block A.ptrBytes size)
        (writeBlock A m block size start) block (block + A.ptrBytes) := by
      intro x hlo hhi
      rw [writeBlock, modifyEach_of_ne fun i _ => by rw [magicAddr]; omega,
        Function.update_of_ne (by rw [startAddr]; omega)]
    rw [sizeAt, hframe.read, ByteMemory.read_write_of_lt]
    rwa [← Target.two_pow_bits]
  magic i hi := by
    have hinj : ∀ i < magicBytes, ∀ j < magicBytes,
        magicAddr A block + i = magicAddr A block + j → i = j :=
      fun i _ j _ h => Nat.add_left_cancel h
    rw [writeBlock, modifyEach_addr hinj hi]
  flag := by
    rw [writeBlock, modifyEach_of_ne fun i hi => by rw [magicAddr, startAddr]; omega,
      Function.update_self]

/-- Only the bytes of a block matter. -/
theorem HasBlock.congr (h : HasBlock A m block size start)
    (hsame : ByteMemory.AgreeOn m m' block (block + blockBytes A)) :
    HasBlock A m' block size start := by
  unfold blockBytes at hsame
  refine ⟨?_, fun i hi => ?_, ?_⟩
  · rw [sizeAt, (hsame.mono le_rfl (by omega)).read]
    exact h.size
  · rw [hsame _ (by rw [magicAddr]; omega) (by rw [magicAddr]; omega)]
    exact h.magic i hi
  · rw [hsame _ (by rw [startAddr]; omega) (by rw [startAddr]; omega)]
    exact h.flag

/-- All bytes of a block are determined by its size and flag. -/
theorem HasBlock.agreeOn (h : HasBlock A m block size start)
    (h' : HasBlock A m' block size start) :
    ByteMemory.AgreeOn m m' block (block + blockBytes A) := by
  intro x hlo hhi
  obtain ⟨j, rfl⟩ := Nat.exists_eq_add_of_le hlo
  unfold blockBytes at hhi
  rcases Nat.lt_or_ge j A.ptrBytes with hj | hj
  · apply UInt8.toNat_inj.mp
    rw [ByteMemory.toNat_eq_digit hj, ByteMemory.toNat_eq_digit hj]
    exact congrArg (· / 256 ^ j % 256) (h'.size.trans h.size.symm)
  · obtain ⟨i, rfl⟩ := Nat.exists_eq_add_of_le hj
    rw [← Nat.add_assoc]
    rcases Nat.lt_or_ge i magicBytes with hi | hi
    · exact (h'.magic i hi).trans (h.magic i hi).symm
    · obtain rfl : i = magicBytes := by omega
      exact h'.flag.trans h.flag.symm

/-! ### The magic strings -/

theorem compare_iff {a b : ℕ → UInt8} {n i : ℕ} :
    compare a b n i = true ↔ ∀ j, i ≤ j → j < i + n → a j = b j := by
  induction n generalizing i with
  | zero => exact iff_of_true rfl fun j hij hj => by omega
  | succ n ih =>
      rw [compare]
      split
      · rename_i hne
        exact iff_of_false Bool.false_ne_true fun h => hne (h i le_rfl (by omega))
      · rename_i heq
        rw [ih]
        constructor
        · intro h j hij hj
          rcases hij.eq_or_lt with rfl | hlt
          · exact not_not.mp heq
          · exact h j hlt (by omega)
        · exact fun h j hij hj => h j (by omega) (by omega)

/-- The magic string is compared with the one the flag names. -/
theorem checkMagicString_iff : checkMagicString A m block = true ↔
    ∀ i < magicBytes, m (magicAddr A block + i) = magicChar (startAt A m block) i := by
  have hone : ∀ start, compare (fun i => m (magicAddr A block + i)) (magicChar start)
      magicBytes 0 = true ↔
        ∀ i < magicBytes, m (magicAddr A block + i) = magicChar start i := by
    intro start
    rw [compare_iff, Nat.zero_add]
    exact ⟨fun h i hi => h i (Nat.zero_le i) hi, fun h i _ hi => h i hi⟩
  unfold checkMagicString
  split
  · rename_i hstart
    rw [hone, hstart]
  · rename_i hstart
    rw [hone, Bool.eq_false_iff.mpr hstart]

theorem HasBlock.startAt (h : HasBlock A m block size start) :
    MagicBlock.startAt A m block = start := by
  rw [MagicBlock.startAt, h.flag]
  cases start <;> rfl

theorem HasBlock.checkMagicString (h : HasBlock A m block size start) :
    checkMagicString A m block = true := by
  rw [checkMagicString_iff, h.startAt]
  exact h.magic

/-- Where there is a block with one flag there is none with the other. -/
theorem HasBlock.unique {size' : ℕ} {start' : Bool} (h : HasBlock A m block size start)
    (h' : HasBlock A m block size' start') : size = size' ∧ start = start' :=
  ⟨h.size.symm.trans h'.size, h.startAt.symm.trans h'.startAt⟩

/-- A flag of a block is 0 or 1. -/
theorem HasBlock.flagged (h : HasBlock A m block size start) :
    m (startAddr A block) = 0 ∨ m (startAddr A block) = 1 := by
  rw [h.flag]
  cases start
  · exact Or.inl rfl
  · exact Or.inr rfl

/-- What `checkMagicString` accepts is a block, if the flag is 0 or 1. -/
theorem exists_hasBlock (hflag : m (startAddr A block) = 0 ∨ m (startAddr A block) = 1)
    (hmagic : checkMagicString A m block = true) :
    ∃ start, HasBlock A m block (sizeAt A m block) start := by
  rw [checkMagicString_iff] at hmagic
  refine ⟨startAt A m block, rfl, hmagic, ?_⟩
  rcases hflag with hzero | hone
  · simp [startAt, hzero]
  · simp [startAt, hone]

/-! ### `check` -/

/-- `check` reports nothing if it finds one magic string and cannot look for the other, or if
it finds two, and the same size twice. -/
theorem check_reports_iff {readable : ℕ → Bool} {ptr block : ℕ}
    (hblock : wsub A.bits ptr (blockBytes A) = block) (hread : readable block = true) :
    (∃ r, check A m readable ptr = some r ∧ (r.underrun = true ∨ r.overrun = true)) ↔
      ¬ (checkMagicString A m block = true ∧
        (readable (ptr + sizeAt A m block) = true →
          checkMagicString A m (ptr + sizeAt A m block) = true ∧
          sizeAt A m (ptr + sizeAt A m block) = sizeAt A m block)) := by
  rw [check, hblock]
  dsimp only
  by_cases hstart : checkMagicString A m block = true
  · by_cases hin : readable (ptr + sizeAt A m block) = true
    · by_cases hend : checkMagicString A m (ptr + sizeAt A m block) = true
      · by_cases hsize : sizeAt A m block = sizeAt A m (ptr + sizeAt A m block)
        · simp [hread, hstart, hin, hend, ← hsize]
        · simp [hread, hstart, hin, hend, hsize, Ne.symm hsize]
      · simp [hread, hstart, hin, hend]
    · simp [hread, hstart, hin]
  · simp [hread, hstart]

/-! ### Regions -/

/-- An allocation with room for a payload and the two blocks, somewhere in the address space.  That
it fits is a field: no address of a region wraps. -/
structure Region (A : Target) where
  allocation : ℕ
  bytes : ℕ
  fits : allocation + bytes + 2 * blockBytes A ≤ 2 ^ A.bits

namespace Region

variable (R : Region A)

/-- The payload. -/
def useableSpace : ℕ := R.allocation + blockBytes A

/-- The block behind the payload. -/
def endBlock : ℕ := R.useableSpace + R.bytes

/-- The memory after `construct`. -/
def prepared (m₀ : ByteMemory) : ByteMemory := (construct A m₀ R.allocation R.bytes).2

/-- The first block is as in `m`. -/
def StartKept (m m' : ByteMemory) : Prop :=
  ByteMemory.AgreeOn m m' R.allocation R.useableSpace

/-- The second block is as in `m`. -/
def EndKept (m m' : ByteMemory) : Prop :=
  ByteMemory.AgreeOn m m' R.endBlock (R.endBlock + blockBytes A)

/-- A write out of the end of the payload reached the first `k` bytes behind it. -/
def Overrun (m m' : ByteMemory) (k : ℕ) : Prop :=
  R.StartKept m m' ∧ ByteMemory.AgreeOn m m' (R.endBlock + k) (R.endBlock + blockBytes A)

/-- A write out of the beginning of the payload reached the last `k` bytes in front of it. -/
def Underrun (m m' : ByteMemory) (k : ℕ) : Prop :=
  ByteMemory.AgreeOn m m' R.allocation (R.useableSpace - k) ∧ R.EndKept m m'

/-- A block at this address lies in the allocation. -/
def readable (block : ℕ) : Bool := R.allocation ≤ block && block ≤ R.endBlock

/-- The flags are values of `bool`.  A byte that is neither 0 nor 1 has no meaning as a `bool`, so
what `check` does with one is left open. -/
def Flagged (m : ByteMemory) : Prop :=
  ∀ block ∈ [R.allocation, R.endBlock], m (startAddr A block) = 0 ∨ m (startAddr A block) = 1

/-- `check` reports the size if the blocks are untouched, and an underrun or overrun if a
write out of the payload changed one of them. -/
def Detects (m₀ m : ByteMemory) : Prop :=
  (R.StartKept (R.prepared m₀) m → R.EndKept (R.prepared m₀) m →
    check A m R.readable R.useableSpace = some ⟨R.allocation, R.bytes, false, false⟩) ∧
  ∀ k, 1 ≤ k → k ≤ blockBytes A →
    R.Overrun (R.prepared m₀) m k ∨ R.Underrun (R.prepared m₀) m k → R.Flagged m →
    ¬ (R.StartKept (R.prepared m₀) m ∧ R.EndKept (R.prepared m₀) m) →
    ∃ r, check A m R.readable R.useableSpace = some r ∧
      (r.underrun = true ∨ r.overrun = true)

/-- The changes that `check` does not report: the end block has become a start block of the same
size, the start block an end block of the same size, or the start block has another size,
which points out of the allocation, or to a block of this size inside it. -/
def Disguised (m₀ m : ByteMemory) : Prop :=
  (R.StartKept (R.prepared m₀) m ∧ HasBlock A m R.endBlock R.bytes true) ∨
  (R.EndKept (R.prepared m₀) m ∧ HasBlock A m R.allocation R.bytes false) ∨
  (R.EndKept (R.prepared m₀) m ∧ ∃ size start, size ≠ R.bytes ∧
    HasBlock A m R.allocation size start ∧
    (size ≤ R.bytes → checkMagicString A m (R.useableSpace + size) = true ∧
      sizeAt A m (R.useableSpace + size) = size))

variable {R} {m₀ : ByteMemory}

theorem bytes_lt : R.bytes < 2 ^ A.bits := by
  have hfits := R.fits
  have hpos : 0 < blockBytes A := Nat.succ_pos _
  omega

theorem endBlock_lt : R.endBlock < 2 ^ A.bits := by
  have hfits := R.fits
  have hpos : 0 < blockBytes A := Nat.succ_pos _
  rw [endBlock, useableSpace]
  omega

/-- `check` finds the first block. -/
theorem startBlock_eq : wsub A.bits R.useableSpace (blockBytes A) = R.allocation := by
  have hlt := R.endBlock_lt
  rw [endBlock] at hlt
  have hle : blockBytes A ≤ R.useableSpace := Nat.le_add_left _ _
  rw [wsub_of_le (by omega) hle, useableSpace, Nat.add_sub_cancel]

/-- A size leads to an address in the allocation if it is not larger than it was. -/
theorem readable_iff {size : ℕ} : R.readable (R.useableSpace + size) = true ↔ size ≤ R.bytes := by
  rw [readable, Bool.and_eq_true, decide_eq_true_eq, decide_eq_true_eq, endBlock]
  have hle : R.allocation ≤ R.useableSpace := Nat.le_add_right _ _
  omega

theorem readable_allocation : R.readable R.allocation = true := by
  rw [readable, Bool.and_eq_true, decide_eq_true_eq, decide_eq_true_eq, endBlock, useableSpace]
  omega

/-- `construct` makes the two blocks. -/
theorem prepared_hasBlock (m₀ : ByteMemory) :
    HasBlock A (R.prepared m₀) R.allocation R.bytes true ∧
      HasBlock A (R.prepared m₀) R.endBlock R.bytes false := by
  constructor
  · refine (writeBlock_hasBlock R.bytes_lt).congr (writeBlock_agreeOn (Or.inl ?_))
    omega
  · exact writeBlock_hasBlock R.bytes_lt

theorem StartKept.hasBlock (h : R.StartKept (R.prepared m₀) m) :
    HasBlock A m R.allocation R.bytes true :=
  (prepared_hasBlock m₀).1.congr h

theorem EndKept.hasBlock (h : R.EndKept (R.prepared m₀) m) :
    HasBlock A m R.endBlock R.bytes false :=
  (prepared_hasBlock m₀).2.congr h

theorem startKept_iff :
    R.StartKept (R.prepared m₀) m ↔ HasBlock A m R.allocation R.bytes true :=
  ⟨StartKept.hasBlock, fun h => (prepared_hasBlock m₀).1.agreeOn h⟩

theorem endKept_iff :
    R.EndKept (R.prepared m₀) m ↔ HasBlock A m R.endBlock R.bytes false :=
  ⟨EndKept.hasBlock, fun h => (prepared_hasBlock m₀).2.agreeOn h⟩

/-- Untouched blocks are reported as such. -/
theorem check_of_kept (hstart : HasBlock A m R.allocation R.bytes true)
    (hend : HasBlock A m R.endBlock R.bytes false) :
    check A m R.readable R.useableSpace = some ⟨R.allocation, R.bytes, false, false⟩ := by
  have hin : R.readable R.endBlock = true := R.readable_iff.mpr le_rfl
  have hmagic := hend.checkMagicString
  have hsize := hend.size
  rw [endBlock] at hin hmagic hsize
  simp only [check, R.startBlock_eq, R.readable_allocation, hstart.checkMagicString,
    hstart.size, hin, hmagic, hsize, Bool.not_true, Bool.false_eq_true, if_false, if_true,
    ne_eq, not_true]

/-- **What is seen.**  A write that `check` does not report is disguised. -/
theorem detects_of_not_disguised (h : ¬ R.Disguised m₀ m) : R.Detects m₀ m := by
  refine ⟨fun hstart hend => check_of_kept hstart.hasBlock hend.hasBlock,
    fun k _ _ hwrite hflags hchanged => ?_⟩
  rw [check_reports_iff R.startBlock_eq R.readable_allocation]
  rintro ⟨hmagic, hclean⟩
  rw [readable_iff] at hclean
  obtain ⟨start, hblock⟩ := exists_hasBlock (hflags R.allocation (by simp)) hmagic
  rcases hwrite with ⟨hkept, -⟩ | ⟨-, hkept⟩
  · -- the size leads to the second block, which has the same size
    obtain ⟨hsame, -⟩ := hblock.unique hkept.hasBlock
    rw [hsame] at hclean
    obtain ⟨hmagic', hsize⟩ := hclean le_rfl
    rw [← endBlock] at hmagic' hsize
    obtain ⟨start', hblock'⟩ := exists_hasBlock (hflags R.endBlock (by simp)) hmagic'
    rw [hsize] at hblock'
    cases start' with
    | true => exact h (Or.inl ⟨hkept, hblock'⟩)
    | false => exact hchanged ⟨hkept, endKept_iff.mpr hblock'⟩
  · by_cases hsame : sizeAt A m R.allocation = R.bytes
    · rw [hsame] at hblock
      cases start with
      | true => exact hchanged ⟨startKept_iff.mpr hblock, hkept⟩
      | false => exact h (Or.inr (Or.inl ⟨hkept, hblock⟩))
    · exact h (Or.inr (Or.inr ⟨hkept, _, start, hsame, hblock, hclean⟩))

/-- A change of the first block is one by a write of all its bytes. -/
theorem underrun_all (h : R.EndKept (R.prepared m₀) m) :
    R.Underrun (R.prepared m₀) m (blockBytes A) := by
  refine ⟨fun x hlo hhi => ?_, h⟩
  rw [useableSpace] at hhi
  omega

/-- A write that left two blocks, the second of the size in the first one and where this
leads, if it can be read there. -/
theorem not_detects_of_blocks {size size' : ℕ} {start start' : Bool}
    (hstart : HasBlock A m R.allocation size start) (hend : HasBlock A m R.endBlock size' start')
    (hwrite : R.Overrun (R.prepared m₀) m (blockBytes A) ∨
      R.Underrun (R.prepared m₀) m (blockBytes A))
    (hchanged : ¬ (R.StartKept (R.prepared m₀) m ∧ R.EndKept (R.prepared m₀) m))
    (hclean : size ≤ R.bytes → checkMagicString A m (R.useableSpace + size) = true ∧
      sizeAt A m (R.useableSpace + size) = size) : ¬ R.Detects m₀ m := by
  intro hdetects
  have hflags : R.Flagged m := by
    intro block hmem
    rcases List.mem_pair.mp hmem with rfl | rfl
    · exact hstart.flagged
    · exact hend.flagged
  have hreports := hdetects.2 _ (Nat.succ_pos _) le_rfl hwrite hflags hchanged
  rw [check_reports_iff R.startBlock_eq R.readable_allocation, hstart.size, readable_iff]
    at hreports
  exact hreports ⟨hstart.checkMagicString, hclean⟩

/-- **What is not seen.**  Each kind of disguise is followed through `check`: it finds nothing wrong
with the blocks it looks at, or it has no result at all. -/
theorem not_detects_of_disguised (h : R.Disguised m₀ m) : ¬ R.Detects m₀ m := by
  rcases h with ⟨hkept, hblock⟩ | ⟨hkept, hblock⟩ | ⟨hkept, size, start, hne, hblock, hclean⟩
  · refine not_detects_of_blocks hkept.hasBlock hblock
      (Or.inl ⟨hkept, fun x hlo hhi => by omega⟩) ?_ fun _ => ⟨hblock.checkMagicString, hblock.size⟩
    rintro ⟨-, hend⟩
    exact absurd (hblock.unique hend.hasBlock).2 (by decide)
  · refine not_detects_of_blocks hblock hkept.hasBlock (Or.inr (underrun_all hkept)) ?_
      fun _ => ⟨hkept.hasBlock.checkMagicString, hkept.hasBlock.size⟩
    rintro ⟨hstart, -⟩
    exact absurd (hblock.unique hstart.hasBlock).2 (by decide)
  · refine not_detects_of_blocks hblock hkept.hasBlock (Or.inr (underrun_all hkept)) ?_ hclean
    rintro ⟨hstart, -⟩
    exact hne (hblock.unique hstart.hasBlock).1

/-- Four bytes of payload in a 64-bit address space. -/
def fourBytes : Region ⟨3⟩ := ⟨64, 4, by decide⟩

end Region

end MagicBlock

end Tklb
