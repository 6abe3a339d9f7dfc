import Tklb.Foundation.ByteMemory
import Tklb.HeapBuffer.Allocation
import Tklb.Target

/-!
# The addresses of a `HeapBuffer`

The memory of an aligned buffer starts behind the address `p` the allocator returned: at the
first multiple of `ALIGNMENT` above it.  The word in front of the elements keeps `p`, and
`allocate` reads it again when the memory is given back.

`HeapBuffer` names memory by blocks; this file follows the addresses and the bytes.
`allocate` is the same function once more, with the allocator's answer as an argument
(`Placed.allocate` connects the two).  The saved word is below the elements, so no store to
an element reaches it; what can reach it is the copy to the next memory, if fewer bytes were
asked for than are copied (`deallocates_iff`).

### Main results

* `aligned_spec` — where the elements start, and that the word in front of them is inside the
  memory that was asked for.
* `Saves.deallocated_iff` — the memory is exchanged, after arbitrary stores to the elements: it
  is given back with the address it was obtained with if and only if the copy spares the saved
  word (`Spares`).
* `deallocates_iff` — the whole story of one piece of memory, from the allocator's answer to the
  call that returns it.
* `Placed.allocate` — the function of this file and the one of `HeapBuffer` agree.

### What is load-bearing

In the model with blocks, a buffer that owns a block gives back that block.  That is a fact
about bytes in the source, and `Placed.allocate` is where it is established: it holds under
`Spares` and fails without it.  The results about what a program owns and gives back therefore
keep every byte count in the range of `Size`, which is enough for `Spares`.
-/

namespace Tklb

open Foundation

/-- `isPowerof2` -/
def isPowerof2 (v : ℕ) : Bool := v ≠ 0 && v &&& (v - 1) = 0

/-- The fields of a `HeapBuffer`, the bytes of the memory and the calls of `deallocate`, the
last one first: the pointer and the size that were passed.  The address `0` is `nullptr`. -/
structure AlignedBuffer where
  memory : ByteMemory
  mBuf : ℕ
  mSize : ℕ
  mRealSize : ℕ
  deallocated : List (ℕ × ℕ)

namespace AlignedBuffer

section Model

variable (A : Target) (B : BufferType)

/-- `aligned`, for the address the allocator returned. -/
def aligned (pointer : ℕ) : ℕ :=
  let mask := 2 ^ A.bits - (B.alignment - 1 + 1)
  let floored := pointer &&& mask
  wrap A.bits (floored + B.alignment)

/-- `isAligned` -/
def isAligned (ptr : ℕ) : Bool :=
  if ptr = 0 then false
  else if B.alignment = 0 then true
  else ptr &&& (B.alignment - 1) = 0

/-- The assertion on the gap: `sizeof(Pointer) <= (aligned - pointer)`. -/
def gapAsserted (pointer : ℕ) : Bool := A.ptrBytes ≤ wsub A.bits (aligned A B pointer) pointer

/-- The bytes of `chunk` elements, in `Size`. -/
def bytes (chunk : ℕ) : ℕ := wrap B.sizeBits (chunk * B.sizeofT)

/-- Where the elements start in new memory, and the memory with the address saved. -/
def place (m : ByteMemory) (newBuf : ℕ) : ℕ × ByteMemory :=
  if B.alignment ≠ 0 then
    let start := aligned A B newBuf
    (start, m.write (start - A.ptrBytes) A.ptrBytes newBuf)
  else (newBuf, m)

def injected (s : AlignedBuffer) : Bool := s.mRealSize = 0 ∧ 0 < s.mSize ∧ s.mBuf ≠ 0

/-- The address the memory was obtained with. -/
def original (s : AlignedBuffer) (oldBuf : ℕ) : ℕ :=
  if B.alignment = 0 then oldBuf else s.memory.read (oldBuf - A.ptrBytes) A.ptrBytes

/-- The end of `allocate`: the old memory is given back if it was owned. -/
def release (s : AlignedBuffer) (oldBuf chunk : ℕ) : AlignedBuffer :=
  { s with
    deallocated :=
      if oldBuf ≠ 0 ∧ ¬ s.injected ∧ 0 < s.mRealSize then
        (s.original A B oldBuf, s.mRealSize) :: s.deallocated
      else s.deallocated
    mRealSize := chunk }

/-- `allocate`, when the allocator answers `newBuf`. -/
def allocate (s : AlignedBuffer) (chunk newBuf : ℕ) : Bool × AlignedBuffer :=
  if 0 < chunk then
    if newBuf = 0 then (false, s)
    else
      let (start, memory) := place A B s.memory newBuf
      let memory :=
        if 0 < s.mSize ∧ s.mBuf ≠ 0 ∧ start ≠ 0 then
          memory.move start s.mBuf (min s.mSize chunk * B.sizeofT)
        else memory
      (true, { s with memory := memory, mBuf := start }.release A B s.mBuf chunk)
  else (true, { s with mBuf := 0 }.release A B s.mBuf chunk)

end Model

/-- The elements were written to, one byte after the other, and there are `size` of them
now. -/
def written (s : AlignedBuffer) (stores : List (ℕ × UInt8)) (size : ℕ) : AlignedBuffer :=
  { s with
    memory := stores.foldl (fun m x => Function.update m x.1 x.2) s.memory
    mSize := size }

@[simp] theorem written_mSize (s : AlignedBuffer) (stores : List (ℕ × UInt8)) (size : ℕ) :
    (s.written stores size).mSize = size := rfl

/-- Two stretches of memory have no byte in common. -/
def Disjoint (a n b k : ℕ) : Prop := a + n ≤ b ∨ b + k ≤ a

/-- The copy of `n` bytes to `start` leaves the word in front of the elements at `a`
alone. -/
def Spares (A : Target) (start n a : ℕ) : Prop :=
  ∀ x, start ≤ x → x < start + n → ¬ (a - A.ptrBytes ≤ x ∧ x < a)

/-! ### The address arithmetic -/

section Address

variable {A : Target} {B : BufferType} {p : ℕ}

theorem isPowerof2_iff {v : ℕ} : isPowerof2 v = true ↔ ∃ k, v = 2 ^ k := by
  simp only [isPowerof2, ne_eq, Bool.and_eq_true, decide_eq_true_eq]
  exact Nat.ne_zero_and_sub_one_eq_zero_iff_isPowerOfTwo

/-- The first multiple of `ALIGNMENT` above the address. -/
theorem aligned_eq (hpow : isPowerof2 B.alignment) (hend : p + B.alignment < 2 ^ A.bits) :
    aligned A B p = p / B.alignment * B.alignment + B.alignment := by
  obtain ⟨k, hk⟩ := isPowerof2_iff.mp hpow
  have hdiv := Nat.div_mul_le_self p B.alignment
  have hfloor : p &&& (2 ^ A.bits - (B.alignment - 1 + 1)) =
      p / B.alignment * B.alignment := by
    rw [hk]
    exact and_not_mask_eq (by omega)
  rw [aligned, hfloor, wrap_of_lt (by omega)]

/-- A word is a divisor of every alignment that is not smaller. -/
theorem ptrBytes_dvd_alignment (hpow : isPowerof2 B.alignment)
    (hle : A.ptrBytes ≤ B.alignment) : A.ptrBytes ∣ B.alignment := by
  obtain ⟨k, hk⟩ := isPowerof2_iff.mp hpow
  rw [hk] at hle ⊢
  exact Nat.pow_dvd_pow 2 ((Nat.pow_le_pow_iff_right (by omega)).mp hle)

/-- **The start of the elements** is a multiple of `ALIGNMENT`, at least a word and at most
`ALIGNMENT` bytes behind the address the allocator returned. -/
theorem aligned_spec (hpow : isPowerof2 B.alignment) (hle : A.ptrBytes ≤ B.alignment)
    (hp : A.ptrBytes ∣ p) (hend : p + B.alignment < 2 ^ A.bits) :
    B.alignment ∣ aligned A B p ∧ p + A.ptrBytes ≤ aligned A B p ∧
      aligned A B p ≤ p + B.alignment := by
  have hword := A.ptrBytes_pos
  have hmod := Nat.mod_add_div' p B.alignment
  have hrem := Nat.mod_lt p (show 0 < B.alignment by omega)
  have hdvd : B.alignment ∣ p / B.alignment * B.alignment + B.alignment :=
    Nat.dvd_add (Nat.dvd_mul_left _ _) dvd_rfl
  rw [aligned_eq hpow hend]
  refine ⟨hdvd, ?_, by omega⟩
  -- both are whole words, so they differ by a word
  exact Target.add_ptrBytes_le hp ((ptrBytes_dvd_alignment hpow hle).trans hdvd) (by omega)

/-- Both assertions hold. -/
theorem asserted (hpow : isPowerof2 B.alignment) (hle : A.ptrBytes ≤ B.alignment)
    (hp : A.ptrBytes ∣ p) (hend : p + B.alignment < 2 ^ A.bits) :
    gapAsserted A B p = true ∧ isAligned B (aligned A B p) = true := by
  have hword := A.ptrBytes_pos
  obtain ⟨hdvd, hlow, hhigh⟩ := aligned_spec hpow hle hp hend
  constructor
  · rw [gapAsserted, wsub_of_le (by omega) (by omega), decide_eq_true_eq]
    omega
  · obtain ⟨k, hk⟩ := isPowerof2_iff.mp hpow
    have hmask : aligned A B p &&& (B.alignment - 1) = aligned A B p % B.alignment := by
      rw [hk]
      exact and_mask_eq_mod _ k
    rw [isAligned, if_neg (by omega), if_neg (by omega), hmask, decide_eq_true_eq]
    exact Nat.mod_eq_zero_of_dvd hdvd

end Address

/-! ### The saved word -/

section Saved

variable {A : Target} {B : BufferType} {s : AlignedBuffer} {p q chunk : ℕ}

/-- The buffer owns memory of `chunk` elements, and the word in front of them is the address
it was obtained with. -/
structure Saves (A : Target) (B : BufferType) (s : AlignedBuffer) (p chunk : ℕ) : Prop where
  start : s.mBuf = aligned A B p
  real : s.mRealSize = chunk
  word : s.memory.read (s.mBuf - A.ptrBytes) A.ptrBytes = p

/-- The memory when the new elements start at `start`: the address is saved in front of them
and the existing content is copied. -/
def exchanged (A : Target) (s : AlignedBuffer) (start newBuf n : ℕ) : ByteMemory :=
  let m := s.memory.write (start - A.ptrBytes) A.ptrBytes newBuf
  if 0 < s.mSize ∧ s.mBuf ≠ 0 then m.move start s.mBuf n else m

theorem exchanged_of_pos {start n : ℕ} (hsize : 0 < s.mSize) (hbuf : s.mBuf ≠ 0) :
    s.exchanged A start q n =
      (s.memory.write (start - A.ptrBytes) A.ptrBytes q).move start s.mBuf n :=
  if_pos ⟨hsize, hbuf⟩

/-- `allocate` with new memory, for an aligned buffer. -/
theorem allocate_eq (halign : B.alignment ≠ 0) (hchunk : 0 < chunk) (hq : q ≠ 0)
    (hstart : aligned A B q ≠ 0) :
    allocate A B s chunk q = (true, release A B
      { s with
        memory := s.exchanged A (aligned A B q) q (min s.mSize chunk * B.sizeofT)
        mBuf := aligned A B q } s.mBuf chunk) := by
  rw [allocate, if_pos hchunk, if_neg hq, place, if_pos halign]
  simp only [hstart, ne_eq, not_false_eq_true, and_true, exchanged]

/-- The word that is written in front of the elements stays there: the elements are copied
behind it. -/
theorem saves_allocate (hpow : isPowerof2 B.alignment) (hle : A.ptrBytes ≤ B.alignment)
    (hchunk : 0 < chunk) (hnull : p ≠ 0) (hp : A.ptrBytes ∣ p)
    (hend : p + B.alignment < 2 ^ A.bits) :
    Saves A B (allocate A B s chunk p).2 p chunk := by
  have hword := A.ptrBytes_pos
  obtain ⟨-, hlow, -⟩ := aligned_spec hpow hle hp hend
  rw [allocate_eq (by omega) hchunk hnull (by omega)]
  refine ⟨rfl, rfl, ?_⟩
  dsimp only [release, exchanged]
  split
  · rw [(ByteMemory.move_agreeOn (by omega)).read,
      ByteMemory.read_write_of_lt (by rw [← A.two_pow_bits]; omega)]
  · exact ByteMemory.read_write_of_lt (by rw [← A.two_pow_bits]; omega)

/-- Stores behind an address do not change what is in front of it. -/
theorem foldl_update_agreeOn {stores : List (ℕ × UInt8)} {lo hi : ℕ}
    (hstores : ∀ x ∈ stores, hi ≤ x.1) (m : ByteMemory) :
    ByteMemory.AgreeOn m (stores.foldl (fun m x => Function.update m x.1 x.2) m) lo hi := by
  induction stores generalizing m with
  | nil => exact ByteMemory.AgreeOn.refl _ _ _
  | cons x stores ih =>
      exact (ByteMemory.update_agreeOn (Or.inr (hstores x List.mem_cons_self))).trans
        (ih (fun y hy => hstores y (List.mem_cons_of_mem _ hy)) _)

/-- Stores to the elements leave the word alone. -/
theorem Saves.written (h : Saves A B s p chunk) (hword : A.ptrBytes ≤ s.mBuf)
    {stores : List (ℕ × UInt8)} (hstores : ∀ x ∈ stores, s.mBuf ≤ x.1) (size : ℕ) :
    Saves A B (s.written stores size) p chunk := by
  refine ⟨h.start, h.real, ?_⟩
  have hagree : ByteMemory.AgreeOn s.memory _ (s.mBuf - A.ptrBytes) s.mBuf :=
    foldl_update_agreeOn hstores s.memory
  dsimp only [AlignedBuffer.written]
  rw [ByteMemory.AgreeOn.read (hagree.mono le_rfl (by omega)), h.word]

/-- Memory that is owned is given back. -/
theorem release_owned (halign : B.alignment ≠ 0) (hreal : s.mRealSize ≠ 0) {oldBuf : ℕ}
    (hold : oldBuf ≠ 0) (n : ℕ) :
    (s.release A B oldBuf n).deallocated =
      (s.memory.read (oldBuf - A.ptrBytes) A.ptrBytes, s.mRealSize) :: s.deallocated := by
  have hinjected : ¬ s.injected := by simp [injected, hreal]
  rw [release]
  dsimp only
  rw [if_pos ⟨hold, hinjected, Nat.pos_of_ne_zero hreal⟩, original, if_neg halign]

/-- The memory is given back without new one: `resize(0)`, and so the destructor. -/
theorem Saves.allocate_zero (h : Saves A B s p chunk) (halign : B.alignment ≠ 0)
    (hchunk : chunk ≠ 0) (hbuf : s.mBuf ≠ 0) :
    (allocate A B s 0 q).2.deallocated = (p, chunk) :: s.deallocated := by
  have hreal : s.mRealSize ≠ 0 := h.real ▸ hchunk
  rw [allocate, if_neg (lt_irrefl 0)]
  refine (release_owned halign ?_ hbuf 0).trans ?_
  · exact hreal
  · dsimp only
    rw [h.word, h.real]

/-- The memory is given back for new one: the word is read when the elements have been
copied. -/
theorem Saves.allocate_pos (h : Saves A B s p chunk) (halign : B.alignment ≠ 0)
    (hchunk : chunk ≠ 0) (hbuf : s.mBuf ≠ 0) {n : ℕ} (hn : 0 < n) (hq : q ≠ 0)
    (hstart : aligned A B q ≠ 0) :
    (allocate A B s n q).2.deallocated =
      ((s.exchanged A (aligned A B q) q (min s.mSize n * B.sizeofT)).read
        (s.mBuf - A.ptrBytes) A.ptrBytes, chunk) :: s.deallocated := by
  have hreal : s.mRealSize ≠ 0 := h.real ▸ hchunk
  rw [allocate_eq halign hn hq hstart]
  refine (release_owned halign ?_ hbuf n).trans ?_
  · exact hreal
  · dsimp only
    rw [h.real]

/-- The word is read as it was saved if the copy spares it. -/
theorem read_exchanged (hsaved : s.memory.read (s.mBuf - A.ptrBytes) A.ptrBytes = p)
    {start n : ℕ} (hword : A.ptrBytes ≤ s.mBuf) (hnew : A.ptrBytes ≤ start)
    (hgap : start + A.ptrBytes ≤ s.mBuf ∨ s.mBuf + A.ptrBytes ≤ start)
    (hspares : Spares A start n s.mBuf) :
    (s.exchanged A start q n).read (s.mBuf - A.ptrBytes) A.ptrBytes = p := by
  have hwrite : ByteMemory.AgreeOn s.memory (s.memory.write (start - A.ptrBytes) A.ptrBytes q)
      (s.mBuf - A.ptrBytes) s.mBuf := ByteMemory.write_agreeOn (by omega)
  have hagree : ByteMemory.AgreeOn s.memory (s.exchanged A start q n) (s.mBuf - A.ptrBytes)
      s.mBuf := by
    unfold exchanged
    split
    · refine hwrite.trans fun x hlo hhi => ByteMemory.move_of_outside ?_
      have := hspares x
      omega
    · exact hwrite
  rw [ByteMemory.AgreeOn.read (hagree.mono le_rfl (by omega)), hsaved]

/-- If the copy does not spare the word, some element of the buffer is copied over it. -/
theorem exists_store {start n size : ℕ} (hword : A.ptrBytes ≤ s.mBuf) (hbuf : s.mBuf ≠ 0)
    (hsize : 0 < size) (hnot : ¬ Spares A start n s.mBuf) :
    ∃ y v, s.mBuf ≤ y ∧ y < s.mBuf + n ∧
      ((s.written [(y, v)] size).exchanged A start q n).read (s.mBuf - A.ptrBytes)
        A.ptrBytes ≠ p := by
  simp only [Spares, not_forall, not_not] at hnot
  obtain ⟨x, hlo, hhi, hin, hbelow⟩ := hnot
  obtain ⟨j, rfl⟩ : ∃ j, x = s.mBuf - A.ptrBytes + j := ⟨_, (Nat.add_sub_cancel' hin).symm⟩
  -- a byte that the address does not have at this place
  obtain ⟨v, hv⟩ : ∃ v : UInt8, v.toNat ≠ p / 256 ^ j % 256 := by
    by_cases hzero : p / 256 ^ j % 256 = 0
    · exact ⟨1, by rw [hzero]; decide⟩
    · exact ⟨0, fun heq => hzero heq.symm⟩
  refine ⟨s.mBuf + (s.mBuf - A.ptrBytes + j - start), v, by omega, by omega, fun hread => hv ?_⟩
  have hdigit := ByteMemory.toNat_eq_digit (a := s.mBuf - A.ptrBytes) (n := A.ptrBytes) (j := j)
    (m := (s.written [(s.mBuf + (s.mBuf - A.ptrBytes + j - start), v)] size).exchanged A start q n)
    (by omega)
  have hcopied : (s.written [(s.mBuf + (s.mBuf - A.ptrBytes + j - start), v)] size).exchanged A
      start q n = _ := exchanged_of_pos hsize hbuf
  rw [hread, hcopied] at hdigit
  rw [← hdigit, ByteMemory.move, if_pos ⟨hlo, hhi⟩]
  dsimp only [AlignedBuffer.written, List.foldl]
  rw [ByteMemory.write_of_outside (by omega), Function.update_self]

/-- **Exchanging the memory** gives the address back, for all that may have been written, if
and only if the copy spares the word. -/
theorem Saves.deallocated_iff (h : Saves A B s p chunk) (halign : B.alignment ≠ 0)
    (hchunk : chunk ≠ 0) (hbuf : s.mBuf ≠ 0) (hword : A.ptrBytes ≤ s.mBuf) (size : ℕ) {n : ℕ}
    (hn : 0 < n) (hq : q ≠ 0) (hstart : aligned A B q ≠ 0) (hnew : A.ptrBytes ≤ aligned A B q)
    (hgap : aligned A B q + A.ptrBytes ≤ s.mBuf ∨ s.mBuf + A.ptrBytes ≤ aligned A B q) :
    (∀ stores : List (ℕ × UInt8), (∀ x ∈ stores, s.mBuf ≤ x.1) →
        (allocate A B (s.written stores size) n q).2.deallocated =
          (p, chunk) :: s.deallocated) ↔
      Spares A (aligned A B q) (min size n * B.sizeofT) s.mBuf := by
  constructor
  · intro hall
    by_contra hnot
    have hsize : 0 < size := by
      refine Nat.pos_of_ne_zero fun hzero => hnot fun x hlo hhi => ?_
      rw [hzero, Nat.zero_min, Nat.zero_mul] at hhi
      omega
    obtain ⟨y, v, hy, -, hread⟩ := exists_store (p := p) (q := q) hword hbuf hsize hnot
    have hstores : ∀ x ∈ [(y, v)], s.mBuf ≤ x.1 := by simpa using hy
    have hgiven := hall [(y, v)] hstores
    rw [(h.written hword hstores size).allocate_pos halign hchunk hbuf hn hq hstart] at hgiven
    exact hread (Prod.mk.inj (List.cons.inj hgiven).1).1
  · intro hspares stores hstores
    have hwritten := h.written hword hstores size
    rw [hwritten.allocate_pos halign hchunk hbuf hn hq hstart, written_mSize,
      read_exchanged hwritten.word hword hnew hgap hspares]
    rfl

/-- As many bytes as the new memory was obtained with do not leave it. -/
theorem spares_of_le {a start n k : ℕ} (hdisjoint : Disjoint (a - A.ptrBytes) A.ptrBytes start k)
    (hword : A.ptrBytes ≤ a) (hle : n ≤ k) : Spares A start n a := by
  intro x hlo hhi hin
  unfold Disjoint at hdisjoint
  omega

/-- **The address goes back to the allocator.**  An aligned buffer takes the memory at `p`.
The elements start at a multiple of `ALIGNMENT`, the saved word and the elements are
disjoint and inside the memory, and both assertions hold.  Whatever is written to the
elements after that, `resize(0)` and the destructor hand `p` to `deallocate`; and so does
the exchange for other memory, for all that may have been written, if and only if the
elements are not copied over the saved word, which they are not if the bytes of the new
memory are a value of `Size`. -/
theorem deallocates_iff (hpow : isPowerof2 B.alignment) (hle : A.ptrBytes ≤ B.alignment)
    (s : AlignedBuffer) (hchunk : 0 < chunk) (hnull : p ≠ 0) (hp : A.ptrBytes ∣ p)
    (hend : p + bytes B chunk + B.alignment < 2 ^ A.bits) :
    let a := aligned A B p
    let t := (allocate A B s chunk p).2
    (t.mBuf = a ∧ B.alignment ∣ a ∧ p + A.ptrBytes ≤ a ∧ a ≤ p + B.alignment) ∧
    (p ≤ a - A.ptrBytes ∧ Disjoint (a - A.ptrBytes) A.ptrBytes a (bytes B chunk) ∧
      a + bytes B chunk ≤ p + (bytes B chunk + B.alignment)) ∧
    (gapAsserted A B p = true ∧ isAligned B a = true) ∧
    ∀ size,
      (∀ stores : List (ℕ × UInt8), (∀ x ∈ stores, a ≤ x.1) →
        ∀ q, (allocate A B (t.written stores size) 0 q).2.deallocated =
          (p, chunk) :: t.deallocated) ∧
      ∀ n q, 0 < n → q ≠ 0 → A.ptrBytes ∣ q → q + bytes B n + B.alignment < 2 ^ A.bits →
        Disjoint p (bytes B chunk + B.alignment) q (bytes B n + B.alignment) →
          ((∀ stores : List (ℕ × UInt8), (∀ x ∈ stores, a ≤ x.1) →
              (allocate A B (t.written stores size) n q).2.deallocated =
                (p, chunk) :: t.deallocated) ↔
            Spares A (aligned A B q) (min size n * B.sizeofT) a) ∧
          (n * B.sizeofT < 2 ^ B.sizeBits →
            Spares A (aligned A B q) (min size n * B.sizeofT) a) := by
  have hword := A.ptrBytes_pos
  have halign : B.alignment ≠ 0 := by omega
  obtain ⟨hdvd, hlow, hhigh⟩ := aligned_spec hpow hle hp (by omega)
  have hsaves : Saves A B (allocate A B s chunk p).2 p chunk :=
    saves_allocate hpow hle hchunk hnull hp (by omega)
  have hstart := hsaves.start
  refine ⟨⟨hstart, hdvd, hlow, hhigh⟩, ⟨by omega, Or.inl (by omega), by omega⟩,
    asserted hpow hle hp (by omega), fun size => ⟨fun stores hstores q => ?_,
      fun n q hn hq hqword hqend hdisjoint => ⟨?_, fun hfits => ?_⟩⟩⟩
  · refine (hsaves.written (by omega) (by rwa [hstart]) size).allocate_zero halign hchunk.ne' ?_
    rw [AlignedBuffer.written, hstart]
    omega
  · obtain ⟨-, hqlow, hqhigh⟩ := aligned_spec hpow hle hqword (by omega)
    unfold Disjoint at hdisjoint
    rw [← hstart]
    exact hsaves.deallocated_iff halign hchunk.ne' (by omega) (by omega) size hn hq (by omega)
      (by omega) (by omega)
  · obtain ⟨-, hqlow, hqhigh⟩ := aligned_spec hpow hle hqword (by omega)
    refine spares_of_le (k := bytes B n) ?_ (by omega) ?_
    · unfold Disjoint at hdisjoint ⊢
      omega
    · rw [bytes, wrap_of_lt hfits]
      exact Nat.mul_le_mul_right _ (Nat.min_le_right _ _)

/-- 16 `float`s at 4096, then 32 at 8192. -/
theorem deallocates_iff_float :
    ∃ t, allocate ⟨3⟩ ⟨32, 64, 4, 16⟩ ⟨fun _ => 0, 0, 0, 0, []⟩ 16 4096 = (true, t) ∧
      t.mBuf = 4112 ∧
      (allocate ⟨3⟩ ⟨32, 64, 4, 16⟩ (t.written [(4112, 7)] 3) 32 8192).2.deallocated =
        [(4096, 16)] := by
  refine ⟨_, rfl, rfl, ?_⟩
  obtain ⟨-, -, -, hlater⟩ := @deallocates_iff ⟨3⟩ ⟨32, 64, 4, 16⟩ 4096 16 (by decide) (by decide)
    ⟨fun _ => 0, 0, 0, 0, []⟩ (by decide) (by decide) (by decide) (by decide)
  obtain ⟨hiff, hspares⟩ := (hlater 3).2 32 8192 (by decide) (by decide) (by decide) (by decide)
    (Or.inl (by decide))
  exact hiff.mpr (hspares (by decide)) [(4112, 7)] (by decide)

/-- 20 `float`s at 4176 make room for 2³⁰ at 4096: the bytes of these are no value of `Size`,
no more than the 16 for the alignment are asked for, and the elements are copied over the
saved word. -/
theorem not_deallocates :
    ∃ t, allocate ⟨3⟩ ⟨32, 64, 4, 16⟩ ⟨fun _ => 0, 0, 0, 0, []⟩ 32 4176 = (true, t) ∧
      bytes ⟨32, 64, 4, 16⟩ (2 ^ 30) = 0 ∧ Disjoint 4176 (128 + 16) 4096 (0 + 16) ∧
      (allocate ⟨3⟩ ⟨32, 64, 4, 16⟩ (t.written [] 20) (2 ^ 30) 4096).2.deallocated =
        [(0, 32)] :=
  ⟨_, rfl, by decide, Or.inr (by decide), rfl⟩

end Saved

/-! ### Blocks and addresses -/

section Placed

variable {A : Target} {B : BufferType} {T : Type} {obtained start : ℕ → ℕ}
  {b : BufferState T} {s : AlignedBuffer}

/-- The addresses of the blocks: the block `i` was `obtained i`, and its elements start at
`start i`. -/
structure Placed (A : Target) (B : BufferType) (obtained start : ℕ → ℕ) (b : BufferState T)
    (s : AlignedBuffer) : Prop where
  buf : s.mBuf = b.buffer.mBuf.elim 0 start
  size : s.mSize = b.buffer.mSize
  real : s.mRealSize = b.buffer.mRealSize
  deallocated : s.deallocated.map Prod.fst = b.heap.freed.map obtained
  saved : ∀ i, b.buffer.owned = some i → s.original A B (start i) = obtained i

/-- The block a buffer owns is given back by the address it was obtained with. -/
theorem Placed.release (h : Placed A B obtained start b s) (hstart : ∀ i, start i ≠ 0)
    {s' : AlignedBuffer} (hreal : s'.mRealSize = s.mRealSize)
    (hsame : s'.deallocated = s.deallocated)
    (hsaved : ∀ i, b.buffer.owned = some i → s'.original A B (start i) = obtained i) (n : ℕ) :
    (s'.release A B s.mBuf n).deallocated.map Prod.fst =
      (b.buffer.owned.toList ++ b.heap.freed).map obtained := by
  have hreal' := hreal.trans h.real
  rw [AlignedBuffer.release]
  dsimp only
  by_cases hzero : b.buffer.mRealSize = 0
  · rw [if_neg (by omega), HeapBuffer.owned_of_zero hzero, hsame, h.deallocated]
    rfl
  · have hinjected : ¬ s'.injected := by simp [injected, hreal', hzero]
    have howned := HeapBuffer.owned_of_ne hzero
    cases hbuf : b.buffer.mBuf with
    | none =>
        rw [h.buf, hbuf, if_neg (fun hnull => hnull.1 rfl), howned, hbuf, hsame, h.deallocated]
        rfl
    | some i =>
        rw [h.buf, hbuf, if_pos ⟨hstart i, hinjected, by omega⟩, howned, hbuf, List.map_cons,
          hsame, h.deallocated]
        dsimp only [Option.elim_some]
        rw [hsaved i (by rw [howned, hbuf])]
        rfl

theorem Placed.buf_of_owned (h : Placed A B obtained start b s) {i : ℕ}
    (hi : b.buffer.owned = some i) : s.mBuf = start i := by
  unfold HeapBuffer.owned at hi
  split at hi
  · cases hi
  · rw [h.buf, hi]
    rfl

/-- Giving the memory back without new one. -/
theorem Placed.allocate_zero (h : Placed A B obtained start b s) (hstart : ∀ i, start i ≠ 0)
    (p : ℕ) :
    (AlignedBuffer.allocate A B s 0 p).1 = (b.allocate B 0).1 ∧
      Placed A B obtained start (b.allocate B 0).2 (AlignedBuffer.allocate A B s 0 p).2 := by
  obtain ⟨t, hcall, hexchanged, -⟩ := BufferState.allocate_zero_exchanges B b
  rw [hcall, AlignedBuffer.allocate, if_neg (lt_irrefl 0)]
  refine ⟨rfl, ?_, ?_, ?_, ?_, fun i hi => ?_⟩
  · rw [hexchanged.buffer]
    rfl
  · rw [hexchanged.buffer]
    exact h.size
  · rw [hexchanged.buffer]
    rfl
  · rw [hexchanged.freed]
    refine h.release hstart ?_ ?_ ?_ 0
    · rfl
    · rfl
    · exact h.saved
  · rw [hexchanged.buffer, HeapBuffer.owned_of_zero rfl] at hi
    cases hi

/-- The word of the old block is read after the copy. -/
theorem Placed.read_exchanged (h : Placed A B obtained start b s) (halign : B.alignment ≠ 0)
    {i q a n : ℕ} (hi : b.buffer.owned = some i) (hnew : A.ptrBytes ≤ a)
    (hspares : Spares A a n s.mBuf)
    (hgap : A.ptrBytes ≤ start i ∧
      (a + A.ptrBytes ≤ start i ∨ start i + A.ptrBytes ≤ a)) :
    (s.exchanged A a q n).read (start i - A.ptrBytes) A.ptrBytes = obtained i := by
  obtain ⟨hword, hapart⟩ := hgap
  have hsaved := h.saved i hi
  rw [← h.buf_of_owned hi] at hword hapart hsaved ⊢
  rw [original, if_neg halign] at hsaved
  exact AlignedBuffer.read_exchanged hsaved hword hnew hapart hspares

/-- New memory for the old one. -/
theorem Placed.allocate_granted (h : Placed A B obtained start b s)
    (hpow : isPowerof2 B.alignment) (hle : A.ptrBytes ≤ B.alignment)
    (hstart : ∀ i, start i ≠ 0) {chunk : ℕ} (hchunk : 0 < chunk)
    (hgrant : b.heap.grants b.heap.requests = true)
    (hobtained : obtained b.heap.blocks ≠ 0) (hp : A.ptrBytes ∣ obtained b.heap.blocks)
    (hend : obtained b.heap.blocks + B.alignment < 2 ^ A.bits)
    (hplace : start b.heap.blocks = aligned A B (obtained b.heap.blocks))
    (hspares : Spares A (start b.heap.blocks) (min s.mSize chunk * B.sizeofT) s.mBuf)
    (hgap : ∀ i, b.buffer.owned = some i → A.ptrBytes ≤ start i ∧
      (start b.heap.blocks + A.ptrBytes ≤ start i ∨ start i + A.ptrBytes ≤ start b.heap.blocks)) :
    (AlignedBuffer.allocate A B s chunk (obtained b.heap.blocks)).1 = (b.allocate B chunk).1 ∧
      Placed A B obtained start (b.allocate B chunk).2
        (AlignedBuffer.allocate A B s chunk (obtained b.heap.blocks)).2 := by
  have halign : B.alignment ≠ 0 := by have := A.ptrBytes_pos; omega
  obtain ⟨t, hcall, hexchanged, -⟩ := BufferState.allocate_exchanges (B := B) hchunk hgrant
  have hsaves := saves_allocate (s := s) hpow hle hchunk hobtained hp hend
  have hlow := (aligned_spec hpow hle hp hend).2.1
  have hnew := allocate_eq (A := A) (s := s) halign hchunk hobtained
    (hplace ▸ hstart b.heap.blocks)
  rw [hcall]
  rw [hplace] at hspares hgap
  refine ⟨by rw [hnew], ?_, ?_, ?_, ?_, fun i hi => ?_⟩
  · rw [hexchanged.buffer, hsaves.start, ← hplace]
    rfl
  · rw [hexchanged.buffer, hnew]
    exact h.size
  · rw [hexchanged.buffer, hsaves.real]
  · rw [hexchanged.freed, hnew]
    refine h.release hstart ?_ ?_ (fun i hi => ?_) chunk
    · rfl
    · rfl
    · rw [original, if_neg halign]
      exact h.read_exchanged halign hi (by omega) hspares (hgap i hi)
  · rw [hexchanged.buffer, HeapBuffer.owned_of_ne hchunk.ne'] at hi
    obtain rfl := Option.some.inj hi
    rw [original, if_neg halign, hplace, ← hsaves.start]
    exact hsaves.word

/-- **`allocate` on blocks is `allocate` on addresses**, if the copy spares the word that
leads back to the old block: the same result, and the blocks that are given back are given
back by the addresses they were obtained with. -/
theorem Placed.allocate (h : Placed A B obtained start b s) (hpow : isPowerof2 B.alignment)
    (hle : A.ptrBytes ≤ B.alignment) (hstart : ∀ i, start i ≠ 0) {chunk p : ℕ}
    (hanswer : p = if b.heap.grants b.heap.requests then obtained b.heap.blocks else 0)
    (hobtained : obtained b.heap.blocks ≠ 0) (hp : A.ptrBytes ∣ obtained b.heap.blocks)
    (hend : obtained b.heap.blocks + B.alignment < 2 ^ A.bits)
    (hplace : start b.heap.blocks = aligned A B (obtained b.heap.blocks))
    (hspares : Spares A (start b.heap.blocks) (min s.mSize chunk * B.sizeofT) s.mBuf)
    (hgap : ∀ i, b.buffer.owned = some i → A.ptrBytes ≤ start i ∧
      (start b.heap.blocks + A.ptrBytes ≤ start i ∨ start i + A.ptrBytes ≤ start b.heap.blocks)) :
    (AlignedBuffer.allocate A B s chunk p).1 = (b.allocate B chunk).1 ∧
      Placed A B obtained start (b.allocate B chunk).2
        (AlignedBuffer.allocate A B s chunk p).2 := by
  rcases Nat.eq_zero_or_pos chunk with rfl | hchunk
  · exact h.allocate_zero hstart p
  · cases hgrant : b.heap.grants b.heap.requests with
    | false =>
        rw [hgrant, if_neg Bool.false_ne_true] at hanswer
        rw [BufferState.allocate_refused hchunk hgrant, AlignedBuffer.allocate, if_pos hchunk,
          if_pos hanswer]
        exact ⟨rfl, h.buf, h.size, h.real, h.deallocated, h.saved⟩
    | true =>
        rw [hgrant, if_pos rfl] at hanswer
        rw [hanswer]
        exact h.allocate_granted hpow hle hstart hchunk hgrant hobtained hp hend hplace hspares
          hgap

end Placed

end AlignedBuffer

end Tklb
