import Tklb.FixedPool.Integrity

/-!
# What `reallocate` does to the bytes of a client

Each operation of the pool writes to one block.  The payloads of the other blocks keep
their bytes (`Intact.payload_frame`), and so does the payload of the block that is taken
or cut in two, up to its new length (`take_agreeOn`, `shrink_agreeOn`).

A block that `reallocate` leaves where it is therefore keeps its bytes.  When it moves
the block, `copy(ptr, newPtr, bytes)` copies from the new block to the old one, which
is freed next; the client gets back whatever the free block held.  So `reallocate`
keeps the bytes of its block only if it stays or these bytes were already there
(`preserves_iff`).

### What is load-bearing

`Preserves` is the contract of `realloc`: the returned block starts with the bytes of the old
one, other payloads keep theirs, and null leaves the pool as it is.  It fails for a block that
moves, because the two first arguments of the copy are exchanged there; but by accident it may
hold, when the free block happens to have the same bytes.  That is why `InPlaceOrEqual` mentions
contents: the theorem is an equivalence, and the accident belongs to it.

`payload_frame` is the frame rule of the pool, for any operation that is confined to one block,
and the only thing that is needed about the other live pointers.
-/

namespace Tklb

open Foundation

namespace FixedPool

variable {A : Target}

/-! ### The bytes an operation leaves alone -/

/-- The payload of a block is not touched when the block is taken. -/
theorem take_agreeOn (P : FixedPool A) (i size : ℕ) :
    ByteMemory.AgreeOn P.memory (P.take i size).memory (i + A.ptrBytes) (i + size) := by
  rw [take]
  split
  · exact ByteMemory.write_agreeOn (by omega)
  · exact ((ByteMemory.write_agreeOn (by omega)).trans
      (ByteMemory.write_agreeOn (by omega))).trans (ByteMemory.write_agreeOn (by omega))

/-- The payload of a block is not touched, up to the new length, when the block is cut
in two. -/
theorem shrink_agreeOn (P : FixedPool A) (i size : ℕ) :
    ByteMemory.AgreeOn P.memory (P.shrink i size).memory (i + A.ptrBytes) (i + size) :=
  ((ByteMemory.write_agreeOn (by omega)).trans
    (ByteMemory.write_agreeOn (by omega))).trans (ByteMemory.write_agreeOn (by omega))

theorem Confined.trans {P P' P'' : FixedPool A} {L₁ L₂ : List Block} {e : Block}
    (h : Confined P P' L₁ e L₂) (h' : Confined P' P'' L₁ e L₂) : Confined P P'' L₁ e L₂ where
  size_eq := h'.size_eq.trans h.size_eq
  before := h.before.trans h'.before
  after hnext := (h.after hnext).trans (h.size_eq ▸ h'.after hnext)

namespace Intact

variable {P P' : FixedPool A} {L L₁ L₂ : List Block} {e : Block}

/-- **Frame.**  The payloads of the other blocks keep their bytes.  A call is confined to the block
it is about and the free space behind it; this is what a client relies on for the data it keeps in
the others. -/
theorem payload_frame (h : P.Intact (L₁ ++ e :: L₂)) (hc : Confined P P' L₁ e L₂)
    {x : ℕ × ℕ} (hx : x ∈ payloads A 0 L₁ ∨ x ∈ payloads A (total L₁ + e.len) L₂) :
    ByteMemory.AgreeOn P.memory P'.memory x.1 (x.1 + x.2) := by
  have htotal := h.total_eq
  rw [total_append, total_cons] at htotal
  obtain ⟨p, r⟩ := x
  rcases hx with hx | hx
  · obtain ⟨i, len, hmem, rfl⟩ := mem_payloads_placed hx
    have hbounds := mem_placed_bounds hmem
    have hfits := (h.wellSized ⟨len, some r⟩
      (List.mem_append_left _ (mem_of_mem_placed hmem))).fits r rfl
    dsimp only at hbounds hfits ⊢
    exact hc.before.mono (Nat.zero_le _) (by omega)
  · obtain ⟨i, len, hmem, rfl⟩ := mem_payloads_placed hx
    have hbounds := mem_placed_bounds hmem
    have hfits := (h.wellSized ⟨len, some r⟩ (List.mem_append_right _
      (List.mem_cons_of_mem _ (mem_of_mem_placed hmem)))).fits r rfl
    have hagree := hc.after (by rintro rfl; simp at hmem)
    dsimp only at hbounds hfits ⊢
    exact hagree.mono (by omega) (by omega)

/-- The other payloads of a tiling. -/
theorem mem_payloads_other {r len p n : ℕ}
    (hx : (p, n) ∈ payloads A 0 (L₁ ++ ⟨len, some r⟩ :: L₂)) (hne : p ≠ total L₁ + A.ptrBytes) :
    (p, n) ∈ payloads A 0 L₁ ∨ (p, n) ∈ payloads A (total L₁ + len) L₂ := by
  rw [payloads_split, List.mem_append, List.mem_append] at hx
  rcases hx with (hx | hx) | hx
  · exact Or.inl hx
  · refine absurd ?_ hne
    rw [payloads_cons_used, payloads_nil, List.mem_singleton, Prod.mk.injEq] at hx
    exact hx.1
  · exact Or.inr hx

/-- A free block is not the block of a payload. -/
theorem ptr_ne_of_free {len p r : ℕ} (h : P.Intact (L₁ ++ ⟨len, none⟩ :: L₂))
    (hlive : (p, r) ∈ payloads A 0 (L₁ ++ ⟨len, none⟩ :: L₂)) :
    p ≠ total L₁ + A.ptrBytes := by
  intro hp
  obtain ⟨i, len', hmem, rfl⟩ := mem_payloads_placed hlive
  obtain rfl : i = total L₁ := by omega
  have hlarge := (h.wellSized _ (mem_of_mem_placed hmem)).large
  have hlarge' := h.block_wellSized.large
  rcases placed_disjoint hmem h.block_mem with heq | hle | hle
  · simp at heq
  · dsimp only at hle hlarge
    omega
  · dsimp only at hle hlarge'
    omega

/-- **In place** the bytes of every payload stay as they are, those of the block itself
up to its new length. -/
theorem reallocate_stays {p r n : ℕ} (h : P.Intact L) (hlive : (p, r) ∈ payloads A 0 L)
    (hn : n + 3 * A.ptrBytes < 2 ^ A.bits)
    (hle : reallocSize A n ≤ P.sizeAt (p - A.ptrBytes)) :
    ∃ P', P.reallocate (some p) n = some (some p, P') ∧
      ByteMemory.AgreeOn P.memory P'.memory p (p + n) ∧
      ∀ x ∈ payloads A 0 L, x.1 ≠ p → ByteMemory.AgreeOn P.memory P'.memory x.1 (x.1 + x.2) := by
  obtain ⟨L₁, len, L₂, rfl, rfl⟩ := mem_payloads hlive
  rw [Nat.zero_add] at hlive hle ⊢
  rw [Nat.add_sub_cancel, sizeAt_of_used h.block_header] at hle
  obtain ⟨haligned, hlarge, hfits, -⟩ := reallocSize_spec hn
  rcases h.reallocate_eq_of_le hn hle with hcall | ⟨hlt, hcall⟩
  · exact ⟨P, hcall, ByteMemory.AgreeOn.refl _ _ _, fun _ _ _ => ByteMemory.AgreeOn.refl _ _ _⟩
  · have hconfined : Confined P (P.shrink (total L₁) (reallocSize A n)) L₁ ⟨len, some r⟩ L₂ :=
      h.confined_cut haligned hlt rfl (h.memory_shrink hlarge (by omega))
    exact ⟨_, hcall, (shrink_agreeOn P _ _).mono le_rfl (by omega),
      fun x hx hne => h.payload_frame hconfined (mem_payloads_other hx hne)⟩

/-- The old block is overwritten and freed: the other payloads keep their bytes. -/
theorem copy_deallocate_frame {len r : ℕ} (h : P.Intact (L₁ ++ ⟨len, some r⟩ :: L₂)) (q : ℕ)
    {x : ℕ × ℕ} (hx : x ∈ payloads A 0 (L₁ ++ ⟨len, some r⟩ :: L₂))
    (hne : x.1 ≠ total L₁ + A.ptrBytes) :
    ByteMemory.AgreeOn P.memory (({ P with
      memory := P.memory.move (total L₁ + A.ptrBytes) q (len - A.ptrBytes) } :
      FixedPool A).deallocate (some (total L₁ + A.ptrBytes))).memory x.1 (x.1 + x.2) :=
  h.payload_frame ((h.confined_copy q).trans (h.copy q).confined_deallocate)
    (mem_payloads_other hx hne)

/-- **By moving** `reallocate` returns the block that `allocate` takes, with the bytes
that were there before the call; the other payloads keep their bytes. -/
theorem reallocate_moves {p r n : ℕ} (h : P.Intact L) (hlive : (p, r) ∈ payloads A 0 L)
    (hn : n + 3 * A.ptrBytes < 2 ^ A.bits)
    (hlt : P.sizeAt (p - A.ptrBytes) < reallocSize A n) :
    P.reallocate (some p) n = some (none, P) ∧
      (n = 0 ∨ P.scan (realAllocation A n) (P.poolSize + 1) 0 = some none) ∨
    ∃ i P', P.scan (realAllocation A n) (P.poolSize + 1) 0 = some (some i) ∧
      P.reallocate (some p) n = some (some (i + A.ptrBytes), P') ∧
      ByteMemory.AgreeOn P.memory P'.memory (i + A.ptrBytes) (i + A.ptrBytes + n) ∧
      ∀ x ∈ payloads A 0 L, x.1 ≠ p → ByteMemory.AgreeOn P.memory P'.memory x.1 (x.1 + x.2) := by
  obtain ⟨L₁, len, L₂, rfl, rfl⟩ := mem_payloads hlive
  rw [Nat.zero_add] at hlive hlt ⊢
  rcases h.allocate_eq n with ⟨hnull, hscan⟩ | ⟨N₁, len', N₂, hL, hpos, hle, hscan, hcall⟩
  · exact Or.inl ⟨reallocate_of_none hlt hnull, hscan⟩
  rw [Nat.add_sub_cancel, sizeAt_of_used h.block_header] at hlt
  obtain ⟨haligned, hlarge, hfits, hnowrap⟩ := realAllocation_spec hpos (le_of_lt hn)
  have hfree := hL ▸ h
  -- the payloads before the call, seen from the free block
  have hother : ∀ x ∈ payloads A 0 (L₁ ++ ⟨len, some r⟩ :: L₂),
      x ∈ payloads A 0 N₁ ∨ x ∈ payloads A (total N₁ + len') N₂ := by
    intro x hx
    rw [hL, payloads_split] at hx
    simpa using hx
  have hkept : ∀ x ∈ payloads A 0 (L₁ ++ ⟨len, some r⟩ :: L₂), ByteMemory.AgreeOn P.memory
      (P.take (total N₁) (realAllocation A n)).memory x.1 (x.1 + x.2) :=
    fun x hx => hfree.payload_frame (hfree.confined_take haligned hnowrap) (hother x hx)
  -- the tiling after `allocate`, seen from the old block
  obtain ⟨htaken, -, -⟩ := hfree.take haligned hlarge hfits hnowrap hle
  have htotal := total_taken (A := A) hle n
  have hmem : (total L₁, (⟨len, some r⟩ : Block)) ∈
      placed 0 (N₁ ++ taken A len' (realAllocation A n) n ++ N₂) :=
    mem_placed_replace htotal (hL ▸ h.block_mem) (by simp)
  have hpay : ∀ x, x ∈ payloads A 0 (N₁ ++ taken A len' (realAllocation A n) n ++ N₂) ↔
      x = (total N₁ + A.ptrBytes, n) ∨ x ∈ payloads A 0 (L₁ ++ ⟨len, some r⟩ :: L₂) := by
    intro x
    rw [hL, payloads_replace htotal, payloads_split, payloads_taken]
    simp only [List.mem_append, List.mem_singleton, payloads_cons_free, payloads_nil,
      List.not_mem_nil]
    tauto
  obtain ⟨M₁, M₂, hM, hi⟩ := mem_placed_split hmem
  dsimp only at hM hi
  rw [Nat.zero_add] at hi
  rw [hM] at htaken hpay
  have hmoved := h.reallocate_eq_of_some hlt hcall
  rw [hi] at hmoved ⊢
  refine Or.inr ⟨total N₁, _, hscan, hmoved, ?_, ?_⟩
  · have hne : total N₁ + A.ptrBytes ≠ total M₁ + A.ptrBytes := by
      rw [← hi]
      exact (hfree.ptr_ne_of_free (hL ▸ hlive)).symm
    exact ((take_agreeOn P _ _).mono le_rfl (by omega)).trans
      (htaken.copy_deallocate_frame _ ((hpay _).mpr (Or.inl rfl)) hne)
  · intro x hx hne
    exact (hkept x hx).trans
      (htaken.copy_deallocate_frame _ ((hpay _).mpr (Or.inr hx)) hne)

end Intact

end FixedPool

namespace PoolSession

variable {A : Target}

-- irreducible, because at concrete numbers unfolding it runs the pool
/-- **`realloc`.**  The block that is returned starts with the bytes of the old one, and
the payloads of the other live pointers are unchanged; when null is returned, the pool
is as before. -/
@[irreducible] def Preserves (s : PoolSession A) (ptr old size : ℕ) : Prop :=
  match s.pool.reallocate (some ptr) size with
  | none => False
  | some (none, P) => P = s.pool
  | some (some q, P) =>
      (∀ k < min old size, P.memory (q + k) = s.pool.memory (ptr + k)) ∧
      ∀ x ∈ s.live, x.1 ≠ ptr → ∀ k < x.2, P.memory (x.1 + k) = s.pool.memory (x.1 + k)

/-- **The side condition.**  The block stays, or the free block that would be taken
already holds its bytes. -/
def InPlaceOrEqual (s : PoolSession A) (ptr old size : ℕ) : Prop :=
  FixedPool.reallocSize A size ≤ s.pool.sizeAt (ptr - A.ptrBytes) ∨
    ∀ i, s.pool.scan (FixedPool.realAllocation A size) (s.pool.poolSize + 1) 0 = some (some i) →
      ∀ k < min old size, s.pool.memory (i + A.ptrBytes + k) = s.pool.memory (ptr + k)

theorem agreeOn_iff {m m' : ByteMemory} {p n : ℕ} :
    ByteMemory.AgreeOn m m' p (p + n) ↔ ∀ k < n, m' (p + k) = m (p + k) := by
  constructor
  · intro h k hk
    exact h _ (by omega) (by omega)
  · intro h x hlo hhi
    obtain ⟨k, rfl⟩ := Nat.exists_eq_add_of_le hlo
    exact h k (by omega)

/-- **`reallocate` preserves the contents of its block if and only if** the block stays
where it is, no free block has room, or the bytes of the free block that is taken equal
those of the old block. -/
theorem preserves_iff {m : ByteMemory} {size : ℕ} {calls : List PoolCall} {s : PoolSession A}
    (hlt : size < 2 ^ A.bits) (hrun : Run (Guarded Step NonWrapping) (start m size) calls s)
    {p r n : ℕ} (hlive : (p, r) ∈ s.live) (hn : n + 3 * A.ptrBytes < 2 ^ A.bits) :
    s.Preserves p r n ↔ s.InPlaceOrEqual p r n := by
  obtain ⟨L, htiled⟩ := tiled_of_run hlt hrun hlive
  have hpay := htiled.live.mem_iff.mp hlive
  have hframe : ∀ P' : FixedPool A, (∀ x ∈ FixedPool.payloads A 0 L, x.1 ≠ p →
      ByteMemory.AgreeOn s.pool.memory P'.memory x.1 (x.1 + x.2)) →
      ∀ x ∈ s.live, x.1 ≠ p → ∀ k < x.2, P'.memory (x.1 + k) = s.pool.memory (x.1 + k) :=
    fun _ h x hx hne => agreeOn_iff.mp (h x (htiled.live.mem_iff.mp hx) hne)
  by_cases hle : FixedPool.reallocSize A n ≤ s.pool.sizeAt (p - A.ptrBytes)
  · obtain ⟨P', hcall, hown, hother⟩ := htiled.intact.reallocate_stays hpay hn hle
    refine iff_of_true ?_ (Or.inl hle)
    rw [Preserves, hcall]
    exact ⟨fun k hk => agreeOn_iff.mp hown k (by omega), hframe P' hother⟩
  · rcases htiled.intact.reallocate_moves hpay hn (by omega) with
      ⟨hnull, hscan⟩ | ⟨i, P', hscan, hcall, hnew, hother⟩
    · refine iff_of_true ?_ (Or.inr fun i hi k hk => ?_)
      · rw [Preserves, hnull]
      · -- nothing was asked for, or the scan found nothing
        rcases hscan with rfl | hscan
        · omega
        · rw [hscan] at hi
          simp at hi
    · have hbytes : ∀ k < min r n, P'.memory (i + A.ptrBytes + k) =
          s.pool.memory (i + A.ptrBytes + k) := fun k hk => agreeOn_iff.mp hnew k (by omega)
      rw [Preserves, hcall]
      constructor
      · rintro ⟨hcopied, -⟩
        refine Or.inr fun j hj k hk => ?_
        obtain rfl : i = j := by simpa [hscan] using hj
        rw [← hbytes k hk]
        exact hcopied k hk
      · rintro (hstay | hequal)
        · exact absurd hstay hle
        · refine ⟨fun k hk => ?_, hframe P' hother⟩
          rw [hbytes k hk]
          exact hequal i hscan k hk

/-- A block of 16 bytes that is made smaller stays where it is. -/
theorem preserves_kept :
    ∃ s : PoolSession ⟨3⟩, Run (Guarded Step NonWrapping) (start (fun _ => 0) 128)
      [.allocate 16, .store 8 0 7] s ∧ s.Preserves 8 16 7 := by
  have hrun : ∃ s : PoolSession ⟨3⟩, Run (Guarded Step NonWrapping) (start (fun _ => 0) 128)
      [.allocate 16, .store 8 0 7] s ∧ (8, 16) ∈ s.live ∧ s.pool.sizeAt 0 = 24 :=
    ⟨_, Run.cons ⟨(by decide : 16 + 3 * 8 ≤ 2 ^ 64), Step.allocate (p := 8) rfl⟩
      (Run.cons ⟨trivial, Step.store (r := 16) List.mem_cons_self (by decide)⟩ (Run.nil _)),
      List.mem_cons_self, rfl⟩
  obtain ⟨s, hcalls, hlive, hsize⟩ := hrun
  refine ⟨s, hcalls, (preserves_iff (by decide) hcalls hlive (by decide)).mpr (Or.inl ?_)⟩
  show FixedPool.reallocSize ⟨3⟩ 7 ≤ s.pool.sizeAt 0
  rw [hsize]
  decide

/-- A block of 16 bytes, the first of them `7`, is made larger: the new block starts with
`104`, the length of the free block it was taken from. -/
theorem not_preserves_moved :
    ∃ s : PoolSession ⟨3⟩, Run (Guarded Step NonWrapping) (start (fun _ => 0) 128)
      [.allocate 16, .store 8 0 7] s ∧ (8, 16) ∈ s.live ∧ ¬ s.Preserves 8 16 24 := by
  have hrun : ∃ s : PoolSession ⟨3⟩, Run (Guarded Step NonWrapping) (start (fun _ => 0) 128)
      [.allocate 16, .store 8 0 7] s ∧ (8, 16) ∈ s.live ∧ s.pool.memory 8 = 7 ∧
      ∃ P, s.pool.reallocate (some 8) 24 = some (some 32, P) ∧ P.memory 32 = 104 :=
    ⟨_, Run.cons ⟨(by decide : 16 + 3 * 8 ≤ 2 ^ 64), Step.allocate (p := 8) rfl⟩
      (Run.cons ⟨trivial, Step.store (r := 16) List.mem_cons_self (by decide)⟩ (Run.nil _)),
      List.mem_cons_self, rfl, _, rfl, rfl⟩
  obtain ⟨s, hcalls, hlive, hbyte, P, hcall, hnew⟩ := hrun
  refine ⟨s, hcalls, hlive, fun hpreserves => ?_⟩
  rw [Preserves, hcall] at hpreserves
  have := hpreserves.1 0 (by decide)
  rw [add_zero, add_zero, hnew, hbyte] at this
  exact absurd this (by decide)

end PoolSession

end Tklb
