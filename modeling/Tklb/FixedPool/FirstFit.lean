import Tklb.FixedPool.Integrity

/-!
# `allocate` takes the first block that fits

The scan has no counter of its own: it goes from header to header and ends because every
block of an intact pool is longer than a word, and because the blocks end where the pool
does.  What it returns is read off the headers here, without the tiling: `Chain` lists
the blocks a walk meets, `Fits` says which of them would do, and `Takes` what becomes of
the one that is taken.

### What is load-bearing

The results about the layout say that the scan finds the first suitable block of a tiling.  Here
the same is said without a tiling: of the offsets a walk along the headers meets (`Chain`), as
they can be read from the bytes.  A reader who does not want to believe in tilings finds the
allocation strategy here, in terms of the words `size` and `space`.

* `Takes` says what becomes of the block that is taken: what is handed out, the free block that
  is left, and that no byte outside of the block is changed.
* `FirstFit` is the whole contract: it ends, it returns null exactly if no block fits, and it
  takes the lowest one otherwise.

Whole words matter (`firstFit`), since a sliver at the end of any other pool is not a block.
-/

namespace Tklb

open Foundation

namespace FixedPool

variable {A : Target}

/-- The offsets of the blocks of a pool, in order.  They are what a walk from block to block meets
before it stands at the end of the pool. -/
structure Chain (P : FixedPool A) (blocks : List ℕ) : Prop where
  walk : Visits P.nextBlock 0 blocks P.poolSize
  inside : ∀ i ∈ blocks, i < P.poolSize

/-- The block at `i` is free and has room for `size` bytes.  The room is compared with the whole
block, header and padding included. -/
def Fits (P : FixedPool A) (size i : ℕ) : Prop := P.sizeAt i = 0 ∧ size ≤ P.spaceAt i

/-- The bytes of the free block at `i` that are handed out for `size` bytes: all of them
when at most one word would be left. -/
def handedOut (P : FixedPool A) (size i : ℕ) : ℕ :=
  if P.spaceAt i ≤ size + A.ptrBytes then P.spaceAt i else size

/-- **The block at `i` is taken** for `size` bytes: what is left of it becomes one free
block, and no byte outside of it is changed. -/
structure Takes (P P' : FixedPool A) (before : List ℕ) (i : ℕ) (after : List ℕ) (size : ℕ) :
    Prop where
  sizeAt_eq : P'.sizeAt i = P.handedOut size i
  whole : P.spaceAt i ≤ size + A.ptrBytes → P'.Chain (before ++ i :: after)
  split : size + A.ptrBytes < P.spaceAt i → P'.Chain (before ++ i :: (i + size) :: after) ∧
    P'.sizeAt (i + size) = 0 ∧ P'.spaceAt (i + size) = P.spaceAt i - size
  others : ∀ k, k < i ∨ i + P.spaceAt i ≤ k → P'.memory k = P.memory k
  poolSize_eq : P'.poolSize = P.poolSize

/-- **First fit.**  `allocate` ends.  It returns null, and then the pool is unchanged, if
and only if no free block has room; otherwise the lowest one that has is taken. -/
def FirstFit (P : FixedPool A) (n : ℕ) : Prop :=
  ∃ blocks found P', P.Chain blocks ∧ P.allocate n = some (found, P') ∧
    (found = none ↔ ∀ i ∈ blocks, ¬ P.Fits (realAllocation A n) i) ∧
    (found = none → P' = P) ∧
    ∀ q, found = some q → ∃ before i after, blocks = before ++ i :: after ∧
      q = i + A.ptrBytes ∧ P.Fits (realAllocation A n) i ∧
      (∀ j ∈ blocks, P.Fits (realAllocation A n) j → i ≤ j) ∧
      P.Takes P' before i after (realAllocation A n)

/-- The chain of a pool is determined. -/
theorem Chain.unique {P : FixedPool A} {blocks blocks' : List ℕ} (h : P.Chain blocks)
    (h' : P.Chain blocks') : blocks = blocks' :=
  h.walk.unique h'.walk (fun hmem => lt_irrefl _ (h.inside _ hmem))
    (fun hmem => lt_irrefl _ (h'.inside _ hmem))

namespace Intact

variable {P : FixedPool A} {L L₁ L₂ : List Block} {size : ℕ}

/-- The chain of a tiling. -/
theorem chain (h : P.Intact L) : P.Chain ((placed 0 L).map Prod.fst) := by
  refine ⟨PoolSession.intact_walk h, fun i hi => ?_⟩
  obtain ⟨x, hx, rfl⟩ := List.mem_map.mp hi
  have hlarge := (h.wellSized _ (mem_of_mem_placed hx)).large
  have hend := (mem_placed_bounds hx).2
  rw [Nat.zero_add, h.total_eq] at hend
  omega

/-- What a header says about a block of the tiling. -/
theorem fits_iff (h : P.Intact L) {x : ℕ × Block} (hx : x ∈ placed 0 L) :
    P.Fits size x.1 ↔ Suits size x = true := by
  have hheader := h.header x hx
  have hlarge := (h.wellSized _ (mem_of_mem_placed hx)).large
  obtain ⟨i, len, tag⟩ := x
  cases tag with
  | none =>
      obtain ⟨hsize, hspace⟩ := sizeAt_of_free hheader
      simp only [Fits, Suits, hsize, hspace, true_and, decide_eq_true_eq]
  | some r =>
      have hused := sizeAt_of_used hheader
      dsimp only at hlarge
      refine iff_of_false (fun hfits => ?_) (by simp [Suits])
      have hzero := hfits.1
      dsimp only at hzero
      omega

/-- No block of the tiling fits. -/
theorem not_fits_of_all (h : P.Intact L) (hall : ∀ x ∈ placed 0 L, Suits size x = false) :
    ∀ i ∈ (placed 0 L).map Prod.fst, ¬ P.Fits size i := by
  intro i hi hfits
  obtain ⟨x, hx, rfl⟩ := List.mem_map.mp hi
  have hsuits := (h.fits_iff hx).mp hfits
  rw [hall x hx] at hsuits
  cases hsuits

/-- No block fits below one in front of which none does. -/
theorem lowest_fit {e : Block} (h : P.Intact (L₁ ++ e :: L₂))
    (hbefore : ∀ x ∈ placed 0 L₁, Suits size x = false) :
    ∀ j ∈ (placed 0 (L₁ ++ e :: L₂)).map Prod.fst, P.Fits size j → total L₁ ≤ j := by
  intro j hj hfits
  obtain ⟨x, hx, rfl⟩ := List.mem_map.mp hj
  have hsuits := (h.fits_iff hx).mp hfits
  rw [placed_append, Nat.zero_add, List.mem_append] at hx
  rcases hx with hx | hx
  · rw [hbefore x hx] at hsuits
    cases hsuits
  · exact (mem_placed_bounds hx).1

/-- The chain seen from a block. -/
theorem chain_split (L₁ L₂ : List Block) (M : List Block) {len : ℕ} (hM : total M = len) :
    (placed 0 (L₁ ++ M ++ L₂)).map Prod.fst = (placed 0 L₁).map Prod.fst ++
      ((placed (total L₁) M).map Prod.fst ++ (placed (total L₁ + len) L₂).map Prod.fst) := by
  rw [List.append_assoc, placed_append, placed_append, Nat.zero_add, hM, List.map_append,
    List.map_append]

/-- The three writes of `allocate` stay inside the block. -/
theorem take_frame {len : ℕ} (h : P.Intact (L₁ ++ ⟨len, none⟩ :: L₂))
    (hpool : A.ptrBytes ∣ P.poolSize) (haligned : A.ptrBytes ∣ size)
    (hlt : size + A.ptrBytes < 2 ^ A.bits) {k : ℕ}
    (hk : k < total L₁ ∨ total L₁ + len ≤ k) :
    (P.take (total L₁) size).memory k = P.memory k := by
  obtain ⟨hdvd, hlarge⟩ := h.whole_of_aligned hpool (List.mem_append_right _ List.mem_cons_self)
  obtain ⟨-, hspace⟩ := sizeAt_of_free h.block_header
  dsimp only at hdvd hlarge
  rw [FixedPool.take, hspace, wrap_of_lt hlt]
  split
  · exact ByteMemory.write_of_outside (by omega)
  · -- the rest holds a header
    rename_i hrest
    have hroom := Target.add_ptrBytes_le (Nat.dvd_add haligned dvd_rfl) hdvd (not_le.mp hrest)
    dsimp only
    rw [ByteMemory.write_of_outside (by omega), ByteMemory.write_of_outside (by omega),
      ByteMemory.write_of_outside (by omega)]

/-- **A block of the tiling is taken.**  The block is cut if the rest can hold a header, and the
list of the blocks in front and behind is as it was. -/
theorem takes {len r : ℕ} (h : P.Intact (L₁ ++ ⟨len, none⟩ :: L₂))
    (hpool : A.ptrBytes ∣ P.poolSize) (haligned : A.ptrBytes ∣ size)
    (hlarge : 2 * A.ptrBytes ≤ size) (hfits : r + A.ptrBytes ≤ size)
    (hlt : size + A.ptrBytes < 2 ^ A.bits) (hle : size ≤ len) :
    P.Takes (P.take (total L₁) size) ((placed 0 L₁).map Prod.fst) (total L₁)
      ((placed (total L₁ + len) L₂).map Prod.fst) size := by
  obtain ⟨hintact, hsize, -⟩ := h.take haligned hlarge hfits hlt hle
  obtain ⟨-, hspace⟩ := sizeAt_of_free h.block_header
  have hchain := hintact.chain
  rw [chain_split L₁ L₂ _ (total_taken hle r)] at hchain
  have hheader : ∀ x ∈ placed (total L₁) (taken A len size r),
      Header A (P.take (total L₁) size).memory x := by
    intro x hx
    refine hintact.header x ?_
    rw [List.append_assoc, placed_append, placed_append, Nat.zero_add]
    exact List.mem_append_right _ (List.mem_append_left _ hx)
  unfold taken at hchain hheader
  refine ⟨?_, fun hwhole => ?_, fun hrest => ?_, fun k hk => ?_, hsize⟩
  · unfold handedOut
    rw [hspace]
    split
    · rename_i hwhole
      rw [if_pos hwhole] at hheader
      exact sizeAt_of_used (hheader _ List.mem_cons_self)
    · rename_i hrest
      rw [if_neg hrest] at hheader
      exact sizeAt_of_used (hheader _ List.mem_cons_self)
  · rw [hspace] at hwhole
    rwa [if_pos hwhole] at hchain
  · rw [hspace] at hrest ⊢
    rw [if_neg (not_le.mpr hrest)] at hchain hheader
    exact ⟨hchain, sizeAt_of_free
      (hheader (total L₁ + size, ⟨len - size, none⟩) (List.mem_cons_of_mem _ List.mem_cons_self))⟩
  · rw [hspace] at hk
    exact h.take_frame hpool haligned hlt hk

/-- **First fit**, in any intact pool of whole words.  The scan ends, at the first free block with
room or at the end of the pool; null is returned only if there is none, and then nothing was
written. -/
theorem firstFit (h : P.Intact L) (hpool : A.ptrBytes ∣ P.poolSize) {n : ℕ} (hpos : 0 < n)
    (hn : n + 3 * A.ptrBytes ≤ 2 ^ A.bits) : P.FirstFit n := by
  obtain ⟨haligned, hlarge, hfits, hlt⟩ := realAllocation_spec hpos hn
  rcases h.scan_cases (realAllocation A n) with
    ⟨hnone, hall⟩ | ⟨L₁, len, L₂, rfl, hle, hsome, hall⟩
  · refine ⟨_, none, P, h.chain, allocate_of_none hpos hnone, ?_, fun _ => rfl,
      fun q hq => absurd hq.symm (Option.some_ne_none q)⟩
    exact iff_of_true rfl (h.not_fits_of_all hall)
  · have hmem := h.block_mem
    have hsuits : P.Fits (realAllocation A n) (total L₁) :=
      (h.fits_iff hmem).mpr (by simp [Suits, hle])
    refine ⟨_, _, _, h.chain, allocate_of_some hpos hsome, ?_,
      fun hq => absurd hq (Option.some_ne_none _), ?_⟩
    · refine iff_of_false (Option.some_ne_none _) fun hnot => ?_
      exact hnot _ (List.mem_map_of_mem hmem) hsuits
    · rintro q ⟨⟩
      refine ⟨_, _, _, ?_, rfl, hsuits, ?_, h.takes hpool haligned hlarge hfits hlt hle⟩
      · rw [placed_append, placed_cons, Nat.zero_add, List.map_append, List.map_cons]
      · exact h.lowest_fit hall

end Intact

end FixedPool

namespace PoolSession

variable {A : Target}

/-- In a pool smaller than a block nothing fits. -/
theorem firstFit_of_small {m : ByteMemory} {size n : ℕ} (hsmall : size < 2 * A.ptrBytes)
    (hpos : 0 < n) (hn : n + 3 * A.ptrBytes ≤ 2 ^ A.bits) :
    (FixedPool.construct m size : FixedPool A).FirstFit n := by
  have hbig := A.four_mul_ptrBytes_le
  obtain ⟨-, hlarge, -⟩ := FixedPool.realAllocation_spec (A := A) hpos hn
  have hsizeAt := sizeAt_construct (A := A) m size
  have hspaceAt := spaceAt_construct (A := A) m (show size < 2 ^ A.bits by omega)
  have hchain : ∃ blocks, (FixedPool.construct m size : FixedPool A).Chain blocks ∧
      ∀ i ∈ blocks, i = 0 := by
    by_cases hzero : size = 0
    · exact ⟨[], ⟨by rw [hzero]; rfl, List.forall_mem_nil _⟩, List.forall_mem_nil _⟩
    · refine ⟨[0], ⟨⟨rfl, ?_⟩, ?_⟩, fun i hi => List.mem_singleton.mp hi⟩
      · rw [visits_nil, FixedPool.nextBlock, FixedPool.stepAt, if_pos hsizeAt, hspaceAt,
          Nat.zero_add, wrap_of_lt (by omega)]
        rfl
      · intro i hi
        rw [List.mem_singleton.mp hi]
        exact Nat.pos_of_ne_zero hzero
  obtain ⟨blocks, hblocks, hall⟩ := hchain
  refine ⟨blocks, none, _, hblocks, allocate_of_small hsmall hn, ?_, fun _ => rfl,
    fun q hq => absurd hq.symm (Option.some_ne_none q)⟩
  refine iff_of_true rfl fun i hi hfits => ?_
  have hroom := hfits.2
  rw [hall i hi, hspaceAt] at hroom
  omega

/-- **First fit.**  In every state a client reaches, in a pool of whole words, by requests
that do not wrap, `allocate` serves every request from the lowest free block that has
room for it. -/
theorem firstFit_of_run {size n : ℕ} {m : ByteMemory} {calls : List PoolCall}
    {s : PoolSession A} (haligned : A.ptrBytes ∣ size) (hlt : size < 2 ^ A.bits)
    (hrun : Run (Guarded Step NonWrapping) (start m size) calls s) (hpos : 0 < n)
    (hn : n + 3 * A.ptrBytes ≤ 2 ^ A.bits) : s.pool.FirstFit n := by
  by_cases hsmall : size < 2 * A.ptrBytes
  · rw [run_of_small hsmall hrun]
    exact firstFit_of_small hsmall hpos hn
  · obtain ⟨L, htiled, hsize⟩ :=
      (Tiled.of_start m (by have := A.ptrBytes_pos; omega) hlt).run hrun
    refine htiled.intact.firstFit ?_ hpos hn
    rw [hsize]
    exact haligned

/-- A block is given back in front of one that is in use. -/
theorem firstFit_of_run_reused :
    ∃ s : PoolSession ⟨3⟩, Run (Guarded Step NonWrapping) (start (fun _ => 0) 128)
      [.allocate 16, .allocate 16, .deallocate 8] s ∧ s.pool.FirstFit 8 := by
  have hrun : ∃ s : PoolSession ⟨3⟩, Run (Guarded Step NonWrapping) (start (fun _ => 0) 128)
      [.allocate 16, .allocate 16, .deallocate 8] s :=
    ⟨_, Run.cons ⟨(by decide : 16 + 3 * 8 ≤ 2 ^ 64), Step.allocate (p := 8) rfl⟩
      (Run.cons ⟨(by decide : 16 + 3 * 8 ≤ 2 ^ 64), Step.allocate (p := 32) rfl⟩
      (Run.cons ⟨trivial, Step.deallocate (r := 16)
        (List.mem_cons_of_mem _ List.mem_cons_self)⟩ (Run.nil _)))⟩
  obtain ⟨s, hcalls⟩ := hrun
  exact ⟨s, hcalls, firstFit_of_run (by decide) (by decide) hcalls (by decide) (by decide)⟩

end PoolSession

end Tklb
