import Tklb.FixedPool.Overflow

/-!
# The words a `FixedPool` writes

When a block is cut in two, `allocate` and `reallocate` leave the rest to the block if it is
at most one word, and mark it as a free block otherwise.  A free block has a header of two
words.  As long as the pool is whole words a rest of more than one word is at least two; in
any other pool the last block can be cut so that more than one word is left but less than
two, and the second word of the new header is written over the end of the pool.

`words` lists the words that a call writes.  `Sliver` is the bad rest, and
`inside_iff_sound` says that nothing else is written or handed out beyond the end.

### What is load-bearing

* Every write of the class is a word, and a word may lie across the end of the pool.  `words`
  lists the words each call writes, next to the model and by the same branches, so a statement
  about writes is one about a list; `takeWords` and `shrinkWords` are the two that write a
  header behind a cut.
* `cut_inside_iff` is the arithmetic: two words behind the cut are inside exactly if what is
  left is no sliver.
* `Fit` is a tiling of blocks of two words at least, `Roomy`, so that every header is inside; it
  is kept by the steps that are sound (`Fit.step`), and only by those.

In a pool of whole words no sliver can arise, as all lengths are whole words.  For any other
pool the lowest block that fits decides (`NoSliver`), which can be said of the state before the
call.
-/

namespace Tklb

open Foundation FixedPool

namespace FixedPool

variable {A : Target}

/-! ### The words -/

/-- The words that `FixedPool(pool, size)` writes, by their offsets. -/
def constructWords (A : Target) : List ℕ := [0, A.ptrBytes]

/-- The words that are written when the free block at `i` is taken. -/
def takeWords (P : FixedPool A) (i size : ℕ) : List ℕ :=
  if P.spaceAt i ≤ wrap A.bits (size + A.ptrBytes) then [i]
  else [i + size, i + size + A.ptrBytes, i]

/-- The words that `allocate` writes. -/
def allocateWords (P : FixedPool A) (requestedSize : ℕ) : List ℕ :=
  if requestedSize = 0 then []
  else
    let size := realAllocation A requestedSize
    match P.scan size (P.poolSize + 1) 0 with
    | some (some i) => P.takeWords i size
    | _ => []

/-- The words that `deallocate` writes. -/
def deallocateWords (A : Target) (ptr : ℕ) : List ℕ :=
  let i := ptr - A.ptrBytes
  [i + A.ptrBytes, i]

/-- The words that `reallocate` writes to cut the block at `i` down. -/
def shrinkWords (A : Target) (i newSize : ℕ) : List ℕ :=
  [i, i + newSize, i + newSize + A.ptrBytes]

/-- The words that `reallocate` writes; what it copies are not words of the pool. -/
def reallocateWords (P : FixedPool A) (ptr size : ℕ) : List ℕ :=
  let i := ptr - A.ptrBytes
  let oldSize := P.sizeAt i
  let newSize := reallocSize A size
  if newSize ≤ oldSize then
    if oldSize ≤ wrap A.bits (newSize + A.ptrBytes) then [] else shrinkWords A i newSize
  else
    P.allocateWords size ++
      match P.allocate size with
      | some (some _, _) => deallocateWords A ptr
      | _ => []

/-- The words that a call writes. -/
def words (P : FixedPool A) : PoolCall → List ℕ
  | .allocate size => P.allocateWords size
  | .deallocate ptr => deallocateWords A ptr
  | .reallocate ptr size => P.reallocateWords ptr size
  | .store _ _ _ => []

/-- What a call returns, if it returns a pointer. -/
def result (P : FixedPool A) : PoolCall → Option (Option ℕ × FixedPool A)
  | .allocate size => P.allocate size
  | .reallocate ptr size => P.reallocate (some ptr) size
  | _ => none

/-- The byte `k` belongs to none of the words. -/
def Apart (A : Target) (k : ℕ) (offsets : List ℕ) : Prop :=
  ∀ o ∈ offsets, k < o ∨ o + A.ptrBytes ≤ k

section Unchanged

variable {P : FixedPool A} {k : ℕ}

/-- `take` writes to its words only. -/
theorem take_unchanged {i size : ℕ} (hk : Apart A k (P.takeWords i size)) :
    (P.take i size).memory k = P.memory k := by
  unfold takeWords at hk
  unfold take
  dsimp only
  split at hk
  · rename_i hwhole
    rw [if_pos hwhole]
    exact ByteMemory.write_of_outside (hk i List.mem_cons_self)
  · rename_i hrest
    rw [if_neg hrest]
    dsimp only
    rw [ByteMemory.write_of_outside (hk _ (by simp)),
      ByteMemory.write_of_outside (hk _ (by simp)), ByteMemory.write_of_outside (hk _ (by simp))]

/-- `allocate` writes to its words only. -/
theorem allocate_unchanged {n : ℕ} {found : Option ℕ} {P' : FixedPool A}
    (hcall : P.allocate n = some (found, P')) (hk : Apart A k (P.allocateWords n)) :
    P'.memory k = P.memory k := by
  unfold allocate at hcall
  unfold allocateWords at hk
  split at hcall
  · obtain ⟨-, rfl⟩ := Prod.mk.inj (Option.some.inj hcall)
    rfl
  · rename_i hzero
    rw [if_neg hzero] at hk
    dsimp only at hcall hk
    obtain ⟨block, hscan, hcall⟩ := Option.map_eq_some_iff.mp hcall
    rw [hscan] at hk
    cases block with
    | none =>
        obtain ⟨-, rfl⟩ := Prod.mk.inj hcall
        rfl
    | some i =>
        obtain ⟨-, rfl⟩ := Prod.mk.inj hcall
        exact take_unchanged hk

/-- `deallocate` writes to its words only. -/
theorem deallocate_unchanged {p : ℕ} (hk : Apart A k (deallocateWords A p)) :
    (P.deallocate (some p)).memory k = P.memory k := by
  unfold deallocate
  dsimp only
  rw [ByteMemory.write_of_outside (hk _ (by simp [deallocateWords])),
    ByteMemory.write_of_outside (hk _ (by simp [deallocateWords]))]

/-- `reallocate` writes to its words and to the payload it is given only. -/
theorem reallocate_unchanged {p n : ℕ} {found : Option ℕ} {P' : FixedPool A}
    (hcall : P.reallocate (some p) n = some (found, P'))
    (hk : Apart A k (P.reallocateWords p n))
    (hcopy : k < p ∨ p + wsub A.bits (P.sizeAt (p - A.ptrBytes)) A.ptrBytes ≤ k) :
    P'.memory k = P.memory k := by
  unfold reallocate at hcall
  unfold reallocateWords at hk
  dsimp only at hcall hk
  split at hcall
  · rename_i hle
    rw [if_pos hle] at hk
    split at hcall
    · obtain ⟨-, rfl⟩ := Prod.mk.inj (Option.some.inj hcall)
      rfl
    · rename_i hcut
      rw [if_neg hcut] at hk
      obtain ⟨-, rfl⟩ := Prod.mk.inj (Option.some.inj hcall)
      unfold shrink
      dsimp only
      rw [ByteMemory.write_of_outside (hk _ (by simp [shrinkWords])),
        ByteMemory.write_of_outside (hk _ (by simp [shrinkWords])),
        ByteMemory.write_of_outside (hk _ (by simp [shrinkWords]))]
  · rename_i hle
    rw [if_neg hle] at hk
    obtain ⟨⟨newPtr, P''⟩, hnew, hcall⟩ := Option.map_eq_some_iff.mp hcall
    have hsame := allocate_unchanged hnew fun o ho => hk o (List.mem_append_left _ ho)
    cases newPtr with
    | none =>
        obtain ⟨-, rfl⟩ := Prod.mk.inj hcall
        exact hsame
    | some q =>
        obtain ⟨-, rfl⟩ := Prod.mk.inj hcall
        rw [hnew] at hk
        rw [deallocate_unchanged fun o ho => hk o (List.mem_append_right _ ho)]
        dsimp only
        rw [ByteMemory.move_of_outside hcopy, hsame]

end Unchanged

/-! ### Slivers -/

/-- More than one word is left of a block of `len` bytes that is cut down to `size`, and less
than two. -/
def Sliver (A : Target) (len size : ℕ) : Prop :=
  size + A.ptrBytes < len ∧ len < size + 2 * A.ptrBytes

/-- The lowest free block with room for `size` bytes is not cut so that a sliver is left. -/
def NoSliver (P : FixedPool A) (size : ℕ) : Prop :=
  ∀ blocks, P.Chain blocks → ∀ i ∈ blocks, P.Fits size i →
    (∀ j ∈ blocks, P.Fits size j → i ≤ j) → ¬ Sliver A (P.spaceAt i) size

/-- Every block has room for the two words of a header.  A block of one word cannot say how long it
is when it is free. -/
def Roomy (P : FixedPool A) : Prop :=
  ∀ blocks, P.Chain blocks → ∀ i ∈ blocks, i + 2 * A.ptrBytes ≤ P.poolSize

/-- What is left of a block is no sliver, or not marked. -/
theorem le_of_not_sliver {len size : ℕ} (h : ¬ Sliver A len size)
    (hrest : size + A.ptrBytes < len) : size + 2 * A.ptrBytes ≤ len :=
  not_lt.mp fun hlt => h ⟨hrest, hlt⟩

namespace Intact

variable {P P' : FixedPool A} {L L₁ L₂ : List Block}

/-- A roomy pool is a tiling by blocks of at least two words. -/
theorem roomy_iff (h : P.Intact L) : P.Roomy ↔ ∀ e ∈ L, 2 * A.ptrBytes ≤ e.len := by
  constructor
  · intro hroomy e he
    obtain ⟨L₁, L₂, rfl⟩ := List.append_of_mem he
    by_cases hlast : L₂ = []
    · -- the last block ends with the pool
      subst hlast
      have hroom := hroomy _ h.chain _ (List.mem_map_of_mem h.block_mem)
      have htotal := h.total_eq
      rw [total_append, total_cons, total_nil, add_zero] at htotal
      dsimp only at hroom
      omega
    · exact (h.whole hlast).2
  · intro hlen blocks hblocks i hi
    rw [hblocks.unique h.chain] at hi
    obtain ⟨x, hx, rfl⟩ := List.mem_map.mp hi
    have hlarge := hlen _ (mem_of_mem_placed hx)
    have hend := (mem_placed_bounds hx).2
    rw [Nat.zero_add, h.total_eq] at hend
    omega

/-- One block of a roomy pool is replaced. -/
theorem roomy_replace {e : Block} {M : List Block} (h : P.Intact (L₁ ++ e :: L₂))
    (hroomy : P.Roomy) (h' : P'.Intact (L₁ ++ M ++ L₂))
    (hM : ∀ b ∈ M, 2 * A.ptrBytes ≤ b.len) : P'.Roomy := by
  rw [h.roomy_iff] at hroomy
  rw [h'.roomy_iff]
  intro b hb
  rw [List.mem_append, List.mem_append] at hb
  rcases hb with (hb | hb) | hb
  · exact hroomy b (by simp [hb])
  · exact hM b hb
  · exact hroomy b (by simp [hb])

/-- A block of a roomy pool holds two words. -/
theorem two_words_le {e : Block} (h : P.Intact (L₁ ++ e :: L₂)) (hroomy : P.Roomy) :
    2 * A.ptrBytes ≤ e.len :=
  h.roomy_iff.mp hroomy e (by simp)

/-- **The words of a header behind the cut** lie inside the pool unless the rest is a
sliver. -/
theorem cut_inside_iff {e : Block} (h : P.Intact (L₁ ++ e :: L₂)) {size : ℕ}
    (haligned : A.ptrBytes ∣ size) (hrest : size + A.ptrBytes < e.len) :
    total L₁ + size + 2 * A.ptrBytes ≤ P.poolSize ↔ ¬ Sliver A e.len size := by
  have hin := h.block_le
  constructor
  · rintro hroom ⟨-, hshort⟩
    by_cases hlast : L₂ = []
    · subst hlast
      have htotal := h.total_eq
      rw [total_append, total_cons, total_nil, add_zero] at htotal
      omega
    · -- blocks in front of another one are whole words
      have := Target.add_ptrBytes_le (Nat.dvd_add haligned dvd_rfl) (h.whole hlast).1 hrest
      omega
  · intro hnot
    have := le_of_not_sliver hnot hrest
    omega

/-- What the condition on the lowest block means for the one the scan finds. -/
theorem noSliver_iff {len size : ℕ} (h : P.Intact (L₁ ++ ⟨len, none⟩ :: L₂))
    (hle : size ≤ len) (hbefore : ∀ x ∈ placed 0 L₁, Suits size x = false) :
    P.NoSliver size ↔ ¬ Sliver A len size := by
  obtain ⟨-, hspace⟩ := sizeAt_of_free h.block_header
  have hmem := List.mem_map_of_mem (f := Prod.fst) h.block_mem
  have hfits : P.Fits size (total L₁) := (h.fits_iff h.block_mem).mpr (by simp [Suits, hle])
  have hlowest := h.lowest_fit hbefore
  constructor
  · intro hnone
    have hblock := hnone _ h.chain _ hmem hfits hlowest
    rwa [hspace] at hblock
  · intro hnot blocks hblocks i hi hfitsi hmin
    rw [hblocks.unique h.chain] at hi hmin
    obtain rfl : i = total L₁ := le_antisymm (hmin _ hmem hfits) (hlowest i hi hfitsi)
    rwa [hspace]

/-- Where no free block has room, none is cut. -/
theorem noSliver_of_all {size : ℕ} (h : P.Intact L)
    (hall : ∀ x ∈ placed 0 L, Suits size x = false) : P.NoSliver size := by
  intro blocks hblocks i hi hfits
  rw [hblocks.unique h.chain] at hi
  exact absurd hfits (h.not_fits_of_all hall i hi)

/-- What `allocate` does with a representable request, or in a full pool. -/
theorem allocate_outcome (h : P.Intact L) (hpool : P.poolSize + A.ptrBytes < 2 ^ A.bits)
    (hroomy : P.Roomy) {n : ℕ} (hn : n + 2 * A.ptrBytes ≤ 2 ^ A.bits ∨ P.Full) :
    P.allocate n = some (none, P) ∧ P.allocateWords n = [] ∧
      P.NoSliver (realAllocation A n) ∨
    ∃ L₁ len L₂, L = L₁ ++ ⟨len, none⟩ :: L₂ ∧ 0 < n ∧ n + 3 * A.ptrBytes ≤ 2 ^ A.bits ∧
      realAllocation A n ≤ len ∧
      P.allocate n = some (some (total L₁ + A.ptrBytes),
        P.take (total L₁) (realAllocation A n)) ∧
      P.allocateWords n = P.takeWords (total L₁) (realAllocation A n) ∧
      (P.NoSliver (realAllocation A n) ↔ ¬ Sliver A len (realAllocation A n)) := by
  rcases h.scan_cases (realAllocation A n) with
    ⟨hnone, hall⟩ | ⟨L₁, len, L₂, rfl, hle, hsome, hbefore⟩
  · refine Or.inl ⟨?_, ?_, h.noSliver_of_all hall⟩
    · exact h.allocate_null hall
    · unfold allocateWords
      dsimp only
      rw [hnone]
      exact ite_self _
  · have hsliver := h.noSliver_iff hle hbefore
    have htwo := h.two_words_le hroomy
    by_cases hzero : n = 0
    · refine Or.inl ⟨by rw [allocate, if_pos hzero], by rw [allocateWords, if_pos hzero], ?_⟩
      rw [hsliver]
      rintro ⟨-, hshort⟩
      rw [realAllocation, if_pos hzero] at hshort
      dsimp only at htwo
      omega
    · have hpos := Nat.pos_of_ne_zero hzero
      refine Or.inr ⟨L₁, len, L₂, rfl, hpos, ?_, hle, allocate_of_some hpos hsome, ?_, hsliver⟩
      · -- a longer request is longer than any block
        by_contra hlarge
        rcases hn with hrep | hfull
        · have hsuits := h.not_suits_of_large hpool
            (le_realAllocation (not_le.mp hlarge) hrep) h.block_mem
          simp [Suits, hle] at hsuits
        · exact h.full_iff.mp hfull _ h.block_mem rfl
      · unfold allocateWords
        rw [if_neg hzero]
        dsimp only
        rw [hsome]

/-- The words that are written when a free block is taken lie inside the pool unless the
rest is a sliver. -/
theorem takeWords_inside_iff {len size : ℕ} (h : P.Intact (L₁ ++ ⟨len, none⟩ :: L₂))
    (hroomy : P.Roomy) (haligned : A.ptrBytes ∣ size) (hlt : size + A.ptrBytes < 2 ^ A.bits) :
    (∀ o ∈ P.takeWords (total L₁) size, o + A.ptrBytes ≤ P.poolSize) ↔ ¬ Sliver A len size := by
  obtain ⟨-, hspace⟩ := sizeAt_of_free h.block_header
  have htwo := h.two_words_le hroomy
  have hin := h.block_le
  dsimp only at htwo hin
  unfold takeWords
  rw [hspace, wrap_of_lt hlt]
  split
  · rename_i hwhole
    refine iff_of_true (fun o ho => ?_) fun hsliver => absurd hsliver.1 (not_lt.mpr hwhole)
    rw [List.mem_singleton.mp ho]
    omega
  · rename_i hrest
    rw [← h.cut_inside_iff haligned (not_le.mp hrest)]
    simp only [List.forall_mem_cons]
    constructor
    · rintro ⟨-, hlast, -⟩
      omega
    · intro hroom
      exact ⟨by omega, by omega, by omega, by simp⟩

/-- So do the words that are written when an allocated block is cut down. -/
theorem shrinkWords_inside_iff {len r size : ℕ} (h : P.Intact (L₁ ++ ⟨len, some r⟩ :: L₂))
    (haligned : A.ptrBytes ∣ size) (hrest : size + A.ptrBytes < len) :
    (∀ o ∈ shrinkWords A (total L₁) size, o + A.ptrBytes ≤ P.poolSize) ↔
      ¬ Sliver A len size := by
  rw [← h.cut_inside_iff haligned hrest]
  simp only [shrinkWords, List.forall_mem_cons]
  constructor
  · rintro ⟨-, -, hlast, -⟩
    omega
  · intro hroom
    exact ⟨by omega, by omega, by omega, by simp⟩

/-- A freed block of a roomy pool holds the words that are written. -/
theorem deallocateWords_inside {e : Block} (h : P.Intact (L₁ ++ e :: L₂)) (hroomy : P.Roomy) :
    ∀ o ∈ deallocateWords A (total L₁ + A.ptrBytes), o + A.ptrBytes ≤ P.poolSize := by
  have htwo := h.two_words_le hroomy
  have hin := h.block_le
  simp only [deallocateWords, Nat.add_sub_cancel, List.forall_mem_cons]
  exact ⟨by omega, by omega, by simp⟩

/-- A roomy pool stays so when a block is taken without leaving a sliver. -/
theorem roomy_take {len size r : ℕ} (h : P.Intact (L₁ ++ ⟨len, none⟩ :: L₂))
    (hroomy : P.Roomy) (haligned : A.ptrBytes ∣ size) (hlarge : 2 * A.ptrBytes ≤ size)
    (hfits : r + A.ptrBytes ≤ size) (hlt : size + A.ptrBytes < 2 ^ A.bits) (hle : size ≤ len)
    (hnot : ¬ Sliver A len size) : (P.take (total L₁) size).Roomy := by
  have htwo := h.two_words_le hroomy
  obtain ⟨hintact, -, -⟩ := h.take haligned hlarge hfits hlt hle
  refine h.roomy_replace hroomy hintact fun b hb => ?_
  unfold taken at hb
  split at hb
  · rw [List.mem_singleton.mp hb]
    exact htwo
  · rename_i hrest
    have := le_of_not_sliver hnot (not_le.mp hrest)
    rw [List.mem_pair] at hb
    rcases hb with rfl | rfl
    · exact hlarge
    · dsimp only
      omega

/-- ... or when a block is cut down in place. -/
theorem roomy_shrink {len r size n : ℕ} (h : P.Intact (L₁ ++ ⟨len, some r⟩ :: L₂))
    (hroomy : P.Roomy) (haligned : A.ptrBytes ∣ size) (hlarge : 2 * A.ptrBytes ≤ size)
    (hfits : n + A.ptrBytes ≤ size) (hrest : size + A.ptrBytes < len)
    (hnot : ¬ Sliver A len size) : (P.shrink (total L₁) size).Roomy := by
  have := le_of_not_sliver hnot hrest
  refine h.roomy_replace hroomy (h.shrink haligned hlarge hfits hrest) fun b hb => ?_
  rw [List.mem_pair] at hb
  rcases hb with rfl | rfl
  · exact hlarge
  · dsimp only
    omega

/-- ... or when a block is freed. -/
theorem roomy_deallocate {len r : ℕ} (h : P.Intact (L₁ ++ ⟨len, some r⟩ :: L₂))
    (hroomy : P.Roomy) : (P.deallocate (some (total L₁ + A.ptrBytes))).Roomy := by
  have htwo := h.two_words_le hroomy
  refine h.roomy_replace hroomy h.deallocate.1 fun b hb => ?_
  rw [List.mem_singleton.mp hb]
  exact htwo

/-- A pool described by the same tiling is as roomy. -/
theorem roomy_congr (h : P.Intact L) (h' : P'.Intact L) (hroomy : P.Roomy) : P'.Roomy :=
  h'.roomy_iff.mpr (h.roomy_iff.mp hroomy)

/-- `allocate` keeps a pool roomy if no sliver is left. -/
theorem allocate_roomy (h : P.Intact L) (hpool : P.poolSize + A.ptrBytes < 2 ^ A.bits)
    (hroomy : P.Roomy) {n q : ℕ} (hn : n + 2 * A.ptrBytes ≤ 2 ^ A.bits ∨ P.Full)
    (hclean : P.NoSliver (realAllocation A n)) (hcall : P.allocate n = some (some q, P')) :
    P'.Roomy := by
  rcases h.allocate_outcome hpool hroomy hn with
    ⟨hnull, -⟩ | ⟨L₁, len, L₂, rfl, hpos, hsmall, hle, hnew, -, hsliver⟩
  · rw [hnull] at hcall
    simp at hcall
  · rw [hnew, Option.some.injEq, Prod.mk.injEq] at hcall
    obtain ⟨haligned, hlarge, hfits, hlt⟩ := realAllocation_spec hpos hsmall
    rw [← hcall.2]
    exact h.roomy_take hroomy haligned hlarge hfits hlt hle (hsliver.mp hclean)

/-- `reallocate` keeps a pool roomy when it moves the payload and no sliver is left. -/
theorem reallocate_roomy_of_lt {len r n q : ℕ} (h : P.Intact (L₁ ++ ⟨len, some r⟩ :: L₂))
    (hpool : P.poolSize + A.ptrBytes < 2 ^ A.bits) (hroomy : P.Roomy)
    (hn : n + 2 * A.ptrBytes ≤ 2 ^ A.bits) (hlt : len < reallocSize A n)
    (hclean : P.NoSliver (realAllocation A n))
    (hcall : P.reallocate (some (total L₁ + A.ptrBytes)) n = some (some q, P')) :
    P'.Roomy := by
  have hused := sizeAt_of_used h.block_header
  rcases h.allocate_outcome hpool hroomy (Or.inl hn) with
    ⟨hnull, -⟩ | ⟨-, -, -, -, -, hsmall, -⟩
  · rw [reallocate_of_none (by rwa [Nat.add_sub_cancel, hused]) hnull] at hcall
    simp at hcall
  rcases h.allocate_cases hsmall with hnull | ⟨q', P₁, L', hnew, hintact, -, -, hkept, -⟩
  · rw [reallocate_of_none (by rwa [Nat.add_sub_cancel, hused]) hnull] at hcall
    simp at hcall
  · have hroomy₁ := h.allocate_roomy hpool hroomy (Or.inl hn) hclean hnew
    rw [h.reallocate_eq_of_some hlt hnew, Option.some.injEq, Prod.mk.injEq] at hcall
    rw [← hcall.2]
    -- the old block is still there after the allocation
    obtain ⟨N₁, N₂, rfl, hpos⟩ := mem_placed_split (hkept _ h.block_mem (by simp))
    dsimp only at hpos
    rw [Nat.zero_add] at hpos
    rw [hpos]
    exact (hintact.copy q').roomy_deallocate (hintact.roomy_congr (hintact.copy q') hroomy₁)

/-- A request that fits the block in hand is far from the end of `Size`. -/
theorem small_of_reallocSize_le {len r n : ℕ} (h : P.Intact (L₁ ++ ⟨len, some r⟩ :: L₂))
    (hpool : P.poolSize + A.ptrBytes < 2 ^ A.bits) (hn : n + 2 * A.ptrBytes < 2 ^ A.bits)
    (hle : reallocSize A n ≤ len) : n + 3 * A.ptrBytes < 2 ^ A.bits := by
  have hin := h.block_le
  dsimp only at hin
  by_contra hlarge
  have := le_reallocSize (not_lt.mp hlarge) hn
  omega

/-- Blocks of whole words, or of less than three, leave no sliver. -/
theorem not_sliver {e : Block} (h : P.Intact (L₁ ++ e :: L₂))
    (hpool : A.ptrBytes ∣ P.poolSize ∨ P.poolSize < 3 * A.ptrBytes) {size : ℕ}
    (haligned : A.ptrBytes ∣ size) (hlarge : 2 * A.ptrBytes ≤ size) : ¬ Sliver A e.len size := by
  rintro ⟨hrest, hshort⟩
  have hin := h.block_le
  rcases hpool with hdvd | hsmall
  · have hwhole := (h.whole_of_aligned hdvd (List.mem_append_right _ List.mem_cons_self)).1
    have := Target.add_ptrBytes_le (Nat.dvd_add haligned dvd_rfl) hwhole hrest
    omega
  · omega

/-- ... and when it leaves the payload where it is. -/
theorem reallocate_roomy_of_le {len r n q : ℕ} (h : P.Intact (L₁ ++ ⟨len, some r⟩ :: L₂))
    (hroomy : P.Roomy) (hn : n + 3 * A.ptrBytes < 2 ^ A.bits) (hle : reallocSize A n ≤ len)
    (hclean : ¬ Sliver A len (reallocSize A n))
    (hcall : P.reallocate (some (total L₁ + A.ptrBytes)) n = some (some q, P')) :
    P'.Roomy := by
  obtain ⟨haligned, hlarge, hfits, -⟩ := reallocSize_spec hn
  rcases h.reallocate_eq_of_le hn hle with hsame | ⟨hrest, hcut⟩
  · rw [hsame, Option.some.injEq, Prod.mk.injEq] at hcall
    rwa [← hcall.2]
  · rw [hcut, Option.some.injEq, Prod.mk.injEq] at hcall
    rw [← hcall.2]
    exact h.roomy_shrink hroomy haligned hlarge hfits.le hrest hclean

end Intact

end FixedPool

namespace PoolCall

/-- The number of bytes a call asks for. -/
def request : PoolCall → ℕ
  | .allocate size => size
  | .reallocate _ size => size
  | _ => 0

end PoolCall

namespace PoolSession

variable {A : Target} {s t : PoolSession A} {L : List Block}

/-- **Nothing beyond the end.**  The words that the pool writes in the call, and the payload
it returns, lie inside the pool. -/
structure Inside (s : PoolSession A) (c : PoolCall) : Prop where
  words : ∀ o ∈ s.pool.words c, o + A.ptrBytes ≤ s.pool.poolSize
  payload : ∀ q P', s.pool.result c = some (some q, P') → q + c.request ≤ s.pool.poolSize

/-- The call cuts no block so that a sliver is left.  The rest is at least
two words long, or the block is not cut. -/
def Clean (s : PoolSession A) : PoolCall → Prop
  | .allocate size => s.pool.NoSliver (realAllocation A size)
  | .reallocate ptr size =>
      if reallocSize A size ≤ s.pool.sizeAt (ptr - A.ptrBytes) then
        ¬ Sliver A (s.pool.sizeAt (ptr - A.ptrBytes)) (reallocSize A size)
      else s.pool.NoSliver (realAllocation A size)
  | _ => True

/-- The request is representable and no sliver is left. -/
def Sound (s : PoolSession A) (c : PoolCall) : Prop := s.Representable c ∧ s.Clean c

/-- A session whose pool is tiled by blocks of two words at least.  This is what sound steps keep,
and what makes every access an access inside of the pool. -/
def Fit (size : ℕ) (s : PoolSession A) : Prop :=
  (∃ L, s.Tiled L) ∧ s.pool.Roomy ∧ s.pool.poolSize = size

/-- The pointer is passed by the client who got it. -/
def Owns (s : PoolSession A) : PoolCall → Prop
  | .deallocate ptr => ∃ r, (ptr, r) ∈ s.live
  | .reallocate ptr _ => ∃ r, (ptr, r) ∈ s.live
  | _ => True

/-- A step goes through live pointers. -/
theorem Step.owns {c : PoolCall} (h : Step s c t) : s.Owns c := by
  cases h with
  | allocate => trivial
  | allocate_null => trivial
  | deallocate hlive => exact ⟨_, hlive⟩
  | reallocate hlive => exact ⟨_, hlive⟩
  | reallocate_null hlive => exact ⟨_, hlive⟩
  | store => trivial

/-- `allocate` stays inside the pool exactly if the request is representable and no sliver
is left. -/
theorem Tiled.allocate_inside_iff (h : s.Tiled L)
    (hpool : s.pool.poolSize + A.ptrBytes < 2 ^ A.bits) (hroomy : s.pool.Roomy) {n : ℕ}
    (hn : n < 2 ^ A.bits) : s.Inside (.allocate n) ↔ s.Sound (.allocate n) := by
  by_cases hrep : s.Representable (.allocate n)
  · rcases h.intact.allocate_outcome hpool hroomy hrep with
      ⟨hnull, hwords, hclean⟩ | ⟨L₁, len, L₂, rfl, hpos, hsmall, hle, hcall, hwords, hsliver⟩
    · refine iff_of_true ⟨fun o ho => ?_, fun q P' hq => ?_⟩ ⟨hrep, hclean⟩
      · rw [FixedPool.words, hwords] at ho
        exact absurd ho List.not_mem_nil
      · rw [result, hnull] at hq
        simp at hq
    · obtain ⟨haligned, -, hfits, hlt⟩ := realAllocation_spec hpos hsmall
      have hiff := h.intact.takeWords_inside_iff hroomy haligned hlt
      rw [← hwords, ← hsliver] at hiff
      have hin := h.intact.block_le
      dsimp only at hin
      refine ⟨fun hinside => ⟨hrep, hiff.mp hinside.words⟩,
        fun hsound => ⟨hiff.mpr hsound.2, fun q P' hq => ?_⟩⟩
      rw [result, hcall, Option.some.injEq, Prod.mk.injEq, Option.some.injEq] at hq
      rw [← hq.1, PoolCall.request]
      omega
  · -- the request wraps, and the payload is longer than the pool
    refine iff_of_false (fun hinside => ?_) fun hsound => hrep hsound.1
    obtain ⟨hbig, hfree⟩ := not_or.mp hrep
    obtain ⟨q, P', hcall⟩ := h.intact.allocate_of_unrepresentable hn (not_le.mp hbig) hfree
    have hend := hinside.payload q P' hcall
    obtain ⟨p, rfl⟩ : ∃ i, q = i + A.ptrBytes := by
      unfold FixedPool.allocate at hcall
      split at hcall
      · simp at hcall
      · obtain ⟨found, -, hfound⟩ := Option.map_eq_some_iff.mp hcall
        cases found with
        | none => simp at hfound
        | some i => exact ⟨i, by simpa using (Prod.mk.inj hfound).1.symm⟩
    rw [PoolCall.request] at hend
    omega

/-- So does `reallocate` where the new size is that of a part of the block. -/
theorem Tiled.reallocate_inside_iff_of_le {L₁ L₂ : List Block} {len r n : ℕ}
    (h : s.Tiled (L₁ ++ ⟨len, some r⟩ :: L₂))
    (hpool : s.pool.poolSize + A.ptrBytes < 2 ^ A.bits) (hn : n + 2 * A.ptrBytes < 2 ^ A.bits)
    (hle : reallocSize A n ≤ len) :
    s.Inside (.reallocate (total L₁ + A.ptrBytes) n) ↔ ¬ Sliver A len (reallocSize A n) := by
  have hin := h.intact.block_le
  have hused := sizeAt_of_used h.intact.block_header
  dsimp only at hin
  have hsmall := h.intact.small_of_reallocSize_le hpool hn hle
  obtain ⟨haligned, -, hfits, hupper⟩ := reallocSize_spec hsmall
  have hwords : s.pool.reallocateWords (total L₁ + A.ptrBytes) n =
      if len ≤ reallocSize A n + A.ptrBytes then []
      else shrinkWords A (total L₁) (reallocSize A n) := by
    rw [reallocateWords]
    rw [Nat.add_sub_cancel, hused, if_pos hle, wrap_of_lt (by omega)]
  -- the pointer that was passed is returned
  have hpayload : ∀ q P', s.pool.result (.reallocate (total L₁ + A.ptrBytes) n) =
      some (some q, P') → q + n ≤ s.pool.poolSize := by
    intro q P' hq
    rw [result] at hq
    rcases h.intact.reallocate_eq_of_le hsmall hle with hcall | ⟨-, hcall⟩ <;>
      rw [hcall, Option.some.injEq, Prod.mk.injEq, Option.some.injEq] at hq <;> omega
  by_cases hkeep : len ≤ reallocSize A n + A.ptrBytes
  · rw [if_pos hkeep] at hwords
    refine iff_of_true ⟨fun o ho => ?_, hpayload⟩ fun hsliver => ?_
    · rw [FixedPool.words, hwords] at ho
      exact absurd ho List.not_mem_nil
    · exact absurd hsliver.1 (not_lt.mpr hkeep)
  · rw [if_neg hkeep] at hwords
    have hiff := h.intact.shrinkWords_inside_iff haligned (not_le.mp hkeep)
    rw [← hwords] at hiff
    exact ⟨fun hinside => hiff.mp hinside.words, fun hnot => ⟨hiff.mpr hnot, hpayload⟩⟩

/-- Otherwise it stays inside if and only if `allocate` does. -/
theorem Tiled.reallocate_inside_iff_of_lt {L₁ L₂ : List Block} {len r n : ℕ}
    (h : s.Tiled (L₁ ++ ⟨len, some r⟩ :: L₂)) (hroomy : s.pool.Roomy)
    (hlt : len < reallocSize A n) :
    s.Inside (.reallocate (total L₁ + A.ptrBytes) n) ↔ s.Inside (.allocate n) := by
  have hused := sizeAt_of_used h.intact.block_header
  have hwords : ∀ o, o ∈ s.pool.words (.reallocate (total L₁ + A.ptrBytes) n) →
      o ∈ s.pool.words (.allocate n) ∨ o ∈ deallocateWords A (total L₁ + A.ptrBytes) := by
    intro o ho
    rw [FixedPool.words, reallocateWords] at ho
    rw [Nat.add_sub_cancel, hused, if_neg (by omega), List.mem_append] at ho
    refine ho.imp id fun ho => ?_
    split at ho
    · exact ho
    · exact absurd ho List.not_mem_nil
  constructor
  · refine fun hinside => ⟨fun o ho => hinside.words o ?_, fun q P' hq => ?_⟩
    · rw [FixedPool.words, reallocateWords]
      rw [Nat.add_sub_cancel, hused, if_neg (by omega)]
      exact List.mem_append_left _ ho
    · exact hinside.payload q _ (h.intact.reallocate_eq_of_some hlt hq)
  · refine fun hinside => ⟨fun o ho => ?_, fun q P' hq => ?_⟩
    · rcases hwords o ho with ho | ho
      · exact hinside.words o ho
      · exact h.intact.deallocateWords_inside hroomy o ho
    · rw [result, FixedPool.reallocate] at hq
      dsimp only at hq
      rw [Nat.add_sub_cancel, hused, if_neg (by omega)] at hq
      obtain ⟨⟨found, P''⟩, hcall, hfound⟩ := Option.map_eq_some_iff.mp hq
      cases found with
      | none => simp at hfound
      | some q' =>
          obtain rfl : q' = q := by simpa using (Prod.mk.inj hfound).1
          exact hinside.payload q' P'' hcall

/-- So does `reallocate`. -/
theorem Tiled.reallocate_inside_iff (h : s.Tiled L)
    (hpool : s.pool.poolSize + A.ptrBytes < 2 ^ A.bits) (hroomy : s.pool.Roomy) {p r n : ℕ}
    (hlive : (p, r) ∈ s.live) (hn : n < 2 ^ A.bits) :
    s.Inside (.reallocate p n) ↔ s.Sound (.reallocate p n) := by
  have hpay := h.live.mem_iff.mp hlive
  by_cases hrep : s.Representable (.reallocate p n)
  · obtain ⟨L₁, len, L₂, rfl, rfl⟩ := mem_payloads hpay
    have hused := sizeAt_of_used h.intact.block_header
    rw [Nat.zero_add] at hrep ⊢
    by_cases hle : reallocSize A n ≤ len
    · rw [h.reallocate_inside_iff_of_le hpool hrep hle, Sound, Clean, Nat.add_sub_cancel, hused,
        if_pos hle, and_iff_right hrep]
    · have hallocate : s.Representable (.allocate n) := Or.inl (le_of_lt hrep)
      rw [h.reallocate_inside_iff_of_lt hroomy (not_le.mp hle),
        h.allocate_inside_iff hpool hroomy hn, Sound, Sound, Clean, Clean, Nat.add_sub_cancel,
        hused, if_neg hle, and_iff_right hrep, and_iff_right hallocate]
  · -- the block stays as it is, and the payload is longer than the pool
    refine iff_of_false (fun hinside => ?_) fun hsound => hrep hsound.1
    obtain ⟨P', hcall⟩ := h.intact.reallocate_of_unrepresentable hpay hn (not_lt.mp hrep)
    have hend := hinside.payload p P' hcall
    obtain ⟨L₁, len, L₂, -, rfl⟩ := mem_payloads hpay
    rw [Representable] at hrep
    rw [PoolCall.request] at hend
    omega

/-- **One step** keeps a session fit if it is sound.  A sound step leaves no rest that is too small
for a header, so every word the next call reads is in the pool. -/
theorem Fit.step {size : ℕ} (h : s.Fit size) (hpool : size + A.ptrBytes < 2 ^ A.bits)
    {c : PoolCall} (hc : s.Sound c) (hstep : Step s c t) : t.Fit size := by
  obtain ⟨⟨L, htiled⟩, hroomy, rfl⟩ := h
  obtain ⟨L', htiled', hsize⟩ := htiled.step_of_representable hpool hc.1 hstep
  refine ⟨⟨L', htiled'⟩, ?_, hsize⟩
  obtain ⟨hrep, hclean⟩ := hc
  cases hstep with
  | allocate hcall => exact htiled.intact.allocate_roomy hpool hroomy hrep hclean hcall
  | allocate_null hcall =>
      have hserved := htiled.intact.allocate_served hpool hrep
      rw [hcall] at hserved
      obtain rfl := hserved.unchanged
      exact hroomy
  | deallocate hlive =>
      obtain ⟨L₁, len, L₂, rfl, rfl⟩ := mem_payloads (htiled.live.mem_iff.mp hlive)
      rw [Nat.zero_add]
      exact htiled.intact.roomy_deallocate hroomy
  | reallocate hlive hcall =>
      obtain ⟨L₁, len, L₂, rfl, rfl⟩ := mem_payloads (htiled.live.mem_iff.mp hlive)
      rw [Clean, Nat.zero_add, Nat.add_sub_cancel,
        sizeAt_of_used htiled.intact.block_header] at hclean
      rw [Nat.zero_add] at hcall
      split at hclean
      · rename_i hle
        exact htiled.intact.reallocate_roomy_of_le hroomy
          (htiled.intact.small_of_reallocSize_le hpool hrep hle) hle hclean hcall
      · rename_i hlt
        exact htiled.intact.reallocate_roomy_of_lt hpool hroomy (le_of_lt hrep) (not_le.mp hlt)
          hclean hcall
  | reallocate_null hlive hcall =>
      have hserved := htiled.intact.reallocate_served hpool (htiled.live.mem_iff.mp hlive) hrep
      rw [hcall] at hserved
      obtain rfl := hserved.unchanged
      exact hroomy
  | store hlive hin =>
      obtain ⟨L₁, len, L₂, rfl, rfl⟩ := mem_payloads (htiled.live.mem_iff.mp hlive)
      have hfits := htiled.intact.block_wellSized.fits _ rfl
      dsimp only at hfits
      exact htiled.intact.roomy_congr (htiled.intact.store (by omega) (by omega) _) hroomy

/-- A new pool of two words at least. -/
theorem Fit.of_start (m : ByteMemory) {size : ℕ} (hlarge : 2 * A.ptrBytes ≤ size)
    (hlt : size < 2 ^ A.bits) : (start m size : PoolSession A).Fit size := by
  have hword := A.ptrBytes_pos
  have htiled := Tiled.of_start m (A := A) (show A.ptrBytes < size by omega) hlt
  refine ⟨⟨_, htiled⟩, htiled.intact.roomy_iff.mpr fun e he => ?_, rfl⟩
  rw [List.mem_singleton.mp he]
  exact hlarge

/-- In a fit session the calls that stay inside the pool are the sound ones. -/
theorem Fit.inside_iff_sound {size : ℕ} (h : s.Fit size) (hpool : size + A.ptrBytes < 2 ^ A.bits)
    {c : PoolCall} (hc : c.request < 2 ^ A.bits) (howns : s.Owns c) :
    s.Inside c ↔ s.Sound c := by
  obtain ⟨⟨L, htiled⟩, hroomy, rfl⟩ := h
  cases c with
  | allocate n => exact htiled.allocate_inside_iff hpool hroomy hc
  | reallocate p n =>
      obtain ⟨r, hlive⟩ := howns
      exact htiled.reallocate_inside_iff hpool hroomy hlive hc
  | deallocate p =>
      obtain ⟨r, hlive⟩ := howns
      obtain ⟨L₁, len, L₂, rfl, rfl⟩ := mem_payloads (htiled.live.mem_iff.mp hlive)
      rw [Nat.zero_add]
      exact iff_of_true ⟨htiled.intact.deallocateWords_inside hroomy, nofun⟩ ⟨trivial, trivial⟩
  | store p offset byte => exact iff_of_true ⟨nofun, nofun⟩ ⟨trivial, trivial⟩

/-- In a pool of whole words, or of less than three, no sliver is left. -/
theorem Fit.sound {size : ℕ} (h : s.Fit size) (hend : size + 2 * A.ptrBytes < 2 ^ A.bits)
    (hsize : A.ptrBytes ∣ size ∨ size < 3 * A.ptrBytes) {c : PoolCall} (hc : c.request ≤ size)
    (howns : s.Owns c) : s.Sound c := by
  obtain ⟨⟨L, htiled⟩, hroomy, rfl⟩ := h
  have hpool : s.pool.poolSize + A.ptrBytes < 2 ^ A.bits := by omega
  have hallocate : ∀ n, n ≤ s.pool.poolSize → s.pool.NoSliver (realAllocation A n) := by
    intro n hn
    rcases htiled.intact.allocate_outcome hpool hroomy (n := n) (Or.inl (by omega)) with
      ⟨-, -, hclean⟩ | ⟨L₁, len, L₂, rfl, hpos, hsmall, -, -, -, hsliver⟩
    · exact hclean
    · obtain ⟨haligned, hlarge, -, -⟩ := realAllocation_spec hpos hsmall
      exact hsliver.mpr (htiled.intact.not_sliver hsize haligned hlarge)
  cases c with
  | allocate n => exact ⟨Or.inl (by rw [PoolCall.request] at hc; omega), hallocate n hc⟩
  | deallocate p => exact ⟨trivial, trivial⟩
  | store p offset byte => exact ⟨trivial, trivial⟩
  | reallocate p n =>
      have hrep : n + 2 * A.ptrBytes < 2 ^ A.bits := by rw [PoolCall.request] at hc; omega
      refine ⟨hrep, ?_⟩
      obtain ⟨r, hlive⟩ := howns
      obtain ⟨L₁, len, L₂, rfl, rfl⟩ := mem_payloads (htiled.live.mem_iff.mp hlive)
      rw [Clean, Nat.zero_add, Nat.add_sub_cancel, sizeAt_of_used htiled.intact.block_header]
      split
      · rename_i hle
        obtain ⟨haligned, hlarge, -, -⟩ :=
          reallocSize_spec (htiled.intact.small_of_reallocSize_le hpool hrep hle)
        exact htiled.intact.not_sliver hsize haligned hlarge
      · exact hallocate n hc

section Fresh

variable {m : ByteMemory} {size n : ℕ}

/-- A new pool has one block. -/
theorem allocate_start (hlarge : 2 * A.ptrBytes ≤ size) (hlt : size < 2 ^ A.bits) (hpos : 0 < n)
    (hle : realAllocation A n ≤ size) :
    ∃ P, (start m size : PoolSession A).pool.allocate n = some (some A.ptrBytes, P) := by
  have hword := A.ptrBytes_pos
  have htiled := Tiled.of_start m (A := A) (show A.ptrBytes < size by omega) hlt
  have hfits : Suits (realAllocation A n) (0, ⟨size, none⟩) = true := by simp [Suits, hle]
  rcases htiled.intact.scan_cases (realAllocation A n) with
    ⟨-, hall⟩ | ⟨L₁, len, L₂, hL, -, hsome, -⟩
  · have hnot := hall (0, ⟨size, none⟩) List.mem_cons_self
    rw [hfits] at hnot
    cases hnot
  · obtain ⟨rfl, -⟩ : L₁ = [] ∧ L₂ = [] := by
      have hlen := congrArg List.length hL
      simp only [List.length_append, List.length_cons, List.length_nil] at hlen
      exact ⟨List.eq_nil_of_length_eq_zero (by omega), List.eq_nil_of_length_eq_zero (by omega)⟩
    have hcall := Intact.allocate_of_some hpos hsome
    rw [total_nil, Nat.zero_add] at hcall
    exact ⟨_, hcall⟩

/-- Words are whole already. -/
theorem realAllocation_mul {k : ℕ} (hk : 0 < k) (hlt : (k + 2) * A.ptrBytes ≤ 2 ^ A.bits) :
    realAllocation A (k * A.ptrBytes) = (k + 1) * A.ptrBytes := by
  have hword := A.ptrBytes_pos
  have hle : A.ptrBytes ≤ k * A.ptrBytes := Nat.le_mul_of_pos_left _ hk
  have hm : (k + 1) * A.ptrBytes = A.ptrBytes + max A.ptrBytes (k * A.ptrBytes) := by
    rw [max_eq_right hle, Nat.add_one_mul, Nat.add_comm]
  rw [realAllocation_eq (Nat.mul_pos hk hword) hm, if_pos (Nat.mul_mod_left _ _)]
  rw [← Nat.add_one_mul]
  exact hlt

end Fresh

/-- A sliver of a new pool that is not whole words. -/
theorem not_sound_start {m : ByteMemory} {size : ℕ} (hlt : size + 2 * A.ptrBytes < 2 ^ A.bits)
    (hthree : 3 * A.ptrBytes ≤ size) (hdvd : ¬ A.ptrBytes ∣ size) :
    ∃ n P, n ≤ size ∧
      (start m size : PoolSession A).pool.allocate n = some (some A.ptrBytes, P) ∧
      ¬ (start m size : PoolSession A).Sound (.allocate n) := by
  have hword := A.ptrBytes_pos
  have hmod := Nat.mod_add_div' size A.ptrBytes
  have hrem := Nat.mod_lt size hword
  have hpos : 0 < size % A.ptrBytes :=
    Nat.pos_of_ne_zero fun hzero => hdvd (Nat.dvd_of_mod_eq_zero hzero)
  -- all but two words of the whole ones are requested
  obtain ⟨k, hk⟩ : ∃ k, size / A.ptrBytes = k + 3 :=
    ⟨size / A.ptrBytes - 3, (Nat.sub_add_cancel ((Nat.le_div_iff_mul_le hword).mpr hthree)).symm⟩
  rw [hk] at hmod
  have hsplit : (k + 3) * A.ptrBytes = (k + 2) * A.ptrBytes + A.ptrBytes := Nat.succ_mul _ _
  have hsplit' : (k + 2) * A.ptrBytes = (k + 1) * A.ptrBytes + A.ptrBytes := Nat.succ_mul _ _
  have hreal : realAllocation A ((k + 1) * A.ptrBytes) = (k + 2) * A.ptrBytes :=
    realAllocation_mul (Nat.succ_pos k) (show (k + 3) * A.ptrBytes ≤ _ by omega)
  obtain ⟨P, hcall⟩ : ∃ P, (start m size : PoolSession A).pool.allocate
      ((k + 1) * A.ptrBytes) = some (some A.ptrBytes, P) :=
    allocate_start (by omega) (by omega) (Nat.mul_pos (Nat.succ_pos k) hword) (by omega)
  refine ⟨_, P, by omega, hcall, fun hsound => ?_⟩
  have hclean := hsound.2
  have hblock : (start m size : PoolSession A).pool.Intact ([] ++ ⟨size, none⟩ :: []) :=
    (Tiled.of_start m (by omega) (by omega)).intact
  have hsliver := hblock.noSliver_iff (show (k + 2) * A.ptrBytes ≤ size by omega)
    (List.forall_mem_nil _)
  rw [Clean, hreal, hsliver] at hclean
  exact hclean ⟨by omega, by omega⟩

/-- In a pool that reaches the last two words of `Size`, a payload is resized in place to the
size of the pool. -/
theorem exists_run_to_end {m : ByteMemory} {size : ℕ} (hlarge : 2 * A.ptrBytes ≤ size)
    (hpool : size + A.ptrBytes < 2 ^ A.bits) (hbig : 2 ^ A.bits ≤ size + 2 * A.ptrBytes) :
    ∃ n ≤ size, ∃ s, Run Step (start m size : PoolSession A)
      [.allocate n, .reallocate A.ptrBytes size] s := by
  have hword := A.ptrBytes_pos
  have hfour := A.four_mul_ptrBytes_le
  have hreal : realAllocation A (1 * A.ptrBytes) = 2 * A.ptrBytes :=
    realAllocation_mul Nat.one_pos (show 3 * A.ptrBytes ≤ _ by omega)
  rw [Nat.one_mul] at hreal
  obtain ⟨P, hcall⟩ := allocate_start (m := m) hlarge (by omega) hword (hreal.trans_le hlarge)
  have htiled := Tiled.of_start m (A := A) (show A.ptrBytes < size by omega) (by omega)
  have hfirst := Step.allocate hcall
  obtain ⟨L, htiled', -⟩ := htiled.step_of_representable hpool
    (c := .allocate A.ptrBytes) (Or.inl (by omega)) hfirst
  obtain ⟨P', hcall'⟩ := htiled'.intact.reallocate_of_unrepresentable
    (htiled'.live.mem_iff.mp List.mem_cons_self) (by omega) hbig
  exact ⟨A.ptrBytes, by omega, _, Run.cons hfirst
    (Run.cons (Step.reallocate List.mem_cons_self hcall') (Run.nil _))⟩

section Run

variable {base size : ℕ} {m : ByteMemory}

/-- The runs that stay inside the pool are those of sound steps. -/
theorem run_inside_iff (hpool : size + A.ptrBytes < 2 ^ A.bits) (hlarge : 2 * A.ptrBytes ≤ size)
    {calls : List PoolCall} {s : PoolSession A} (hcalls : ∀ c ∈ calls, c.request < 2 ^ A.bits) :
    Run (Guarded Step Inside) (start m size) calls s ↔
      Run (Guarded Step Sound) (start m size) calls s := by
  have hstart : (start m size : PoolSession A).Fit size := Fit.of_start m hlarge (by omega)
  have hiff : ∀ (s : PoolSession A) (c : PoolCall) (t : PoolSession A), s.Fit size →
      c.request < 2 ^ A.bits → Step s c t → (s.Inside c ↔ s.Sound c) :=
    fun _ _ _ hs hc hstep => hs.inside_iff_sound hpool hc hstep.owns
  constructor
  · intro hrun
    exact hrun.guarded_of_guarded (I := Fit size)
      (fun s c t hs hc hstep => (hiff s c t hs hc hstep.2).mp hstep.1)
      (fun _ _ _ hs hsound hstep => hs.step hpool hsound hstep.2) hstart hcalls
  · intro hrun
    exact hrun.guarded_of_guarded (I := Fit size)
      (fun s c t hs hc hstep => (hiff s c t hs hc hstep.2).mpr hstep.1)
      (fun _ _ _ hs _ hstep => hs.step hpool hstep.1 hstep.2) hstart hcalls

/-- A pool in which all runs are sound is whole words, or less than three, and ends in front of
the last two words of `Size`. -/
theorem whole_of_runs_sound (hpool : size + A.ptrBytes < 2 ^ A.bits)
    (hlarge : 2 * A.ptrBytes ≤ size)
    (hsound : ∀ calls (s : PoolSession A), (∀ c ∈ calls, c.request ≤ size) →
      Run Step (start m size) calls s → Run (Guarded Step Sound) (start m size) calls s) :
    (A.ptrBytes ∣ size ∨ size < 3 * A.ptrBytes) ∧ size + 2 * A.ptrBytes < 2 ^ A.bits := by
  have hfar : size + 2 * A.ptrBytes < 2 ^ A.bits := by
    by_contra hbig
    obtain ⟨n, hn, s, hrun⟩ := exists_run_to_end (m := m) hlarge hpool (not_lt.mp hbig)
    have hguarded := hsound _ _ (by simp [PoolCall.request, hn]) hrun
    obtain ⟨t, -, hrest⟩ := Run.cons_iff.mp hguarded
    obtain ⟨_, hlast, _⟩ := Run.cons_iff.mp hrest
    exact hbig hlast.1.1
  refine ⟨?_, hfar⟩
  by_contra hsize
  obtain ⟨hdvd, hthree⟩ := not_or.mp hsize
  obtain ⟨n, P, hn, hcall, hnot⟩ := not_sound_start (m := m) hfar (not_lt.mp hthree) hdvd
  have hguarded := hsound [.allocate n] _ (by simp [PoolCall.request, hn])
    (Run.cons (Step.allocate hcall) (Run.nil _))
  obtain ⟨_, hfirst, _⟩ := Run.cons_iff.mp hguarded
  exact hnot hfirst.1

/-- In such a pool they are. -/
theorem run_sound (hend : size + 2 * A.ptrBytes < 2 ^ A.bits) (hlarge : 2 * A.ptrBytes ≤ size)
    (hsize : A.ptrBytes ∣ size ∨ size < 3 * A.ptrBytes) {calls : List PoolCall}
    {s : PoolSession A} (hcalls : ∀ c ∈ calls, c.request ≤ size)
    (hrun : Run Step (start m size) calls s) :
    Run (Guarded Step Sound) (start m size) calls s :=
  hrun.guarded_of_invariant (I := Fit size) (D := fun c => c.request ≤ size) (C := Sound)
    (fun _ _ _ hs hc hstep => hs.sound hend hsize hc hstep.owns)
    (fun _ _ _ hs hsound hstep => hs.step (by omega) hsound hstep)
    (Fit.of_start m hlarge (by omega)) hcalls

/-- **The words of the pool and its payloads**, in every run of a pool that lies at `base` and
does not reach the end of the address space.  All steps of a run stay inside the pool if
and only if all are sound; and all runs with requests of at most the size of the pool do so
if and only if the pool is whole words, or less than three, and does not reach the last two
words of `Size`. -/
theorem inside_iff_of_run (hbase : A.ptrBytes ∣ base) (hnonnull : 0 < base)
    (hend : base + size < 2 ^ A.bits) (hlarge : 2 * A.ptrBytes ≤ size) :
    (∀ o ∈ constructWords A, o + A.ptrBytes ≤ size) ∧
    (∀ calls (s : PoolSession A), (∀ c ∈ calls, c.request < 2 ^ A.bits) →
      (Run (Guarded Step Inside) (start m size) calls s ↔
        Run (Guarded Step Sound) (start m size) calls s)) ∧
    ((∀ calls (s : PoolSession A), (∀ c ∈ calls, c.request ≤ size) →
        Run Step (start m size) calls s → Run (Guarded Step Inside) (start m size) calls s) ↔
      (A.ptrBytes ∣ size ∨ size < 3 * A.ptrBytes) ∧ size + 2 * A.ptrBytes < 2 ^ A.bits) := by
  have hword : A.ptrBytes ≤ base := Nat.le_of_dvd hnonnull hbase
  have hpool : size + A.ptrBytes < 2 ^ A.bits := by omega
  have hrequests : ∀ calls : List PoolCall, (∀ c ∈ calls, c.request ≤ size) →
      ∀ c ∈ calls, c.request < 2 ^ A.bits :=
    fun _ hcalls c hc => (hcalls c hc).trans_lt (by omega)
  refine ⟨?_, fun calls s hcalls => run_inside_iff hpool hlarge hcalls, ?_, ?_⟩
  · simp only [constructWords, List.forall_mem_cons]
    exact ⟨by omega, by omega, nofun⟩
  · intro hall
    refine whole_of_runs_sound (m := m) hpool hlarge fun calls s hcalls hrun => ?_
    exact (run_inside_iff hpool hlarge (hrequests calls hcalls)).mp (hall calls s hcalls hrun)
  · intro hsize calls s hcalls hrun
    exact (run_inside_iff hpool hlarge (hrequests calls hcalls)).mpr
      (run_sound hsize.2 hlarge hsize.1 hcalls hrun)

/-- A pool of 64 bytes, on a machine with words of 8, of which 8 are allocated. -/
theorem inside_iff_of_run_64 :
    ∃ s : PoolSession ⟨3⟩, Run Step (start (fun _ => 0) 64) [.allocate 8] s ∧
      Run (Guarded Step Inside) (start (fun _ => 0) 64) [.allocate 8] s := by
  have hinside := (@inside_iff_of_run ⟨3⟩ 4096 64 (fun _ => 0) (by decide) (by decide)
    (by decide) (by decide)).2.2.mpr ⟨Or.inl (by decide), by decide⟩
  have hrun : Run Step (start (fun _ => 0) 64 : PoolSession ⟨3⟩) [.allocate 8] _ :=
    Run.cons (Step.allocate (p := 8) rfl) (Run.nil _)
  exact ⟨_, hrun, hinside _ _ (by decide) hrun⟩

/-- In a pool of 28 bytes, 8 are allocated: the header of the block behind them is written
to the bytes 16 to 31. -/
theorem not_inside_28 :
    ∃ s : PoolSession ⟨3⟩, Run Step (start (fun _ => 0) 28) [.allocate 8] s ∧
      (start (fun _ => 0) 28 : PoolSession ⟨3⟩).pool.words (.allocate 8) = [16, 24, 0] ∧
      ¬ Run (Guarded Step Inside) (start (fun _ => 0) 28) [.allocate 8] s := by
  have hwords : (start (fun _ => 0) 28 : PoolSession ⟨3⟩).pool.words (.allocate 8) =
      [16, 24, 0] := rfl
  refine ⟨_, Run.cons (Step.allocate (p := 8) rfl) (Run.nil _), hwords, fun hrun => ?_⟩
  obtain ⟨-, ⟨hinside, -⟩, -⟩ := Run.cons_iff.mp hrun
  exact absurd (hinside.words 24 (by rw [hwords]; decide)) (by decide)

end Run

end PoolSession

end Tklb
