import Tklb.FixedPool
import Tklb.Foundation.Extents
import Tklb.Foundation.Walks

/-!
# The blocks of a `FixedPool`

The headers of a pool describe a tiling of it: a list of consecutive blocks,
each free or holding a payload of which some number of bytes was requested.
`Intact P L` says that the bytes of `P` describe the tiling `L`.  Blocks start at
whole words; when the length of the pool is not whole words, neither is that of the
last block, and the second header word of the last block may hang over the end of
the pool.

Every operation changes one block of the tiling and leaves the others alone
(`Confined`, `Intact.replace`):

* `allocate` takes the first free block that is large enough, whole or split in
  two (`taken`);
* `deallocate` marks a block free;
* `reallocate` leaves the block, cuts it in two, or allocates, overwrites the
  payload of the old block and frees it.

Client writes only reach bytes behind the header of an allocated block
(`Intact.overwrite`).

### What is load-bearing

The tiling is a list, and a call changes it in the middle: `L₁ ++ e :: L₂` becomes `L₁ ++ M ++
L₂`, where `M` are one or two blocks with the length of `e` in all.  `replace` is the rule for
that, and every operation is an instance of it.  What a list offers for this, the offsets of the
parts and the lengths in front of them, is not about the pool and is in `Foundation.Extents`.

`Header` allows the last block to be too short for a second header word, as long as it is
allocated or nobody reads that word; `headerSize` is the part of a block that the pool reads.
`WellSized` gives what a payload needs: the bytes that were requested fit behind the header.

`scan_cases` connects the loop with the list.  The loop goes from header to header, the list
from block to block, and the induction is over the list; the fuel is enough because every block
is at least one byte.
-/

namespace Tklb

open Foundation

namespace FixedPool

variable {A : Target}

/-! ### Tilings -/

/-- A block: free, or allocated for a number of requested bytes. -/
abbrev Block : Type := Extent (Option ℕ)

/-- The bytes of a block that the pool reads: `size`, and `space` when the block
is free. -/
def headerSize (A : Target) : Option ℕ → ℕ
  | none => 2 * A.ptrBytes
  | some _ => A.ptrBytes

/-- The header stored for a block at offset `x.1`.  A free block has two words, an allocated one has
one, and its payload begins in the second. -/
def Header (A : Target) (m : ByteMemory) (x : ℕ × Block) : Prop :=
  match x.2.tag with
  | none => m.read x.1 A.ptrBytes = 0 ∧
      m.read (x.1 + A.ptrBytes) A.ptrBytes = x.2.len
  | some _ => m.read x.1 A.ptrBytes = x.2.len

/-- A block is longer than the word in front of its payload, and has room for what
was requested. -/
structure WellSized (A : Target) (e : Block) : Prop where
  large : A.ptrBytes < e.len
  fits : ∀ r, e.tag = some r → r + A.ptrBytes ≤ e.len

/-- The bytes of the pool describe the tiling `L`.  The pieces cover the pool, start at whole words
and are large enough for a header, and each header says what the piece is. -/
structure Intact (P : FixedPool A) (L : List Block) : Prop where
  total_eq : total L = P.poolSize
  wellSized : ∀ e ∈ L, WellSized A e
  aligned : ∀ x ∈ placed 0 L, A.ptrBytes ∣ x.1
  header : ∀ x ∈ placed 0 L, Header A P.memory x
  poolSize_lt : P.poolSize < 2 ^ A.bits

/-- Of the blocks `L₁`, `e` and `L₂` of a pool, only the bytes of `e` change.  If no block follows
`e`, nothing is said about the bytes behind it. -/
structure Confined (P P' : FixedPool A) (L₁ : List Block) (e : Block) (L₂ : List Block) :
    Prop where
  size_eq : P'.poolSize = P.poolSize
  before : ByteMemory.AgreeOn P.memory P'.memory 0 (total L₁)
  after : L₂ ≠ [] →
    ByteMemory.AgreeOn P.memory P'.memory (total L₁ + e.len) (P.poolSize + A.ptrBytes)

/-- The payload of a placed block: its pointer and the bytes requested. -/
def payload (A : Target) (x : ℕ × Block) : Option (ℕ × ℕ) :=
  x.2.tag.map fun r => (x.1 + A.ptrBytes, r)

/-- The payloads of a tiling that starts at offset `o`. -/
def payloads (A : Target) (o : ℕ) (L : List Block) : List (ℕ × ℕ) :=
  (placed o L).filterMap (payload A)

theorem headerSize_le (tag : Option ℕ) : headerSize A tag ≤ 2 * A.ptrBytes := by
  cases tag with
  | none => exact le_rfl
  | some r => simp only [headerSize]; omega

/-- A header only depends on the bytes the pool reads. -/
theorem Header.frame {m m' : ByteMemory} {x : ℕ × Block} (h : Header A m x)
    (hag : ByteMemory.AgreeOn m m' x.1 (x.1 + headerSize A x.2.tag)) :
    Header A m' x := by
  obtain ⟨i, len, tag⟩ := x
  cases tag with
  | none =>
      simp only [Header, headerSize] at h hag ⊢
      rw [(hag.mono le_rfl (by omega)).read, (hag.mono (by omega) (by omega)).read]
      exact h
  | some r =>
      simp only [Header, headerSize] at h hag ⊢
      rw [hag.read]
      exact h

@[simp] theorem payloads_nil (o : ℕ) : payloads A o [] = [] := rfl

@[simp] theorem payloads_cons_free (o len : ℕ) (L : List Block) :
    payloads A o (⟨len, none⟩ :: L) = payloads A (o + len) L := rfl

@[simp] theorem payloads_cons_used (o len r : ℕ) (L : List Block) :
    payloads A o (⟨len, some r⟩ :: L) =
      (o + A.ptrBytes, r) :: payloads A (o + len) L := rfl

theorem payloads_append (o : ℕ) (L M : List Block) :
    payloads A o (L ++ M) = payloads A o L ++ payloads A (o + total L) M := by
  rw [payloads, placed_append, List.filterMap_append]
  rfl

/-- A payload is the payload of an allocated block. -/
theorem mem_payloads_placed {o p r : ℕ} {L : List Block} (h : (p, r) ∈ payloads A o L) :
    ∃ i len, (i, ⟨len, some r⟩) ∈ placed o L ∧ p = i + A.ptrBytes := by
  obtain ⟨⟨i, len, tag⟩, hx, hpay⟩ := List.mem_filterMap.mp h
  cases tag with
  | none => simp [payload] at hpay
  | some r' =>
      simp only [payload, Option.map_some, Option.some.injEq, Prod.mk.injEq] at hpay
      obtain ⟨rfl, rfl⟩ := hpay
      exact ⟨i, len, hx, rfl⟩

/-- The allocated block of a payload splits the tiling. -/
theorem mem_payloads {o p r : ℕ} {L : List Block} (h : (p, r) ∈ payloads A o L) :
    ∃ L₁ len L₂, L = L₁ ++ ⟨len, some r⟩ :: L₂ ∧ p = o + total L₁ + A.ptrBytes := by
  obtain ⟨i, len, hx, rfl⟩ := mem_payloads_placed h
  obtain ⟨L₁, L₂, hL, hi⟩ := mem_placed_split hx
  dsimp only at hi
  exact ⟨L₁, len, L₂, hL, by rw [hi]⟩

/-! ### Replacing one block -/

namespace Intact

variable {P P' : FixedPool A} {L L₁ L₂ : List Block} {e : Block}

theorem block_mem (_ : P.Intact (L₁ ++ e :: L₂)) :
    (total L₁, e) ∈ placed 0 (L₁ ++ e :: L₂) := by
  rw [placed_append, placed_cons, Nat.zero_add]
  simp

theorem block_le (h : P.Intact (L₁ ++ e :: L₂)) : total L₁ + e.len ≤ P.poolSize := by
  have := (mem_placed_bounds h.block_mem).2
  rwa [Nat.zero_add, h.total_eq] at this

theorem block_wellSized (h : P.Intact (L₁ ++ e :: L₂)) : WellSized A e :=
  h.wellSized e (by simp)

theorem block_aligned (h : P.Intact (L₁ ++ e :: L₂)) : A.ptrBytes ∣ total L₁ :=
  h.aligned _ h.block_mem

theorem block_header (h : P.Intact (L₁ ++ e :: L₂)) :
    Header A P.memory (total L₁, e) :=
  h.header _ h.block_mem

/-- A block that is not the last one is whole words and holds a header. -/
theorem whole (h : P.Intact (L₁ ++ e :: L₂)) (hnext : L₂ ≠ []) :
    A.ptrBytes ∣ e.len ∧ 2 * A.ptrBytes ≤ e.len := by
  obtain ⟨b, L₂, rfl⟩ := List.exists_cons_of_ne_nil hnext
  have hmem : (total L₁ + e.len, b) ∈ placed 0 (L₁ ++ e :: b :: L₂) := by
    rw [placed_append, Nat.zero_add]
    simp
  have hdvd : A.ptrBytes ∣ e.len :=
    (Nat.dvd_add_right h.block_aligned).mp (h.aligned _ hmem)
  have := Target.add_ptrBytes_le dvd_rfl hdvd h.block_wellSized.large
  exact ⟨hdvd, by omega⟩

/-- In a pool of whole words so is every block. -/
theorem whole_of_aligned (h : P.Intact L) (hpool : A.ptrBytes ∣ P.poolSize) (he : e ∈ L) :
    A.ptrBytes ∣ e.len ∧ 2 * A.ptrBytes ≤ e.len := by
  obtain ⟨L₁, L₂, rfl⟩ := List.append_of_mem he
  by_cases hnext : L₂ = []
  · subst hnext
    have htotal := h.total_eq
    rw [total_append, total_cons, total_nil, add_zero] at htotal
    have hdvd : A.ptrBytes ∣ e.len := (Nat.dvd_add_right h.block_aligned).mp (htotal ▸ hpool)
    have := Target.add_ptrBytes_le dvd_rfl hdvd h.block_wellSized.large
    exact ⟨hdvd, by omega⟩
  · exact h.whole hnext

/-- **One block is replaced.**  The new blocks have the length of the old one,
their headers are in place, and no byte outside the old block changed. -/
theorem replace (h : P.Intact (L₁ ++ e :: L₂)) (hc : Confined P P' L₁ e L₂) {M : List Block}
    (htotal : total M = e.len) (hwell : ∀ b ∈ M, WellSized A b)
    (haligned : ∀ x ∈ placed (total L₁) M, A.ptrBytes ∣ x.1)
    (hheader : ∀ x ∈ placed (total L₁) M, Header A P'.memory x) :
    P'.Intact (L₁ ++ M ++ L₂) := by
  have htot := h.total_eq
  rw [total_append, total_cons] at htot
  have hold : ∀ x, x ∈ placed 0 L₁ ∨ x ∈ placed (total L₁ + e.len) L₂ →
      x ∈ placed 0 (L₁ ++ e :: L₂) := by
    intro x
    rw [placed_append, placed_cons, Nat.zero_add, List.mem_append, List.mem_cons]
    tauto
  have hnew : ∀ x ∈ placed 0 (L₁ ++ M ++ L₂), x ∈ placed 0 L₁ ∨ x ∈ placed (total L₁) M ∨
      x ∈ placed (total L₁ + e.len) L₂ := by
    intro x hx
    rwa [List.append_assoc, placed_append, placed_append, Nat.zero_add, htotal,
      List.mem_append, List.mem_append] at hx
  refine ⟨?_, ?_, ?_, ?_, ?_⟩
  · rw [total_append, total_append, hc.size_eq]
    omega
  · intro b hb
    rw [List.mem_append, List.mem_append] at hb
    rcases hb with (hb | hb) | hb
    · exact h.wellSized b (by simp [hb])
    · exact hwell b hb
    · exact h.wellSized b (by simp [hb])
  · intro x hx
    rcases hnew x hx with hx | hx | hx
    · exact h.aligned x (hold x (Or.inl hx))
    · exact haligned x hx
    · exact h.aligned x (hold x (Or.inr hx))
  · intro x hx
    rcases hnew x hx with hx | hx | hx
    · -- a block in front of `e` is not the last one, so its header is inside it
      obtain ⟨N₁, N₂, rfl, hpos⟩ := mem_placed_split hx
      have hsmall := headerSize_le (A := A) x.2.tag
      have hbounds := mem_placed_bounds hx
      have hlarge : 2 * A.ptrBytes ≤ x.2.len := by
        have hwhole := h
        rw [List.append_assoc, List.cons_append] at hwhole
        exact (hwhole.whole (by simp)).2
      exact (h.header x (hold x (Or.inl hx))).frame (hc.before.mono (by omega) (by omega))
    · exact hheader x hx
    · have hsmall := headerSize_le (A := A) x.2.tag
      have hbounds := mem_placed_bounds hx
      have hin := hold x (Or.inr hx)
      have hlarge := (h.wellSized _ (mem_of_mem_placed hin)).large
      have hagree := hc.after (by rintro rfl; simp at hx)
      exact (h.header x hin).frame (hagree.mono (by omega) (by omega))
  · rw [hc.size_eq]
    exact h.poolSize_lt

/-- Bytes behind the header of an allocated block do not matter. -/
theorem overwrite {len r : ℕ} (h : P.Intact (L₁ ++ ⟨len, some r⟩ :: L₂))
    (hc : Confined P P' L₁ ⟨len, some r⟩ L₂)
    (hword : ByteMemory.AgreeOn P.memory P'.memory (total L₁) (total L₁ + A.ptrBytes)) :
    P'.Intact (L₁ ++ ⟨len, some r⟩ :: L₂) := by
  have key := h.replace (M := [⟨len, some r⟩]) hc (by simp)
    (by simpa using h.block_wellSized) (by simpa using h.block_aligned) (by
      intro x hx
      obtain rfl : x = (total L₁, ⟨len, some r⟩) := by simpa using hx
      exact h.block_header.frame hword)
  simpa using key

/-- A byte is stored behind the header of an allocated block. -/
theorem store {len r k : ℕ} (h : P.Intact (L₁ ++ ⟨len, some r⟩ :: L₂))
    (hk : total L₁ + A.ptrBytes ≤ k) (hlt : k < total L₁ + len) (byte : UInt8) :
    ({ P with memory := Function.update P.memory k byte } : FixedPool A).Intact
      (L₁ ++ ⟨len, some r⟩ :: L₂) := by
  refine h.overwrite ⟨rfl, ?_, fun _ => ?_⟩ ?_
  · exact ByteMemory.update_agreeOn (by omega)
  · exact ByteMemory.update_agreeOn (by dsimp only; omega)
  · exact ByteMemory.update_agreeOn (by omega)

end Intact

/-! ### The scan of `allocate` -/

/-- A free block with room for `size` bytes. -/
def Suits (size : ℕ) (x : ℕ × Block) : Bool := x.2.tag = none ∧ size ≤ x.2.len

theorem sizeAt_of_free {P : FixedPool A} {i len : ℕ}
    (h : Header A P.memory (i, ⟨len, none⟩)) : P.sizeAt i = 0 ∧ P.spaceAt i = len := h

theorem sizeAt_of_used {P : FixedPool A} {i len r : ℕ}
    (h : Header A P.memory (i, ⟨len, some r⟩)) : P.sizeAt i = len := h

/-- A walk along the headers advances by the length of the block. -/
theorem stepAt_of_header {P : FixedPool A} {i : ℕ} {e : Block}
    (h : Header A P.memory (i, e)) (hwell : WellSized A e) : P.stepAt i = e.len := by
  have hword := A.ptrBytes_pos
  have hlarge := hwell.large
  obtain ⟨len, tag⟩ := e
  dsimp only at hlarge
  cases tag with
  | none =>
      obtain ⟨hzero, hspace⟩ := sizeAt_of_free h
      rw [stepAt, if_pos hzero, hspace]
  | some r =>
      have hused := sizeAt_of_used h
      rw [stepAt, if_neg (by omega), hused]

/-- The scan finds the first suitable block, and enough fuel is one unit per
block and one more. -/
theorem scan_eq {P : FixedPool A} (hpool : P.poolSize < 2 ^ A.bits) (size : ℕ)
    {L : List Block} : ∀ o fuel : ℕ, (∀ e ∈ L, WellSized A e) →
      (∀ x ∈ placed o L, Header A P.memory x) → o + total L = P.poolSize →
      L.length < fuel →
      P.scan size fuel o = some (((placed o L).find? (Suits size)).map Prod.fst) := by
  have hword := A.ptrBytes_pos
  induction L with
  | nil =>
      intro o fuel _ _ htotal hfuel
      obtain ⟨fuel, rfl⟩ := Nat.exists_eq_succ_of_ne_zero (by omega : fuel ≠ 0)
      rw [total_nil] at htotal
      rw [scan, if_neg (by omega)]
      rfl
  | cons e L ih =>
      intro o fuel hwell hheader htotal hfuel
      obtain ⟨fuel, rfl⟩ := Nat.exists_eq_succ_of_ne_zero (by omega : fuel ≠ 0)
      rw [total_cons] at htotal
      have hlarge := (hwell e List.mem_cons_self).large
      have hhead := hheader (o, e) List.mem_cons_self
      have hrest := ih (o + e.len) fuel
        (fun b hb => hwell b (List.mem_cons_of_mem _ hb))
        (fun x hx => hheader x (List.mem_cons_of_mem _ hx)) (by omega)
        (by rw [List.length_cons] at hfuel; omega)
      have hnext : wrap A.bits (o + e.len) = o + e.len := wrap_of_lt (by omega)
      rw [scan, if_pos (by omega), placed_cons]
      obtain ⟨len, tag⟩ := e
      cases tag with
      | none =>
          obtain ⟨hzero, hspace⟩ := sizeAt_of_free hhead
          rw [if_pos hzero, hspace]
          -- a block of the tiling has space, so the test for an overrun fails
          by_cases hfits : size ≤ len
          · rw [if_pos hfits, List.find?_cons_of_pos (by simp [Suits, hfits])]
            rfl
          · rw [if_neg hfits, List.find?_cons_of_neg (by simp [Suits, hfits]),
              if_neg (by dsimp only at hlarge; omega), hnext]
            exact hrest
      | some r =>
          have hused := sizeAt_of_used hhead
          rw [if_neg (by rw [hused]; dsimp only at hlarge; omega), hused,
            List.find?_cons_of_neg (by simp [Suits]), hnext]
          exact hrest

/-- Blocks are at least one byte long. -/
theorem length_le_total {L : List Block} (h : ∀ e ∈ L, WellSized A e) :
    L.length ≤ total L := by
  have hword := A.ptrBytes_pos
  induction L with
  | nil => simp
  | cons e L ih =>
      have hlarge := (h e List.mem_cons_self).large
      have := ih fun b hb => h b (List.mem_cons_of_mem _ hb)
      rw [List.length_cons, total_cons]
      omega

namespace Intact

variable {P : FixedPool A} {L : List Block}

/-- **First fit.**  The scan of a whole pool either finds no suitable block, or the first
free block of the tiling that is large enough. -/
theorem scan_cases (h : P.Intact L) (size : ℕ) :
    (P.scan size (P.poolSize + 1) 0 = some none ∧ ∀ x ∈ placed 0 L, Suits size x = false) ∨
      ∃ L₁ len L₂, L = L₁ ++ ⟨len, none⟩ :: L₂ ∧ size ≤ len ∧
        P.scan size (P.poolSize + 1) 0 = some (some (total L₁)) ∧
        ∀ x ∈ placed 0 L₁, Suits size x = false := by
  have hlen := length_le_total h.wellSized
  have hscan := scan_eq h.poolSize_lt size 0 (P.poolSize + 1) h.wellSized h.header
    (by rw [Nat.zero_add, h.total_eq]) (by rw [h.total_eq] at hlen; omega)
  rcases find_placed (Suits size) 0 L with ⟨hnone, hall⟩ | ⟨L₁, e, L₂, hL, hsome, hsuits, hall⟩
  · rw [hnone] at hscan
    exact Or.inl ⟨hscan, hall⟩
  · rw [hsome] at hscan
    obtain ⟨len, tag⟩ := e
    obtain ⟨rfl, hfits⟩ : tag = none ∧ size ≤ len := by simpa [Suits] using hsuits
    refine Or.inr ⟨L₁, len, L₂, hL, hfits, ?_, hall⟩
    rw [hscan, Option.map_some, Nat.zero_add]

end Intact

/-! ### The operations -/

/-- The blocks that replace a free block of `len` bytes when a block of `size`
bytes is taken from it for a request of `r` bytes. -/
def taken (A : Target) (len size r : ℕ) : List Block :=
  if len ≤ size + A.ptrBytes then [⟨len, some r⟩]
  else [⟨size, some r⟩, ⟨len - size, none⟩]

/-- The bytes of the allocated blocks. -/
def usedSpace (L : List Block) : ℕ := total (L.filter fun e => e.tag.isSome)

/-- A stored word is read back. -/
theorem read_word {m : ByteMemory} {i v : ℕ} (hv : v < 2 ^ A.bits) :
    (m.write i A.ptrBytes v).read i A.ptrBytes = v :=
  ByteMemory.read_write_of_lt (by rwa [← A.two_pow_bits])

namespace Intact

variable {P P' : FixedPool A} {L L₁ L₂ : List Block}

/-- Three writes to one block are confined to it. -/
theorem confined_cut {e : Block} (h : P.Intact (L₁ ++ e :: L₂)) {size v v' v'' : ℕ}
    (haligned : A.ptrBytes ∣ size) (hrest : size + A.ptrBytes < e.len)
    (hsize : P'.poolSize = P.poolSize)
    (hmem : P'.memory = ((P.memory.write (total L₁ + size) A.ptrBytes v).write
      (total L₁ + size + A.ptrBytes) A.ptrBytes v').write (total L₁) A.ptrBytes v'') :
    Confined P P' L₁ e L₂ := by
  refine ⟨hsize, ?_, fun hnext => ?_⟩
  · rw [hmem]
    exact ((ByteMemory.write_agreeOn (by omega)).trans
      (ByteMemory.write_agreeOn (by omega))).trans (ByteMemory.write_agreeOn (by omega))
  · -- a block in front of another one is whole words, so the rest holds a header
    have hroom : size + A.ptrBytes + A.ptrBytes ≤ e.len :=
      Target.add_ptrBytes_le (Nat.dvd_add haligned dvd_rfl) (h.whole hnext).1 hrest
    rw [hmem]
    exact ((ByteMemory.write_agreeOn (by omega)).trans
      (ByteMemory.write_agreeOn (by omega))).trans (ByteMemory.write_agreeOn (by omega))

/-- A block is cut into an allocated one and a free rest. -/
theorem cut {e : Block} (h : P.Intact (L₁ ++ e :: L₂)) {size r : ℕ}
    (haligned : A.ptrBytes ∣ size) (hlarge : 2 * A.ptrBytes ≤ size)
    (hfits : r + A.ptrBytes ≤ size) (hrest : size + A.ptrBytes < e.len)
    (hsize : P'.poolSize = P.poolSize)
    (hmem : P'.memory = ((P.memory.write (total L₁ + size) A.ptrBytes 0).write
      (total L₁ + size + A.ptrBytes) A.ptrBytes (e.len - size)).write
      (total L₁) A.ptrBytes size) :
    P'.Intact (L₁ ++ [⟨size, some r⟩, ⟨e.len - size, none⟩] ++ L₂) := by
  have hword := A.ptrBytes_pos
  have hin := h.block_le
  have hpool := h.poolSize_lt
  refine h.replace (h.confined_cut haligned hrest hsize hmem) ?_ ?_ ?_ ?_
  · simp only [total_cons, total_nil]
    omega
  · intro b hb
    rw [List.mem_pair] at hb
    rcases hb with rfl | rfl
    · refine ⟨by dsimp only; omega, fun s hs => ?_⟩
      obtain rfl : r = s := by simpa using hs
      exact hfits
    · exact ⟨by dsimp only; omega, fun s hs => by simp at hs⟩
  · intro x hx
    rw [placed_cons, placed_cons, placed_nil, List.mem_pair] at hx
    rcases hx with rfl | rfl
    · exact h.block_aligned
    · exact Nat.dvd_add h.block_aligned haligned
  · intro x hx
    rw [placed_cons, placed_cons, placed_nil, List.mem_pair] at hx
    rw [hmem]
    rcases hx with rfl | rfl
    · exact read_word (by omega)
    · constructor
      · dsimp only
        rw [ByteMemory.read_write_of_disjoint (by omega),
          ByteMemory.read_write_of_disjoint (by omega)]
        exact read_word (Nat.two_pow_pos _)
      · dsimp only
        rw [ByteMemory.read_write_of_disjoint (by omega)]
        exact read_word (by omega)

/-- `allocate` writes to the free block it takes. -/
theorem confined_take {len size : ℕ} (h : P.Intact (L₁ ++ ⟨len, none⟩ :: L₂))
    (haligned : A.ptrBytes ∣ size) (hlt : size + A.ptrBytes < 2 ^ A.bits) :
    Confined P (P.take (total L₁) size) L₁ ⟨len, none⟩ L₂ := by
  have hwell := h.block_wellSized.large
  obtain ⟨-, hspace⟩ := sizeAt_of_free h.block_header
  rw [FixedPool.take, hspace, wrap_of_lt hlt]
  dsimp only at hwell ⊢
  split
  · exact ⟨rfl, ByteMemory.write_agreeOn (by omega),
      fun _ => ByteMemory.write_agreeOn (by dsimp only; omega)⟩
  · exact h.confined_cut haligned (by dsimp only; omega) rfl rfl

/-- `allocate` takes a free block. -/
theorem take {len size r : ℕ} (h : P.Intact (L₁ ++ ⟨len, none⟩ :: L₂))
    (haligned : A.ptrBytes ∣ size) (hlarge : 2 * A.ptrBytes ≤ size)
    (hfits : r + A.ptrBytes ≤ size) (hlt : size + A.ptrBytes < 2 ^ A.bits)
    (hle : size ≤ len) :
    (P.take (total L₁) size).Intact (L₁ ++ taken A len size r ++ L₂) ∧
      (P.take (total L₁) size).poolSize = P.poolSize ∧
      (P.take (total L₁) size).allocatedSpace =
        wrap A.bits (P.allocatedSpace + usedSpace (taken A len size r)) := by
  have hwell := h.block_wellSized
  have hin := h.block_le
  have hpool := h.poolSize_lt
  have hconfined := h.confined_take haligned hlt
  obtain ⟨-, hspace⟩ := sizeAt_of_free h.block_header
  rw [FixedPool.take, hspace, wrap_of_lt hlt] at hconfined ⊢
  rw [taken]
  dsimp only at hin hconfined ⊢
  split
  · -- the whole block is taken
    rename_i hwhole
    rw [if_pos hwhole] at hconfined
    refine ⟨h.replace hconfined (by simp) ?_ ?_ ?_, rfl, by simp [usedSpace]⟩
    · intro b hb
      obtain rfl := List.mem_singleton.mp hb
      refine ⟨hwell.large, fun s hs => ?_⟩
      obtain rfl : r = s := by simpa using hs
      dsimp only
      omega
    · intro x hx
      obtain rfl := List.mem_singleton.mp hx
      exact h.block_aligned
    · intro x hx
      obtain rfl := List.mem_singleton.mp hx
      exact read_word (by omega)
  · refine ⟨?_, rfl, by simp [usedSpace]⟩
    refine h.cut haligned hlarge hfits (by dsimp only; omega) rfl ?_
    rw [wsub_of_le (by omega) hle]

/-- `deallocate` writes to the block it frees. -/
theorem confined_deallocate {len r : ℕ} (h : P.Intact (L₁ ++ ⟨len, some r⟩ :: L₂)) :
    Confined P (P.deallocate (some (total L₁ + A.ptrBytes))) L₁ ⟨len, some r⟩ L₂ := by
  simp only [FixedPool.deallocate, Nat.add_sub_cancel]
  refine ⟨rfl, ?_, fun hnext => ?_⟩
  · exact (ByteMemory.write_agreeOn (by omega)).trans (ByteMemory.write_agreeOn (by omega))
  · have hlarge := (h.whole hnext).2
    dsimp only at hlarge ⊢
    exact (ByteMemory.write_agreeOn (by omega)).trans (ByteMemory.write_agreeOn (by omega))

/-- `deallocate` marks a block free. -/
theorem deallocate {len r : ℕ} (h : P.Intact (L₁ ++ ⟨len, some r⟩ :: L₂)) :
    (P.deallocate (some (total L₁ + A.ptrBytes))).Intact
      (L₁ ++ [⟨len, none⟩] ++ L₂) ∧
      (P.deallocate (some (total L₁ + A.ptrBytes))).poolSize = P.poolSize ∧
      (P.deallocate (some (total L₁ + A.ptrBytes))).allocatedSpace =
        wsub A.bits P.allocatedSpace len := by
  have hwell := h.block_wellSized
  have hin := h.block_le
  have hpool := h.poolSize_lt
  have hconfined := h.confined_deallocate
  have hused := sizeAt_of_used h.block_header
  simp only [FixedPool.deallocate, Nat.add_sub_cancel, hused, and_true] at hconfined ⊢
  dsimp only at hin
  refine h.replace hconfined (by simp) ?_ ?_ ?_
  · intro b hb
    obtain rfl := List.mem_singleton.mp hb
    exact ⟨hwell.large, fun s hs => by simp at hs⟩
  · intro x hx
    obtain rfl := List.mem_singleton.mp hx
    exact h.block_aligned
  · intro x hx
    obtain rfl := List.mem_singleton.mp hx
    refine ⟨read_word (Nat.two_pow_pos _), ?_⟩
    dsimp only
    rw [ByteMemory.read_write_of_disjoint (by omega)]
    exact read_word (by omega)

/-- The memory after `reallocate` has cut a block in two: the order of its writes does
not matter. -/
theorem memory_shrink {len r size : ℕ} (h : P.Intact (L₁ ++ ⟨len, some r⟩ :: L₂))
    (hlarge : 2 * A.ptrBytes ≤ size) (hle : size ≤ len) :
    (P.shrink (total L₁) size).memory =
      ((P.memory.write (total L₁ + size) A.ptrBytes 0).write
        (total L₁ + size + A.ptrBytes) A.ptrBytes (len - size)).write
        (total L₁) A.ptrBytes size := by
  have hin := h.block_le
  have hpool := h.poolSize_lt
  dsimp only at hin
  simp only [FixedPool.shrink, sizeAt_of_used h.block_header]
  rw [wsub_of_le (by omega) hle]
  funext x
  simp only [ByteMemory.write]
  split_ifs <;> first | rfl | omega

/-- `reallocate` cuts a block in two. -/
theorem shrink {len r size n : ℕ} (h : P.Intact (L₁ ++ ⟨len, some r⟩ :: L₂))
    (haligned : A.ptrBytes ∣ size) (hlarge : 2 * A.ptrBytes ≤ size)
    (hfits : n + A.ptrBytes ≤ size) (hrest : size + A.ptrBytes < len) :
    (P.shrink (total L₁) size).Intact
      (L₁ ++ [⟨size, some n⟩, ⟨len - size, none⟩] ++ L₂) :=
  h.cut haligned hlarge hfits hrest rfl (h.memory_shrink hlarge (by omega))

/-- A copy to the payload of a block stays inside the block. -/
theorem confined_copy {len r : ℕ} (h : P.Intact (L₁ ++ ⟨len, some r⟩ :: L₂)) (q : ℕ) :
    Confined P { P with
      memory := P.memory.move (total L₁ + A.ptrBytes) q (len - A.ptrBytes) }
      L₁ ⟨len, some r⟩ L₂ := by
  have hlarge := h.block_wellSized.large
  dsimp only at hlarge
  exact ⟨rfl, ByteMemory.move_agreeOn (by omega),
    fun _ => ByteMemory.move_agreeOn (by dsimp only; omega)⟩

theorem copy {len r : ℕ} (h : P.Intact (L₁ ++ ⟨len, some r⟩ :: L₂)) (q : ℕ) :
    ({ P with memory := P.memory.move (total L₁ + A.ptrBytes) q (len - A.ptrBytes) } :
      FixedPool A).Intact (L₁ ++ ⟨len, some r⟩ :: L₂) :=
  h.overwrite (h.confined_copy q) (ByteMemory.move_agreeOn (by omega))

/-- A request that still fits is recorded for a block that stays as it is. -/
theorem retag {len r n : ℕ} (h : P.Intact (L₁ ++ ⟨len, some r⟩ :: L₂))
    (hfits : n + A.ptrBytes ≤ len) : P.Intact (L₁ ++ [⟨len, some n⟩] ++ L₂) := by
  have hwell := h.block_wellSized
  refine h.replace ⟨rfl, ByteMemory.AgreeOn.refl _ _ _,
    fun _ => ByteMemory.AgreeOn.refl _ _ _⟩ (by simp) ?_ ?_ ?_
  · intro b hb
    obtain rfl := List.mem_singleton.mp hb
    refine ⟨hwell.large, fun s hs => ?_⟩
    obtain rfl : n = s := by simpa using hs
    exact hfits
  · intro x hx
    obtain rfl := List.mem_singleton.mp hx
    exact h.block_aligned
  · intro x hx
    obtain rfl := List.mem_singleton.mp hx
    exact h.block_header

end Intact

/-! ### What an operation does to the payloads and to the counter -/

/-- The counter is the number of bytes of the allocated blocks. -/
def Counted (P : FixedPool A) (L : List Block) : Prop := P.allocatedSpace = usedSpace L

@[simp] theorem usedSpace_nil : usedSpace [] = 0 := rfl

@[simp] theorem usedSpace_cons_free (len : ℕ) (L : List Block) :
    usedSpace (⟨len, none⟩ :: L) = usedSpace L := rfl

@[simp] theorem usedSpace_cons_used (len r : ℕ) (L : List Block) :
    usedSpace (⟨len, some r⟩ :: L) = len + usedSpace L := by
  simp [usedSpace]

@[simp] theorem usedSpace_append (L M : List Block) :
    usedSpace (L ++ M) = usedSpace L + usedSpace M := by
  simp [usedSpace]

theorem usedSpace_le_total (L : List Block) : usedSpace L ≤ total L := by
  induction L with
  | nil => simp
  | cons e L ih =>
      obtain ⟨len, tag⟩ := e
      cases tag with
      | none => rw [usedSpace_cons_free, total_cons]; omega
      | some r => rw [usedSpace_cons_used, total_cons]; dsimp only; omega

theorem total_taken {len size : ℕ} (h : size ≤ len) (r : ℕ) :
    total (taken A len size r) = len := by
  rw [taken]
  split
  · simp
  · simp only [total_cons, total_nil]
    omega

theorem payloads_taken (o len size r : ℕ) :
    payloads A o (taken A len size r) = [(o + A.ptrBytes, r)] := by
  rw [taken]
  split <;> rfl

/-- The payloads after one block was replaced by blocks of the same length. -/
theorem payloads_replace {L₁ L₂ M : List Block} {len : ℕ} (hM : total M = len) :
    payloads A 0 (L₁ ++ M ++ L₂) = payloads A 0 L₁ ++ payloads A (total L₁) M ++
      payloads A (total L₁ + len) L₂ := by
  rw [List.append_assoc, payloads_append, payloads_append, Nat.zero_add, hM,
    List.append_assoc]

theorem payloads_split (L₁ L₂ : List Block) (e : Block) :
    payloads A 0 (L₁ ++ e :: L₂) = payloads A 0 L₁ ++ payloads A (total L₁) [e] ++
      payloads A (total L₁ + e.len) L₂ := by
  rw [List.append_cons]
  exact payloads_replace (by simp)

/-- An allocated block is replaced: its payload goes, those of the new blocks
come. -/
theorem payloads_replace_used {L₁ L₂ M : List Block} {len r : ℕ} (hM : total M = len) :
    (payloads A 0 (L₁ ++ M ++ L₂)).Perm (payloads A (total L₁) M ++
      (payloads A 0 (L₁ ++ ⟨len, some r⟩ :: L₂)).erase (total L₁ + A.ptrBytes, r)) := by
  rw [payloads_replace hM, payloads_split]
  have hmiddle : (payloads A 0 L₁ ++ (total L₁ + A.ptrBytes, r) ::
      payloads A (total L₁ + len) L₂).Perm ((total L₁ + A.ptrBytes, r) ::
      (payloads A 0 L₁ ++ payloads A (total L₁ + len) L₂)) := List.perm_middle
  have herase := hmiddle.erase (total L₁ + A.ptrBytes, r)
  rw [List.erase_cons_head] at herase
  calc payloads A 0 L₁ ++ payloads A (total L₁) M ++ payloads A (total L₁ + len) L₂
      = payloads A 0 L₁ ++ (payloads A (total L₁) M ++
          payloads A (total L₁ + len) L₂) := List.append_assoc _ _ _
    List.Perm _ (payloads A (total L₁) M ++
          (payloads A 0 L₁ ++ payloads A (total L₁ + len) L₂)) := by
        rw [← List.append_assoc, ← List.append_assoc]
        exact List.perm_append_comm.append_right _
    List.Perm _ _ := by
        refine List.Perm.append_left _ ?_
        simpa using herase.symm

namespace Intact

variable {P : FixedPool A} {L : List Block}

/-- `allocate` when the scan finds nothing. -/
theorem allocate_of_none {n : ℕ} (hpos : 0 < n)
    (hscan : P.scan (realAllocation A n) (P.poolSize + 1) 0 = some none) :
    P.allocate n = some (none, P) := by
  rw [allocate, if_neg hpos.ne']
  dsimp only
  rw [hscan, Option.map_some]

/-- `allocate` when the scan finds a block. -/
theorem allocate_of_some {n i : ℕ} (hpos : 0 < n)
    (hscan : P.scan (realAllocation A n) (P.poolSize + 1) 0 = some (some i)) :
    P.allocate n = some (some (i + A.ptrBytes), P.take i (realAllocation A n)) := by
  rw [allocate, if_neg hpos.ne']
  dsimp only
  rw [hscan, Option.map_some]

/-- No room for more than the block has. -/
theorem reallocate_of_none {p n : ℕ} (hlt : P.sizeAt (p - A.ptrBytes) < reallocSize A n)
    (hnull : P.allocate n = some (none, P)) : P.reallocate (some p) n = some (none, P) := by
  rw [reallocate]
  dsimp only
  rw [if_neg (not_le.mpr hlt), hnull]
  rfl

/-- `allocate` returns null, or takes the block that the scan found. -/
theorem allocate_eq (h : P.Intact L) (n : ℕ) :
    P.allocate n = some (none, P) ∧
      (n = 0 ∨ P.scan (realAllocation A n) (P.poolSize + 1) 0 = some none) ∨
    ∃ L₁ len L₂, L = L₁ ++ ⟨len, none⟩ :: L₂ ∧ 0 < n ∧ realAllocation A n ≤ len ∧
      P.scan (realAllocation A n) (P.poolSize + 1) 0 = some (some (total L₁)) ∧
      P.allocate n = some (some (total L₁ + A.ptrBytes),
        P.take (total L₁) (realAllocation A n)) := by
  by_cases hzero : n = 0
  · exact Or.inl ⟨by rw [allocate, if_pos hzero], Or.inl hzero⟩
  have hpos := Nat.pos_of_ne_zero hzero
  rcases h.scan_cases (realAllocation A n) with
    ⟨hnone, -⟩ | ⟨L₁, len, L₂, hL, hle, hsome, -⟩
  · exact Or.inl ⟨allocate_of_none hpos hnone, Or.inr hnone⟩
  · exact Or.inr ⟨L₁, len, L₂, hL, hpos, hle, hsome, allocate_of_some hpos hsome⟩

/-- `allocate` returns: null, leaving the pool as it was, or a payload of a new
block, keeping every allocated block. -/
theorem allocate_cases (h : P.Intact L) {n : ℕ}
    (hn : n + 3 * A.ptrBytes ≤ 2 ^ A.bits) :
    P.allocate n = some (none, P) ∨
      ∃ q P' L', P.allocate n = some (some q, P') ∧ P'.Intact L' ∧
        P'.poolSize = P.poolSize ∧
        (payloads A 0 L').Perm ((q, n) :: payloads A 0 L) ∧
        (∀ x ∈ placed 0 L, x.2.tag ≠ none → x ∈ placed 0 L') ∧
        (P.Counted L → P'.Counted L') := by
  rcases h.allocate_eq n with ⟨hnull, -⟩ | ⟨L₁, len, L₂, rfl, hpos, hle, -, hcall⟩
  · exact Or.inl hnull
  · obtain ⟨haligned, hlarge, hfits, hlt⟩ := realAllocation_spec hpos hn
    obtain ⟨hintact, hsize, hcount⟩ := h.take haligned hlarge hfits hlt hle
    have htotal := total_taken (A := A) hle n
    refine Or.inr ⟨_, _, _, hcall, hintact, hsize, ?_, ?_, ?_⟩
    · rw [payloads_replace htotal, payloads_split, payloads_taken]
      simp
    · intro x hx htag
      refine mem_placed_replace htotal hx ?_
      rintro rfl
      exact htag rfl
    · intro hcounted
      have hbound := usedSpace_le_total (L₁ ++ taken A len (realAllocation A n) n ++ L₂)
      rw [hintact.total_eq, hsize, usedSpace_append, usedSpace_append] at hbound
      have hpool := h.poolSize_lt
      have hbefore : P.allocatedSpace = usedSpace L₁ + usedSpace L₂ := by
        rw [hcounted, usedSpace_append, usedSpace_cons_free]
      rw [Counted, hcount, hbefore, wrap_of_lt (by omega), usedSpace_append,
        usedSpace_append]
      omega

/-- `deallocate` drops one payload. -/
theorem deallocate_spec (h : P.Intact L) {p r : ℕ} (hlive : (p, r) ∈ payloads A 0 L) :
    ∃ L', (P.deallocate (some p)).Intact L' ∧
      (P.deallocate (some p)).poolSize = P.poolSize ∧
      (payloads A 0 L').Perm ((payloads A 0 L).erase (p, r)) ∧
      (P.Counted L → (P.deallocate (some p)).Counted L') := by
  obtain ⟨L₁, len, L₂, rfl, rfl⟩ := mem_payloads hlive
  rw [Nat.zero_add]
  obtain ⟨hintact, hsize, hcount⟩ := h.deallocate
  refine ⟨_, hintact, hsize, ?_, ?_⟩
  · exact payloads_replace_used (by simp)
  · intro hcounted
    have hbound := usedSpace_le_total (L₁ ++ (⟨len, some r⟩ :: L₂ : List Block))
    rw [h.total_eq, usedSpace_append, usedSpace_cons_used] at hbound
    have hpool := h.poolSize_lt
    rw [Counted, usedSpace_append, usedSpace_cons_used] at hcounted
    rw [Counted, hcount, wsub_of_le (by omega) (by omega), usedSpace_append,
      usedSpace_append, usedSpace_cons_free, usedSpace_nil]
    omega

/-- `reallocate` in place leaves the block or cuts it in two. -/
theorem reallocate_eq_of_le {len r n : ℕ} {L₁ L₂ : List Block}
    (h : P.Intact (L₁ ++ ⟨len, some r⟩ :: L₂)) (hn : n + 3 * A.ptrBytes < 2 ^ A.bits)
    (hle : reallocSize A n ≤ len) :
    P.reallocate (some (total L₁ + A.ptrBytes)) n = some (some (total L₁ + A.ptrBytes), P) ∨
      reallocSize A n + A.ptrBytes < len ∧
      P.reallocate (some (total L₁ + A.ptrBytes)) n =
        some (some (total L₁ + A.ptrBytes), P.shrink (total L₁) (reallocSize A n)) := by
  have hused := sizeAt_of_used h.block_header
  obtain ⟨-, -, -, hupper⟩ := reallocSize_spec hn
  have hnowrap : wrap A.bits (reallocSize A n + A.ptrBytes) = reallocSize A n + A.ptrBytes :=
    wrap_of_lt (by omega)
  simp only [reallocate, Nat.add_sub_cancel, hused, if_pos hle, hnowrap]
  split
  · exact Or.inl rfl
  · exact Or.inr ⟨by omega, rfl⟩

/-- `reallocate` to more than the block has: all that is behind its header is copied, and
the block is freed. -/
theorem reallocate_eq_of_some {len r n q : ℕ} {P' : FixedPool A} {L₁ L₂ : List Block}
    (h : P.Intact (L₁ ++ ⟨len, some r⟩ :: L₂)) (hlt : len < reallocSize A n)
    (hcall : P.allocate n = some (some q, P')) :
    P.reallocate (some (total L₁ + A.ptrBytes)) n =
      some (some q, ({ P' with
        memory := P'.memory.move (total L₁ + A.ptrBytes) q (len - A.ptrBytes) } :
        FixedPool A).deallocate (some (total L₁ + A.ptrBytes))) := by
  have hused := sizeAt_of_used h.block_header
  have hbytes : wsub A.bits len A.ptrBytes = len - A.ptrBytes := by
    have hbound := h.block_le
    have hpool := h.poolSize_lt
    have hlarge := h.block_wellSized.large
    dsimp only at hbound hlarge
    exact wsub_of_le (by omega) (by omega)
  rw [reallocate]
  dsimp only
  rw [Nat.add_sub_cancel, hused, if_neg (by omega), hcall, hbytes]
  rfl

/-- `reallocate` in place: the pointer stays, and the counter stays right unless
the block was cut in two. -/
theorem reallocate_in_place (h : P.Intact L) {p r n : ℕ}
    (hlive : (p, r) ∈ payloads A 0 L) (hn : n + 3 * A.ptrBytes < 2 ^ A.bits)
    (hle : reallocSize A n ≤ P.sizeAt (p - A.ptrBytes)) :
    ∃ P' L', P.reallocate (some p) n = some (some p, P') ∧ P'.Intact L' ∧
      P'.poolSize = P.poolSize ∧
      (payloads A 0 L').Perm ((p, n) :: (payloads A 0 L).erase (p, r)) ∧
      (P.Counted L → P.sizeAt (p - A.ptrBytes) ≤ reallocSize A n + A.ptrBytes →
        P'.Counted L') := by
  obtain ⟨L₁, len, L₂, rfl, rfl⟩ := mem_payloads hlive
  rw [Nat.zero_add] at hlive hle ⊢
  have hused := sizeAt_of_used h.block_header
  obtain ⟨haligned, hlarge, hfits, -⟩ := reallocSize_spec hn
  rw [Nat.add_sub_cancel, hused] at hle ⊢
  rcases h.reallocate_eq_of_le hn hle with hcall | ⟨hlt, hcall⟩
  · refine ⟨P, _, hcall, h.retag (by omega), rfl, payloads_replace_used (by simp), ?_⟩
    intro hcounted _
    simpa [Counted] using hcounted
  · refine ⟨_, _, hcall, h.shrink haligned hlarge (by omega) hlt, rfl,
      payloads_replace_used ?_, ?_⟩
    · simp only [total_cons, total_nil]
      omega
    · intro _ hnot
      omega

/-- `reallocate` by moving: as `allocate`, and when that finds a block the old
payload is overwritten and freed. -/
theorem reallocate_by_move (h : P.Intact L) {p r n : ℕ}
    (hlive : (p, r) ∈ payloads A 0 L) (hn : n + 3 * A.ptrBytes ≤ 2 ^ A.bits)
    (hlt : P.sizeAt (p - A.ptrBytes) < reallocSize A n) :
    P.reallocate (some p) n = some (none, P) ∨
      ∃ q P' L', P.reallocate (some p) n = some (some q, P') ∧ P'.Intact L' ∧
        P'.poolSize = P.poolSize ∧
        (payloads A 0 L').Perm ((q, n) :: (payloads A 0 L).erase (p, r)) ∧
        (P.Counted L → P'.Counted L') := by
  obtain ⟨L₁, len, L₂, rfl, rfl⟩ := mem_payloads hlive
  rw [Nat.zero_add] at hlive hlt ⊢
  rcases h.allocate_cases hn with
    hnull | ⟨q, P₁, L', hcall, hintact, hsize, hpay, hkept, hcount⟩
  · exact Or.inl (reallocate_of_none hlt hnull)
  · rw [Nat.add_sub_cancel, sizeAt_of_used h.block_header] at hlt
    -- the old block is still there after the allocation
    obtain ⟨N₁, N₂, rfl, hpos⟩ := mem_placed_split (hkept _ h.block_mem (by simp))
    dsimp only at hpos
    rw [Nat.zero_add] at hpos
    -- the copy stays inside the old payload, and then that block is freed
    have hcopied := hintact.copy q
    rw [← hpos] at hcopied
    have hmem : (total L₁ + A.ptrBytes, r) ∈
        payloads A 0 (N₁ ++ ⟨len, some r⟩ :: N₂) :=
      hpay.mem_iff.mpr (List.mem_cons_of_mem _ hlive)
    obtain ⟨L'', hfreed, hsize', hpay', hcount'⟩ := hcopied.deallocate_spec hmem
    refine Or.inr ⟨q, _, L'', h.reallocate_eq_of_some hlt hcall, hfreed, hsize'.trans hsize,
      hpay'.trans ?_, fun hcounted => hcount' (hcount hcounted)⟩
    have hswap := hpay.trans (((List.perm_cons_erase hlive).cons (q, n)).trans
      (List.Perm.swap _ _ _))
    simpa using hswap.erase (total L₁ + A.ptrBytes, r)

/-- `reallocate` returns: null, leaving the pool as it was, or a payload of the
requested size in place of the old one. -/
theorem reallocate_cases (h : P.Intact L) {p r n : ℕ}
    (hlive : (p, r) ∈ payloads A 0 L) (hn : n + 3 * A.ptrBytes < 2 ^ A.bits) :
    P.reallocate (some p) n = some (none, P) ∨
      ∃ q P' L', P.reallocate (some p) n = some (some q, P') ∧ P'.Intact L' ∧
        P'.poolSize = P.poolSize ∧
        (payloads A 0 L').Perm ((q, n) :: (payloads A 0 L).erase (p, r)) ∧
        (P.Counted L → P.sizeAt (p - A.ptrBytes) ≤ reallocSize A n + A.ptrBytes →
          P'.Counted L') := by
  by_cases hle : reallocSize A n ≤ P.sizeAt (p - A.ptrBytes)
  · obtain ⟨P', L', hspec⟩ := h.reallocate_in_place hlive hn hle
    exact Or.inr ⟨p, P', L', hspec⟩
  · rcases h.reallocate_by_move hlive hn.le (by omega) with
      hnull | ⟨q, P', L', hcall, hintact, hsize, hpay, hcount⟩
    · exact Or.inl hnull
    · exact Or.inr ⟨q, P', L', hcall, hintact, hsize, hpay, fun hcounted _ => hcount hcounted⟩

/-- A new pool is one free block. -/
theorem of_construct (m : ByteMemory) {size : ℕ} (hlarge : A.ptrBytes < size)
    (hlt : size < 2 ^ A.bits) : (construct m size : FixedPool A).Intact [⟨size, none⟩] := by
  refine ⟨by simp [construct], ?_, ?_, ?_, hlt⟩
  · intro e he
    obtain rfl := List.mem_singleton.mp he
    exact ⟨hlarge, fun s hs => by simp at hs⟩
  · intro x hx
    obtain rfl := List.mem_singleton.mp hx
    exact dvd_zero _
  · intro x hx
    obtain rfl := List.mem_singleton.mp hx
    constructor
    · dsimp only [construct]
      rw [ByteMemory.read_write_of_disjoint (by omega)]
      exact read_word (Nat.two_pow_pos _)
    · dsimp only [construct]
      rw [Nat.zero_add]
      exact read_word hlt

end Intact

end FixedPool

end Tklb
