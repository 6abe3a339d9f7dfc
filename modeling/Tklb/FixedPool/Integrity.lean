import Tklb.FixedPool.Layout

/-!
# The block chain stays intact

A client calls `allocate`, `deallocate` and `reallocate` in any order and stores
bytes through its live pointers.  `Tiled s L` relates a session to a tiling: the
pool describes the tiling, and the live pointers are its payloads.  Every step
leads from a tiled session to a tiled session (`Tiled.step`), so a walk along
the headers always ends at the end of the pool, and what a walk meets keeps the
payloads apart (`WellFormed`).

### What is load-bearing

* `Tiled` is the invariant of a session: there is a tiling that the bytes describe and whose
  payloads are the live pointers.  It says nothing about lengths, so it holds in any pool.
* `Tiled.step` is the one induction step of all results about the pool: every call, and every
  store of a client, leads from a tiled session to a tiled one, with a tiling that differs in
  one block.  The counter is part of it, as far as the call keeps it right.
* `WellFormed` is what follows for a walk along the headers, and is what a client can rely on:
  payloads do not overlap, lie inside the pool, and are as long as was asked for.

`wellFormed_of_run` bounds the requests by the length of the pool, which the class does not
check; `FixedPool.Overflow` is about larger ones, and `FixedPool.Slivers` about pools that are
not whole words.
-/

namespace Tklb

open Foundation FixedPool

namespace PoolSession

variable {A : Target}

/-- The pool describes the tiling `L`, and the live pointers are its payloads.  A tiling says of
each piece whether it is free, or allocated and for how many bytes. -/
structure Tiled (s : PoolSession A) (L : List Block) : Prop where
  intact : s.pool.Intact L
  live : s.live.Perm (payloads A 0 L)

/-- No computation with the requested size leaves `Size`.  Three words are enough for the header and
for rounding up twice. -/
def NonWrapping (_ : PoolSession A) : PoolCall → Prop
  | .allocate size => size + 3 * A.ptrBytes ≤ 2 ^ A.bits
  | .reallocate _ size => size + 3 * A.ptrBytes < 2 ^ A.bits
  | _ => True

/-- `reallocate` cuts the block in two and keeps the pointer.  The rest becomes a free block, of
which the counter of the pool is not told. -/
def Splits (s : PoolSession A) : PoolCall → Prop
  | .reallocate ptr size =>
      reallocSize A size + A.ptrBytes < s.pool.sizeAt (ptr - A.ptrBytes)
  | _ => False

/-- **One step.**  A tiled session stays tiled, and the counter stays right
unless `reallocate` cuts a block in two. -/
theorem Tiled.step {s t : PoolSession A} {L : List Block} {c : PoolCall}
    (h : s.Tiled L) (hc : s.NonWrapping c) (hstep : Step s c t) :
    ∃ L', t.Tiled L' ∧ t.pool.poolSize = s.pool.poolSize ∧
      (s.pool.Counted L → ¬ s.Splits c → t.pool.Counted L') := by
  cases hstep with
  | @allocate size p P hcall =>
      rcases h.intact.allocate_cases hc with
        hnull | ⟨q, P', L', hnew, hintact, hsize, hpay, -, hcount⟩
      · rw [hnull] at hcall
        simp at hcall
      · rw [hnew, Option.some.injEq, Prod.mk.injEq, Option.some.injEq] at hcall
        obtain ⟨rfl, rfl⟩ := hcall
        exact ⟨L', ⟨hintact, (h.live.cons _).trans hpay.symm⟩, hsize,
          fun hcounted _ => hcount hcounted⟩
  | @allocate_null size P hcall =>
      rcases h.intact.allocate_cases hc with
        hnull | ⟨q, P', L', hnew, -⟩
      · rw [hnull, Option.some.injEq, Prod.mk.injEq] at hcall
        obtain ⟨-, rfl⟩ := hcall
        exact ⟨L, h, rfl, fun hcounted _ => hcounted⟩
      · rw [hnew] at hcall
        simp at hcall
  | @deallocate p r hlive =>
      obtain ⟨L', hintact, hsize, hpay, hcount⟩ :=
        h.intact.deallocate_spec (h.live.mem_iff.mp hlive)
      exact ⟨L', ⟨hintact, (h.live.erase _).trans hpay.symm⟩, hsize,
        fun hcounted _ => hcount hcounted⟩
  | @reallocate p r size q P hlive hcall =>
      rcases h.intact.reallocate_cases (h.live.mem_iff.mp hlive) hc with
        hnull | ⟨q', P', L', hnew, hintact, hsize, hpay, hcount⟩
      · rw [hnull] at hcall
        simp at hcall
      · rw [hnew, Option.some.injEq, Prod.mk.injEq, Option.some.injEq] at hcall
        obtain ⟨rfl, rfl⟩ := hcall
        exact ⟨L', ⟨hintact, ((h.live.erase _).cons _).trans hpay.symm⟩, hsize,
          fun hcounted hkept => hcount hcounted (not_lt.mp hkept)⟩
  | @reallocate_null p r size P hlive hcall =>
      rcases h.intact.reallocate_cases (h.live.mem_iff.mp hlive) hc with
        hnull | ⟨q, P', L', hnew, -⟩
      · rw [hnull, Option.some.injEq, Prod.mk.injEq] at hcall
        obtain ⟨-, rfl⟩ := hcall
        exact ⟨L, h, rfl, fun hcounted _ => hcounted⟩
      · rw [hnew] at hcall
        simp at hcall
  | @store p r offset byte hlive hin =>
      -- the byte lies behind the header of its own block and inside the block
      obtain ⟨L₁, len, L₂, rfl, rfl⟩ := mem_payloads (h.live.mem_iff.mp hlive)
      have hfits := h.intact.block_wellSized.fits r rfl
      dsimp only at hfits
      exact ⟨_, ⟨h.intact.store (by omega) (by omega) byte, h.live⟩, rfl,
        fun hcounted _ => hcounted⟩

/-- A session stays tiled along a run. -/
theorem Tiled.run {s t : PoolSession A} {L : List Block} {calls : List PoolCall}
    (h : s.Tiled L) (hrun : Run (Guarded Step NonWrapping) s calls t) :
    ∃ L', t.Tiled L' ∧ t.pool.poolSize = s.pool.poolSize := by
  refine hrun.invariant (I := fun t => ∃ L', t.Tiled L' ∧
    t.pool.poolSize = s.pool.poolSize) ?_ ⟨L, h, rfl⟩
  rintro t c t' ⟨L', htiled, hsize⟩ ⟨hc, hstep⟩
  obtain ⟨L'', htiled', hsize', -⟩ := htiled.step hc hstep
  exact ⟨L'', htiled', hsize'.trans hsize⟩

theorem Tiled.of_start (m : ByteMemory) {size : ℕ} (hlarge : A.ptrBytes < size)
    (hlt : size < 2 ^ A.bits) : (start m size : PoolSession A).Tiled [⟨size, none⟩] :=
  ⟨Intact.of_construct m hlarge hlt, List.Perm.nil⟩

/-! ### Pools too small for a header -/

theorem sizeAt_construct (m : ByteMemory) (size : ℕ) :
    (construct m size : FixedPool A).sizeAt 0 = 0 := by
  dsimp only [sizeAt, construct]
  rw [ByteMemory.read_write_of_disjoint (by omega)]
  exact read_word (Nat.two_pow_pos _)

theorem spaceAt_construct (m : ByteMemory) {size : ℕ} (hlt : size < 2 ^ A.bits) :
    (construct m size : FixedPool A).spaceAt 0 = size := by
  dsimp only [spaceAt, construct]
  rw [Nat.zero_add]
  exact read_word hlt

/-- In a pool smaller than a block nothing can be allocated. -/
theorem allocate_of_small {m : ByteMemory} {size n : ℕ} (hsmall : size < 2 * A.ptrBytes)
    (hn : n + 3 * A.ptrBytes ≤ 2 ^ A.bits) :
    (construct m size : FixedPool A).allocate n = some (none, construct m size) := by
  have hbig := A.four_mul_ptrBytes_le
  have hpool : (construct m size : FixedPool A).poolSize = size := rfl
  by_cases hzero : n = 0
  · rw [allocate, if_pos hzero]
  obtain ⟨-, hlarge, -⟩ := realAllocation_spec (A := A) (Nat.pos_of_ne_zero hzero) hn
  have hscan : (construct m size : FixedPool A).scan (realAllocation A n)
      (size + 1) 0 = some none := by
    rw [scan, hpool]
    by_cases hsize : size = 0
    · rw [if_neg (by omega)]
    · obtain ⟨fuel, hfuel⟩ := Nat.exists_eq_succ_of_ne_zero hsize
      rw [if_pos (by omega), if_pos (sizeAt_construct m size),
        spaceAt_construct m (by omega), if_neg (by omega), if_neg hsize, Nat.zero_add,
        wrap_of_lt (by omega), hfuel, scan, ← hfuel, hpool, if_neg (by omega)]
  rw [allocate, if_neg hzero, hpool]
  dsimp only
  rw [hscan]
  rfl

/-- So the session never changes. -/
theorem run_of_small {m : ByteMemory} {size : ℕ} {calls : List PoolCall}
    {s : PoolSession A} (hsmall : size < 2 * A.ptrBytes)
    (hrun : Run (Guarded Step NonWrapping) (start m size) calls s) : s = start m size := by
  refine hrun.invariant (I := fun s => s = start m size) ?_ rfl
  rintro s c t rfl ⟨hc, hstep⟩
  cases hstep with
  | allocate hcall =>
      rw [start, allocate_of_small hsmall hc] at hcall
      simp at hcall
  | allocate_null hcall =>
      rw [start, allocate_of_small hsmall hc, Option.some.injEq, Prod.mk.injEq] at hcall
      obtain ⟨-, rfl⟩ := hcall
      rfl
  | deallocate hlive => simp [start] at hlive
  | reallocate hlive hcall => simp [start] at hlive
  | reallocate_null hlive hcall => simp [start] at hlive
  | store hlive hin => simp [start] at hlive

/-- **A live pointer lies in an intact pool**, whatever the length of the pool. -/
theorem tiled_of_run {m : ByteMemory} {size : ℕ} {calls : List PoolCall} {s : PoolSession A}
    (hlt : size < 2 ^ A.bits) (hrun : Run (Guarded Step NonWrapping) (start m size) calls s)
    {x : ℕ × ℕ} (hx : x ∈ s.live) : ∃ L, s.Tiled L := by
  have hword := A.ptrBytes_pos
  by_cases hsmall : size < 2 * A.ptrBytes
  · rw [run_of_small hsmall hrun] at hx
    simp [start] at hx
  · obtain ⟨L, htiled, -⟩ := (Tiled.of_start m (by omega) hlt).run hrun
    exact ⟨L, htiled⟩

/-! ### What a tiling means for the client -/

/-- The end of the block of a live pointer. -/
def payloadEnd (s : PoolSession A) (ptr : ℕ) : ℕ :=
  ptr - A.ptrBytes + s.pool.sizeAt (ptr - A.ptrBytes)

/-- The end of the header words of a block. -/
def headerEnd (s : PoolSession A) (i : ℕ) : ℕ :=
  if s.pool.sizeAt i = 0 then i + 2 * A.ptrBytes else i + A.ptrBytes

/-- A walk along the headers of a pool at address `base` meets the blocks
`blocks` and ends at the end of the pool, and the blocks keep the payloads
apart. -/
structure WellFormed (base : ℕ) (s : PoolSession A) (blocks : List ℕ) : Prop where
  walk : Visits s.pool.nextBlock 0 blocks s.pool.poolSize
  steps : ∀ i ∈ blocks, i < s.pool.poolSize ∧ A.ptrBytes ∣ s.pool.stepAt i ∧
    2 * A.ptrBytes ≤ s.pool.stepAt i
  owned : ∀ x ∈ s.live, ∃ i ∈ blocks, x.1 = i + A.ptrBytes ∧ s.pool.sizeAt i ≠ 0
  long : ∀ x ∈ s.live, x.1 + x.2 ≤ s.payloadEnd x.1
  inside : ∀ x ∈ s.live, s.payloadEnd x.1 ≤ s.pool.poolSize
  aligned : ∀ x ∈ s.live, A.ptrBytes ∣ base + x.1
  disjoint : s.live.Pairwise fun x y =>
    s.payloadEnd x.1 ≤ y.1 ∨ s.payloadEnd y.1 ≤ x.1
  headers : ∀ x ∈ s.live, ∀ i ∈ blocks,
    s.headerEnd i ≤ x.1 ∨ s.payloadEnd x.1 ≤ i

/-- The walk along the headers of a tiling. -/
theorem visits_placed {P : FixedPool A} {L : List Block} : ∀ {o : ℕ},
    (∀ e ∈ L, WellSized A e) → (∀ x ∈ placed o L, Header A P.memory x) →
    o + total L < 2 ^ A.bits →
    Visits P.nextBlock o ((placed o L).map Prod.fst) (o + total L) := by
  induction L with
  | nil => simp
  | cons e L ih =>
      intro o hwell hheader hlt
      rw [total_cons] at hlt
      have hstep : P.nextBlock o = o + e.len := by
        rw [nextBlock, stepAt_of_header (hheader _ List.mem_cons_self)
          (hwell e List.mem_cons_self), wrap_of_lt (by omega)]
      rw [placed_cons, List.map_cons, visits_cons, hstep, total_cons, ← add_assoc]
      refine ⟨rfl, ih (fun b hb => hwell b (List.mem_cons_of_mem _ hb))
        (fun x hx => hheader x (List.mem_cons_of_mem _ hx)) (by omega)⟩

/-- It ends at the end of the pool. -/
theorem intact_walk {P : FixedPool A} {L : List Block} (h : P.Intact L) :
    Visits P.nextBlock 0 ((placed 0 L).map Prod.fst) P.poolSize := by
  have htotal : 0 + total L = P.poolSize := by rw [Nat.zero_add, h.total_eq]
  have hwalk := visits_placed h.wellSized h.header (htotal ▸ h.poolSize_lt)
  rwa [htotal] at hwalk

section Tiled

variable {s : PoolSession A} {L : List Block}

theorem Tiled.payloadEnd_eq (h : s.Tiled L) {i len r : ℕ}
    (hx : (i, (⟨len, some r⟩ : Block)) ∈ placed 0 L) :
    s.payloadEnd (i + A.ptrBytes) = i + len := by
  rw [payloadEnd, Nat.add_sub_cancel, sizeAt_of_used (h.intact.header _ hx)]

theorem Tiled.headerEnd_eq (h : s.Tiled L) {x : ℕ × Block} (hx : x ∈ placed 0 L) :
    s.headerEnd x.1 = x.1 + headerSize A x.2.tag := by
  have hword := A.ptrBytes_pos
  have hlarge := (h.intact.wellSized _ (mem_of_mem_placed hx)).large
  have hhead := h.intact.header x hx
  obtain ⟨i, len, tag⟩ := x
  dsimp only at hlarge
  cases tag with
  | none => rw [headerEnd, if_pos (sizeAt_of_free hhead).1]; rfl
  | some r =>
      have hused := sizeAt_of_used hhead
      rw [headerEnd, if_neg (by dsimp only; omega)]
      rfl

/-- The payloads of a tiling do not overlap. -/
theorem Tiled.disjoint (h : s.Tiled L) : s.live.Pairwise fun x y =>
    s.payloadEnd x.1 ≤ y.1 ∨ s.payloadEnd y.1 ≤ x.1 := by
  have hpay : (payloads A 0 L).Pairwise fun x y =>
      s.payloadEnd x.1 ≤ y.1 ∨ s.payloadEnd y.1 ≤ x.1 := by
    rw [payloads, List.pairwise_filterMap]
    refine (placed_pairwise 0 L).imp_of_mem ?_
    rintro ⟨i, len, tag⟩ ⟨j, len', tag'⟩ hi hj hle b hb b' hb'
    cases tag with
    | none => simp [payload] at hb
    | some r =>
        cases tag' with
        | none => simp [payload] at hb'
        | some r' =>
            obtain rfl : (i + A.ptrBytes, r) = b := by simpa [payload] using hb
            obtain rfl : (j + A.ptrBytes, r') = b' := by simpa [payload] using hb'
            left
            rw [h.payloadEnd_eq hi]
            dsimp only at hle ⊢
            omega
  exact (h.live.pairwise_iff fun hxy => hxy.symm).mpr hpay

/-- A live pointer stands behind the header of a block that carries its size. -/
theorem Tiled.exists_block (h : s.Tiled L) {x : ℕ × ℕ} (hx : x ∈ s.live) :
    ∃ i len, (i, (⟨len, some x.2⟩ : Block)) ∈ placed 0 L ∧ x.1 = i + A.ptrBytes :=
  mem_payloads_placed (h.live.mem_iff.mp hx)

/-- The blocks of a tiling lie inside the pool. -/
theorem Tiled.placed_le (h : s.Tiled L) {i : ℕ} {e : Block} (hx : (i, e) ∈ placed 0 L) :
    WellSized A e ∧ i + e.len ≤ s.pool.poolSize := by
  have hend := (mem_placed_bounds hx).2
  rw [Nat.zero_add, h.intact.total_eq] at hend
  exact ⟨h.intact.wellSized e (mem_of_mem_placed hx), hend⟩

/-- The walk along the headers ends at the end of the pool. -/
theorem Tiled.walk (h : s.Tiled L) :
    Visits s.pool.nextBlock 0 ((placed 0 L).map Prod.fst) s.pool.poolSize :=
  intact_walk h.intact

/-- A block on the walk is one of the tiling. -/
theorem exists_placed_of_mem {i : ℕ} (hi : i ∈ (placed 0 L).map Prod.fst) :
    ∃ e, (i, e) ∈ placed 0 L := by
  obtain ⟨x, hx, rfl⟩ := List.mem_map.mp hi
  exact ⟨x.2, hx⟩

theorem Tiled.steps (h : s.Tiled L) (hpool : A.ptrBytes ∣ s.pool.poolSize) {i : ℕ}
    (hi : i ∈ (placed 0 L).map Prod.fst) :
    i < s.pool.poolSize ∧ A.ptrBytes ∣ s.pool.stepAt i ∧
      2 * A.ptrBytes ≤ s.pool.stepAt i := by
  have hword := A.ptrBytes_pos
  obtain ⟨e, hx⟩ := exists_placed_of_mem hi
  obtain ⟨hwell, hin⟩ := h.placed_le hx
  obtain ⟨hdvd, hlarge⟩ := h.intact.whole_of_aligned hpool (mem_of_mem_placed hx)
  dsimp only at hdvd hlarge
  rw [stepAt_of_header (h.intact.header _ hx) hwell]
  exact ⟨by omega, hdvd, hlarge⟩

/-- No header word is part of a payload. -/
theorem Tiled.headers (h : s.Tiled L) (hpool : A.ptrBytes ∣ s.pool.poolSize) {x : ℕ × ℕ}
    (hx : x ∈ s.live) {i : ℕ}
    (hi : i ∈ (placed 0 L).map Prod.fst) :
    s.headerEnd i ≤ x.1 ∨ s.payloadEnd x.1 ≤ i := by
  obtain ⟨j, len, hmem, hptr⟩ := h.exists_block hx
  obtain ⟨e, hblk⟩ := exists_placed_of_mem hi
  have hsmall := headerSize_le (A := A) e.tag
  have hlarge := (h.intact.whole_of_aligned hpool (mem_of_mem_placed hblk)).2
  dsimp only at hlarge
  have hhead := h.headerEnd_eq hblk
  dsimp only at hhead
  rw [hptr, h.payloadEnd_eq hmem, hhead]
  -- the block of the header is that of the payload, or before it, or behind it
  rcases placed_disjoint hblk hmem with heq | hle | hle
  · obtain ⟨rfl, rfl⟩ := Prod.mk.inj heq
    exact Or.inl le_rfl
  · dsimp only at hle
    omega
  · dsimp only at hle
    omega

/-- **A tiled session is well formed.**  The tiling is the invariant of the steps, and what a client
wants to know follows from it: aligned payloads, apart from each other and from the headers. -/
theorem Tiled.wellFormed (h : s.Tiled L) (hpool : A.ptrBytes ∣ s.pool.poolSize) {base : ℕ}
    (hbase : A.ptrBytes ∣ base) : s.WellFormed base ((placed 0 L).map Prod.fst) := by
  have hword := A.ptrBytes_pos
  refine ⟨h.walk, fun i hi => h.steps hpool hi, ?_, ?_, ?_, ?_, h.disjoint,
    fun x hx i hi => h.headers hpool hx hi⟩
  · intro x hx
    obtain ⟨i, len, hmem, hptr⟩ := h.exists_block hx
    have hlarge := (h.placed_le hmem).1.large
    refine ⟨i, List.mem_map_of_mem hmem, hptr, ?_⟩
    rw [sizeAt_of_used (h.intact.header _ hmem)]
    dsimp only at hlarge
    omega
  · intro x hx
    obtain ⟨i, len, hmem, hptr⟩ := h.exists_block hx
    have hfits := (h.placed_le hmem).1.fits _ rfl
    rw [hptr, h.payloadEnd_eq hmem]
    dsimp only at hfits
    omega
  · intro x hx
    obtain ⟨i, len, hmem, hptr⟩ := h.exists_block hx
    rw [hptr, h.payloadEnd_eq hmem]
    exact (h.placed_le hmem).2
  · intro x hx
    obtain ⟨i, len, hmem, hptr⟩ := h.exists_block hx
    rw [hptr]
    exact Nat.dvd_add hbase (Nat.dvd_add (h.intact.aligned _ hmem) dvd_rfl)

end Tiled

/-! ### Every run -/

/-- No request is larger than `limit`. -/
def Within (limit : ℕ) (_ : PoolSession A) : PoolCall → Prop
  | .allocate size => size ≤ limit
  | .reallocate _ size => size ≤ limit
  | _ => True

theorem Within.nonWrapping {limit : ℕ} (hlt : limit + 3 * A.ptrBytes < 2 ^ A.bits)
    {s : PoolSession A} {c : PoolCall} (h : s.Within limit c) : s.NonWrapping c := by
  cases c with
  | allocate size => exact show size + 3 * A.ptrBytes ≤ _ by have : size ≤ limit := h; omega
  | reallocate ptr size =>
      exact show size + 3 * A.ptrBytes < _ by have : size ≤ limit := h; omega
  | deallocate ptr => trivial
  | store ptr offset byte => trivial

/-- **The block chain stays intact.**  In every state a client reaches by
requests no larger than the pool, a walk along the headers meets blocks of at
least two words each, ends at the end of the pool, and keeps the live payloads
apart from each other and from every header; and the calls return. -/
theorem wellFormed_of_run {base size : ℕ} {m : ByteMemory} {calls : List PoolCall}
    {s : PoolSession A} (haligned : A.ptrBytes ∣ size) (hlarge : 2 * A.ptrBytes ≤ size)
    (hbase : A.ptrBytes ∣ base) (hlt : size + 3 * A.ptrBytes < 2 ^ A.bits)
    (hrun : Run (Guarded Step (Within size)) (start m size) calls s) :
    (∃ blocks, s.WellFormed base blocks) ∧ s.pool.poolSize = size ∧
      (∀ n ≤ size, (s.pool.allocate n).isSome) ∧
      ∀ x ∈ s.live, ∀ n ≤ size, (s.pool.reallocate (some x.1) n).isSome := by
  have hrun' : Run (Guarded Step NonWrapping) (start m size) calls s :=
    hrun.mono fun _ _ _ h => ⟨h.1.nonWrapping hlt, h.2⟩
  obtain ⟨L, htiled, hsize⟩ :=
    (Tiled.of_start m (by have := A.ptrBytes_pos; omega) (by omega)).run hrun'
  refine ⟨⟨_, htiled.wellFormed (hsize ▸ haligned) hbase⟩, hsize, ?_, ?_⟩
  · intro n hn
    rcases htiled.intact.allocate_cases (n := n) (by omega) with
      hnull | ⟨q, P, L', hnew, -⟩
    · rw [hnull]
      rfl
    · rw [hnew]
      rfl
  · intro x hx n hn
    rcases htiled.intact.reallocate_cases (htiled.live.mem_iff.mp hx) (n := n) (by omega) with
      hnull | ⟨q, P, L', hnew, -⟩
    · rw [hnull]
      rfl
    · rw [hnew]
      rfl

/-- A pool of 64 bytes on a 64-bit target: a block is taken, written to, and cut
in two. -/
theorem wellFormed_of_run_shrunk :
    ∃ s : PoolSession ⟨3⟩, Run (Guarded Step (Within 64)) (start (fun _ => 0) 64)
      [.allocate 48, .store 8 47 255, .reallocate 8 8] s ∧
      (∃ blocks, s.WellFormed 4096 blocks) ∧ s.pool.poolSize = 64 ∧
      (∀ n ≤ 64, (s.pool.allocate n).isSome) ∧
      ∀ x ∈ s.live, ∀ n ≤ 64, (s.pool.reallocate (some x.1) n).isSome := by
  have hrun : ∃ s : PoolSession ⟨3⟩, Run (Guarded Step (Within 64))
      (start (fun _ => 0) 64) [.allocate 48, .store 8 47 255, .reallocate 8 8] s :=
    ⟨_, Run.cons ⟨(by decide : 48 ≤ 64), Step.allocate (p := 8) rfl⟩
      (Run.cons ⟨trivial, Step.store (r := 48) List.mem_cons_self (by decide)⟩
      (Run.cons ⟨(by decide : 8 ≤ 64),
        Step.reallocate (r := 48) (q := 8) List.mem_cons_self rfl⟩ (Run.nil _)))⟩
  obtain ⟨s, hcalls⟩ := hrun
  exact ⟨s, hcalls, wellFormed_of_run (by decide) (by decide) (by decide) (by decide) hcalls⟩

end PoolSession

end Tklb
