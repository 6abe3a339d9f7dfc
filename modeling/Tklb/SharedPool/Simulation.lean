import Tklb.SharedPool

/-!
# What a shared pool holds

The calls of the threads take effect one after the other: `allocate` when it counts the block that
it has marked, or when it finds nothing, `deallocate` when it marks the block free, `reallocate` in
place when it reads that the block is kept, or has written the last word of the rest.  `Simulates`
relates the shared pool to the pool `S` of a single thread that has made the calls so far, and to
the blocks `L` of `S`.

Between two of these steps the shared pool is `S` with the words that one thread has written of its
next call (`pending`, `midway`).  They are in the block that the call is about, so the threads
that are not at the headers see the blocks of their pointers as `S` has them
(`Simulates.avoids`, `Simulates.agreeOn`).

### What is load-bearing

* `Simulates` relates three things, because no two of them are enough: the bytes of the shared
  pool, the pool of the single thread, and the blocks that its bytes describe.
* `pending` is a list of words and not a state.  So what a thread has written of its call can be
  put in front of any change somebody else makes elsewhere, and the two commute.
* `Knows` is what a thread may rely on from what it has read.  It is kept by the steps of the
  others, for those who hold the lock because nobody else is at the headers, and for the others
  because it is about blocks of their own pointers.
-/

namespace Tklb

open Foundation FixedPool

/-! ### What a step of the lock does to the threads inside -/

namespace SpinLock

variable {ι : Type} [DecidableEq ι] {s t : SpinLock ι} {i j : ι} {a : LockStep}

/-- A step of one thread leaves the others where they are. -/
theorem thread_of_ne (h : Step s (i, a) t) (hne : j ≠ i) : t.thread j = s.thread j := by
  rcases step_cases h with ⟨-, -, phase, rfl, -⟩ | ⟨-, -, rfl⟩ | ⟨-, -, rfl⟩ <;>
    simp only [setThread, Function.update_of_ne hne]

theorem inside_iff_of_ne (h : Step s (i, a) t) (hne : j ≠ i) : t.Inside j ↔ s.Inside j := by
  rw [Inside, Inside, thread_of_ne h hne]

/-- Claiming and releasing apart, a thread holds the lock as often as before. -/
theorem held_of_step (h : Step s (i, a) t) (hstore : a ≠ .store) (hunlock : a ≠ .unlock) :
    (t.thread i).held = (s.thread i).held := by
  rcases step_cases h with ⟨-, -, phase, rfl, -⟩ | ⟨heq, -⟩ | ⟨heq, -⟩
  · rw [setThread_self]
  · exact absurd heq hstore
  · exact absurd heq hunlock

/-- Who claims is inside. -/
theorem thread_of_store (h : Step s (i, .store) t) :
    t.thread i = ⟨.resting, (s.thread i).held + 1⟩ := by
  rcases step_cases h with ⟨hne, -⟩ | ⟨-, -, rfl⟩ | ⟨heq, -⟩
  · exact absurd rfl hne
  · simp only [setThread, Function.update_self]
  · cases heq

theorem inside_of_store (h : Step s (i, .store) t) : t.Inside i := by
  rw [Inside, thread_of_store h]
  exact Nat.succ_pos _

/-- Only a claim can break the lock. -/
theorem Sound.step_of_ne (h : s.Sound) (hstep : Step s (i, a) t) (ha : a ≠ .store) : t.Sound :=
  h.step (fun hstore => absurd hstore ha) hstep

end SpinLock

/-! ### What a thread knows, and what it has written -/

namespace SharedPool

variable {A : Target} {L L' L₁ L₂ : List Block}

/-- `allocate` looks for a block.  The request is positive, and none of the numbers computed from it
is wrapped. -/
def Requested (A : Target) (n : ℕ) : Prop := 0 < n ∧ n + 3 * A.ptrBytes ≤ 2 ^ A.bits

/-- A block starts at offset `i`, or the pool ends there, and no free block in front of it has
room. -/
def Searched (L : List Block) (size i : ℕ) : Prop :=
  ∃ L₁ L₂, L = L₁ ++ L₂ ∧ i = total L₁ ∧ ∀ e ∈ L₁, e.tag = none → e.len < size

/-- A free block starts at offset `i`, and no free block in front of it has room. -/
def Found (L : List Block) (size i len : ℕ) : Prop :=
  ∃ L₁ L₂, L = L₁ ++ ⟨len, none⟩ :: L₂ ∧ i = total L₁ ∧ ∀ e ∈ L₁, e.tag = none → e.len < size

/-- The pointer is to an allocated block of the length. -/
def HasLength (A : Target) (L : List Block) (ptr len : ℕ) : Prop :=
  ∃ i r, (i, (⟨len, some r⟩ : Block)) ∈ placed 0 L ∧ ptr = i + A.ptrBytes

/-- What a thread knows of the blocks, from what it has read. -/
def Knows (A : Target) (L : List Block) (t : PoolThread) : Prop :=
  match t.phase with
  | .entering n => Requested A n
  | .scanning n i => Requested A n ∧ Searched L (realAllocation A n) i
  | .measuring n i => Requested A n ∧ ∃ len, Found L (realAllocation A n) i len
  | .splitting n i oldSize | .spacing n i oldSize =>
      Requested A n ∧ Found L (realAllocation A n) i oldSize ∧
        realAllocation A n + A.ptrBytes < oldSize
  | .marking n i oldSize | .counting n i oldSize =>
      Requested A n ∧ Found L (realAllocation A n) i oldSize ∧ realAllocation A n ≤ oldSize
  | .freeing _ | .releasing _ | .discounting _ | .unmarking _ => t.frame = none
  | .resizing _ n => t.frame = none ∧ n + 3 * A.ptrBytes < 2 ^ A.bits
  | .shrinking n | .cutting n | .resting n =>
      n + 3 * A.ptrBytes < 2 ^ A.bits ∧
        ∃ ptr oldSize, t.frame = some (ptr, oldSize) ∧ reallocSize A n + A.ptrBytes < oldSize
  | _ => True

/-- The block of a frame is in use. -/
theorem Knows.uses_of_frame {t : PoolThread} {ptr oldSize : ℕ} (h : Knows A L t)
    (hframe : t.frame = some (ptr, oldSize)) : t.uses = some ptr := by
  obtain ⟨phase, frame⟩ := t
  subst hframe
  cases phase with
  | freeing own | releasing own | discounting own | unmarking own => cases h
  | resizing own n => cases h.1
  | _ => rfl

/-- The words that a thread has written of what its call will write. -/
def pending (G : FixedPool A) (t : PoolThread) : List (ℕ × ℕ) :=
  match t.phase, t.frame with
  | .spacing n i _, _ => [(i + realAllocation A n, 0)]
  | .marking n i oldSize, _ => split n i oldSize
  | .counting n i oldSize, _ => split n i oldSize ++ [(i, chosen A n oldSize)]
  | .discounting ptr, _ | .unmarking ptr, _ =>
      [(ptr - A.ptrBytes + A.ptrBytes, G.sizeAt (ptr - A.ptrBytes))]
  | .cutting n, some (ptr, _) => [(ptr - A.ptrBytes, reallocSize A n)]
  | .resting n, some (ptr, _) =>
      [(ptr - A.ptrBytes, reallocSize A n), (ptr - A.ptrBytes + reallocSize A n, 0)]
  | _, _ => []
where
  /-- The header of the rest, when a block is split. -/
  split (n i oldSize : ℕ) : List (ℕ × ℕ) :=
    if oldSize ≤ wrap A.bits (realAllocation A n + A.ptrBytes) then []
    else [(i + realAllocation A n, 0),
      (i + realAllocation A n + A.ptrBytes, wsub A.bits oldSize (realAllocation A n))]

/-- The pool `G`, in the middle of a call that has not taken effect. -/
def midway (G : FixedPool A) (t : PoolThread) : FixedPool A where
  memory := G.memory.writeAll A.ptrBytes (pending G t)
  poolSize := G.poolSize
  allocatedSpace :=
    match t.phase with
    | .unmarking ptr => wsub A.bits G.allocatedSpace (G.sizeAt (ptr - A.ptrBytes))
    | _ => G.allocatedSpace

theorem pending_of_not_busy {t : PoolThread} (h : t.phase.Busy = false) (G : FixedPool A) :
    pending G t = [] := by
  obtain ⟨phase, frame⟩ := t
  cases phase <;> first | rfl | cases h

/-- A thread that is not at the headers has written nothing. -/
theorem midway_of_not_busy {t : PoolThread} (h : t.phase.Busy = false) (G : FixedPool A) :
    midway G t = G := by
  rw [midway, pending_of_not_busy h]
  obtain ⟨phase, frame⟩ := t
  cases phase <;> first | rfl | cases h

/-- What such a thread knows does not depend on the blocks. -/
theorem knows_of_not_busy {t : PoolThread} (h : t.phase.Busy = false) :
    Knows A L t ↔ Knows A L' t := by
  obtain ⟨phase, frame⟩ := t
  cases phase <;> first | exact Iff.rfl | cases h

/-! ### Where the words are -/

theorem HasLength.split {ptr len : ℕ} (h : HasLength A L ptr len) :
    ∃ L₁ r L₂, L = L₁ ++ ⟨len, some r⟩ :: L₂ ∧ ptr = total L₁ + A.ptrBytes := by
  obtain ⟨i, r, hx, rfl⟩ := h
  obtain ⟨L₁, L₂, rfl, hi⟩ := mem_placed_split hx
  dsimp only at hi
  rw [Nat.zero_add] at hi
  exact ⟨L₁, r, L₂, rfl, by rw [hi]⟩

theorem HasLength.sizeAt {G : FixedPool A} {ptr len : ℕ} (h : HasLength A L ptr len)
    (hG : G.Intact L) : G.sizeAt (ptr - A.ptrBytes) = len := by
  obtain ⟨i, r, hx, rfl⟩ := h
  rw [Nat.add_sub_cancel]
  exact sizeAt_of_used (hG.header _ hx)

theorem HasLength.bounds {G : FixedPool A} {ptr len : ℕ} (h : HasLength A L ptr len)
    (hG : G.Intact L) : A.ptrBytes ≤ ptr ∧ ptr - A.ptrBytes + len ≤ G.poolSize := by
  obtain ⟨i, r, hx, rfl⟩ := h
  have hend := (mem_placed_bounds hx).2
  rw [Nat.zero_add, hG.total_eq] at hend
  dsimp only at hend
  exact ⟨Nat.le_add_left _ _, by omega⟩

/-- The blocks of the other pointers stay when a block is replaced. -/
theorem HasLength.replace {e : Block} {M : List Block} {ptr len : ℕ}
    (h : HasLength A (L₁ ++ e :: L₂) ptr len) (hM : total M = e.len)
    (hne : e.tag = none ∨ ptr ≠ total L₁ + A.ptrBytes) :
    HasLength A (L₁ ++ M ++ L₂) ptr len := by
  obtain ⟨i, r, hx, rfl⟩ := h
  refine ⟨i, r, mem_placed_replace hM hx fun heq => ?_, rfl⟩
  obtain ⟨rfl, rfl⟩ := Prod.mk.inj heq
  rcases hne with hfree | hother
  · cases hfree
  · exact hother (by rw [Nat.zero_add])

/-- A word of a block does not reach into another one. -/
theorem apart_word {G : FixedPool A} {e : Block} (h : G.Intact (L₁ ++ e :: L₂)) {x : ℕ}
    (hdvd : A.ptrBytes ∣ x) (hlo : total L₁ ≤ x) (hhi : x < total L₁ + e.len) {i : ℕ} {b : Block}
    (hb : (i, b) ∈ placed 0 (L₁ ++ e :: L₂)) (hne : (i, b) ≠ (total L₁, e)) :
    x + A.ptrBytes ≤ i ∨ i + b.len ≤ x := by
  rcases placed_disjoint hb h.block_mem with heq | hle | hle
  · exact absurd heq hne
  · dsimp only at hle
    omega
  · dsimp only at hle
    exact Or.inl (Target.add_ptrBytes_le hdvd (h.aligned _ hb) (by omega))

/-- So the words of a block leave the block of another pointer alone. -/
theorem avoids_of_inside {G : FixedPool A} {e : Block} (h : G.Intact (L₁ ++ e :: L₂))
    {ws : List (ℕ × ℕ)}
    (hws : ∀ w ∈ ws, A.ptrBytes ∣ w.1 ∧ total L₁ ≤ w.1 ∧ w.1 < total L₁ + e.len) {ptr len : ℕ}
    (hptr : HasLength A (L₁ ++ e :: L₂) ptr len)
    (hne : e.tag = none ∨ ptr ≠ total L₁ + A.ptrBytes) :
    ByteMemory.Avoids A.ptrBytes ws (ptr - A.ptrBytes) (ptr - A.ptrBytes + len) := by
  obtain ⟨i, r, hx, rfl⟩ := hptr
  rw [Nat.add_sub_cancel]
  intro w hw
  obtain ⟨hdvd, hlo, hhi⟩ := hws w hw
  refine apart_word h hdvd hlo hhi hx fun heq => ?_
  obtain ⟨rfl, rfl⟩ := Prod.mk.inj heq
  rcases hne with hfree | hother
  · cases hfree
  · exact hother rfl

/-- The test for a rest does not wrap. -/
theorem Requested.no_wrap {n : ℕ} (h : Requested A n) :
    wrap A.bits (realAllocation A n + A.ptrBytes) = realAllocation A n + A.ptrBytes :=
  wrap_of_lt (realAllocation_spec h.1 h.2).2.2.2

theorem Requested.split_of_le {n i oldSize : ℕ} (h : Requested A n)
    (hle : oldSize ≤ realAllocation A n + A.ptrBytes) :
    pending.split (A := A) n i oldSize = [] := by
  rw [pending.split, h.no_wrap, if_pos hle]

theorem Requested.split_of_lt {n i oldSize : ℕ} (h : Requested A n)
    (hlt : realAllocation A n + A.ptrBytes < oldSize) :
    pending.split (A := A) n i oldSize = [(i + realAllocation A n, 0),
      (i + realAllocation A n + A.ptrBytes, wsub A.bits oldSize (realAllocation A n))] := by
  rw [pending.split, h.no_wrap, if_neg (not_le.mpr hlt)]

/-- The words of `allocate` are in the free block that it takes. -/
theorem split_inside {G : FixedPool A} {n oldSize : ℕ} (hn : Requested A n)
    (h : G.Intact (L₁ ++ ⟨oldSize, none⟩ :: L₂)) :
    ∀ w ∈ pending.split (A := A) n (total L₁) oldSize,
      A.ptrBytes ∣ w.1 ∧ total L₁ ≤ w.1 ∧ w.1 < total L₁ + oldSize := by
  obtain ⟨hdvd, -⟩ := realAllocation_spec hn.1 hn.2
  have haligned := h.block_aligned
  unfold pending.split
  rw [hn.no_wrap]
  split
  · exact fun w hw => absurd hw List.not_mem_nil
  · intro w hw
    rw [List.mem_pair] at hw
    rcases hw with rfl | rfl
    · exact ⟨Nat.dvd_add haligned hdvd, by dsimp only; omega, by dsimp only; omega⟩
    · exact ⟨Nat.dvd_add (Nat.dvd_add haligned hdvd) dvd_rfl, by dsimp only; omega,
        by dsimp only; omega⟩

/-- **A call writes to the block it is about**, and not to the blocks of other pointers. -/
theorem avoids_pending {G : FixedPool A} (hG : G.Intact L) {t : PoolThread} (ht : Knows A L t)
    (huses : ∀ ptr, t.uses = some ptr → ∃ len, HasLength A L ptr len)
    (hframe : ∀ ptr oldSize, t.frame = some (ptr, oldSize) → HasLength A L ptr oldSize)
    {ptr len : ℕ} (hptr : HasLength A L ptr len) (hne : t.uses ≠ some ptr) :
    ByteMemory.Avoids A.ptrBytes (pending G t) (ptr - A.ptrBytes) (ptr - A.ptrBytes + len) := by
  obtain ⟨phase, frame⟩ := t
  have hnone : ∀ lo hi, ByteMemory.Avoids A.ptrBytes [] lo hi := fun _ _ w hw =>
    absurd hw List.not_mem_nil
  cases phase with
  | spacing n i oldSize =>
      obtain ⟨hn, ⟨L₁, L₂, rfl, rfl, -⟩, hrest⟩ := ht
      refine avoids_of_inside hG (fun w hw => ?_) hptr (Or.inl rfl)
      obtain rfl := List.mem_singleton.mp hw
      exact ⟨Nat.dvd_add hG.block_aligned (realAllocation_spec hn.1 hn.2).1, by dsimp only; omega,
        by dsimp only; omega⟩
  | marking n i oldSize =>
      obtain ⟨hn, ⟨L₁, L₂, rfl, rfl, -⟩, -⟩ := ht
      exact avoids_of_inside hG (split_inside hn hG) hptr (Or.inl rfl)
  | counting n i oldSize =>
      obtain ⟨hn, ⟨L₁, L₂, rfl, rfl, -⟩, -⟩ := ht
      refine avoids_of_inside hG (fun w hw => ?_) hptr (Or.inl rfl)
      rcases List.mem_append.mp hw with hw | hw
      · exact split_inside hn hG w hw
      · obtain rfl := List.mem_singleton.mp hw
        have hlarge := hG.block_wellSized.large
        exact ⟨hG.block_aligned, le_rfl, by dsimp only at hlarge ⊢; omega⟩
  | discounting own | unmarking own =>
      obtain ⟨own_len, hown⟩ := huses own rfl
      obtain ⟨L₁, r, L₂, rfl, rfl⟩ := hown.split
      have hlarge := hG.block_wellSized.large
      refine avoids_of_inside hG (fun w hw => ?_) hptr (Or.inr fun heq => hne (by rw [heq]; rfl))
      obtain rfl := List.mem_singleton.mp hw
      rw [Nat.add_sub_cancel]
      exact ⟨Nat.dvd_add hG.block_aligned dvd_rfl, by dsimp only; omega,
        by dsimp only at hlarge ⊢; omega⟩
  | cutting n =>
      obtain ⟨hn, own, oldSize, rfl, hrest⟩ := ht
      obtain ⟨L₁, r, L₂, rfl, rfl⟩ := (hframe own oldSize rfl).split
      refine avoids_of_inside hG (fun w hw => ?_) hptr (Or.inr fun heq => hne (by rw [heq]; rfl))
      obtain rfl := List.mem_singleton.mp hw
      rw [Nat.add_sub_cancel]
      exact ⟨hG.block_aligned, le_rfl, by dsimp only; omega⟩
  | resting n =>
      obtain ⟨hn, own, oldSize, rfl, hrest⟩ := ht
      obtain ⟨L₁, r, L₂, rfl, rfl⟩ := (hframe own oldSize rfl).split
      refine avoids_of_inside hG (fun w hw => ?_) hptr (Or.inr fun heq => hne (by rw [heq]; rfl))
      rcases List.mem_pair.mp hw with rfl | rfl
      · rw [Nat.add_sub_cancel]
        exact ⟨hG.block_aligned, le_rfl, by dsimp only; omega⟩
      · rw [Nat.add_sub_cancel]
        exact ⟨Nat.dvd_add hG.block_aligned (reallocSize_spec hn).1, by dsimp only; omega,
          by dsimp only; omega⟩
  | _ => exact hnone _ _

/-- The header of an allocated block is not written by a store behind that of another one. -/
theorem HasLength.apart {G : FixedPool A} {own ownLen ptr len a : ℕ}
    (hown : HasLength A L own ownLen) (hlen : HasLength A L ptr len) (hG : G.Intact L)
    (hlo : ptr ≤ a) (hhi : a < ptr - A.ptrBytes + len) :
    a < own - A.ptrBytes ∨ own - A.ptrBytes + A.ptrBytes ≤ a := by
  obtain ⟨o, r, hx, rfl⟩ := hown
  obtain ⟨o', r', hx', rfl⟩ := hlen
  have hlarge := (hG.wellSized _ (mem_of_mem_placed hx)).large
  dsimp only at hlarge
  rw [Nat.add_sub_cancel] at hhi ⊢
  rcases placed_disjoint hx hx' with heq | hle | hle
  · obtain ⟨rfl, -⟩ := Prod.mk.inj heq
    exact Or.inr hlo
  · dsimp only at hle
    omega
  · dsimp only at hle
    omega

/-! ### What `allocate` finds -/

section Scan

variable {G : FixedPool A} {size j len : ℕ}

/-- The scan of a whole pool finds the first suitable block of the tiling. -/
theorem scan_find (hG : G.Intact L) (size : ℕ) : G.scan size (G.poolSize + 1) 0 =
    some (((placed 0 L).find? (Suits size)).map Prod.fst) := by
  have hlen := length_le_total hG.wellSized
  rw [hG.total_eq] at hlen
  exact scan_eq hG.poolSize_lt size 0 _ hG.wellSized hG.header
    (by rw [Nat.zero_add, hG.total_eq]) (by omega)

theorem find_of_short (hshort : ∀ e ∈ L, e.tag = none → e.len < size) :
    (placed 0 L).find? (Suits size) = none := by
  refine List.find?_eq_none.mpr fun x hx hsuits => ?_
  obtain ⟨hfree, hle⟩ : x.2.tag = none ∧ size ≤ x.2.len := by simpa [Suits] using hsuits
  exact absurd hle (not_le.mpr (hshort x.2 (mem_of_mem_placed hx) hfree))

/-- `allocate` takes the block that was found. -/
theorem Found.scan (h : Found L size j len) (hG : G.Intact L) (hle : size ≤ len) :
    G.scan size (G.poolSize + 1) 0 = some (some j) := by
  obtain ⟨L₁, L₂, rfl, rfl, hshort⟩ := h
  rw [scan_find hG, placed_append, List.find?_append, find_of_short hshort, Option.none_or,
    Nat.zero_add, placed_cons, List.find?_cons_of_pos (by simp [Suits, hle])]
  rfl

/-- In front of the end of the pool there is a block. -/
theorem Searched.block (h : Searched L size j) (hG : G.Intact L) (hend : j < G.poolSize) :
    ∃ L₁ e L₂, L = L₁ ++ e :: L₂ ∧ j = total L₁ ∧ ∀ b ∈ L₁, b.tag = none → b.len < size := by
  obtain ⟨L₁, L₂, rfl, rfl, hshort⟩ := h
  have htotal := hG.total_eq
  rw [total_append] at htotal
  obtain ⟨e, L₂, rfl⟩ := List.exists_cons_of_ne_nil (l := L₂) (by
    rintro rfl
    rw [total_nil] at htotal
    omega)
  exact ⟨L₁, e, L₂, rfl, rfl, hshort⟩

/-- Who has searched the whole pool has found nothing. -/
theorem Searched.scan (h : Searched L size j) (hG : G.Intact L) (hend : G.poolSize ≤ j) :
    G.scan size (G.poolSize + 1) 0 = some none := by
  obtain ⟨L₁, L₂, rfl, rfl, hshort⟩ := h
  have htotal := hG.total_eq
  have hlen := length_le_total (L := L₂) fun e he => hG.wellSized e (List.mem_append_right _ he)
  rw [total_append] at htotal
  obtain rfl : L₂ = [] := List.length_eq_zero_iff.mp (by
    have hword := A.ptrBytes_pos
    omega)
  rw [List.append_nil] at hG
  rw [scan_find hG, find_of_short hshort]
  rfl

end Scan

/-! ### The live pointers -/

/-- A payload ends inside its block, and the block inside the pool. -/
theorem payloadEnd_bounds {S : PoolSession A} (h : S.Tiled L) {x : ℕ × ℕ} (hx : x ∈ S.live) :
    x.1 < S.payloadEnd x.1 ∧ x.1 + x.2 ≤ S.payloadEnd x.1 ∧
      S.payloadEnd x.1 ≤ S.pool.poolSize := by
  obtain ⟨o, len, hmem, hptr⟩ := h.exists_block hx
  obtain ⟨hwell, hend⟩ := h.placed_le hmem
  have hlarge := hwell.large
  have hfits := hwell.fits _ rfl
  dsimp only at hlarge hfits hend
  rw [hptr, h.payloadEnd_eq hmem]
  omega

theorem live_pairwise {S : PoolSession A} (h : S.Tiled L) :
    S.live.Pairwise fun x y => x.1 ≠ y.1 := by
  refine h.disjoint.imp_of_mem fun {x y} hx hy hxy heq => ?_
  have hx := (payloadEnd_bounds h hx).1
  have hy := (payloadEnd_bounds h hy).1
  rw [heq] at hx hxy
  omega

/-- So a pointer is taken back with its size. -/
theorem eraseP_eq_erase {l : List (ℕ × ℕ)} {ptr r : ℕ} (hl : l.Pairwise fun x y => x.1 ≠ y.1)
    (hmem : (ptr, r) ∈ l) : (l.eraseP fun x => x.1 = ptr) = l.erase (ptr, r) := by
  induction l with
  | nil => cases hmem
  | cons x l ih =>
      obtain ⟨hx, htail⟩ := List.pairwise_cons.mp hl
      rcases List.mem_cons.mp hmem with rfl | hmem
      · rw [List.eraseP_cons_of_pos (by simp), List.erase_cons_head]
      · have hne : x.1 ≠ ptr := hx _ hmem
        rw [List.eraseP_cons_of_neg (by simpa using hne), ih htail hmem,
          List.erase_cons_tail (by simpa using fun heq : x = (ptr, r) => hne (by rw [heq]))]

/-! ### A request that is recorded for a block that stays -/

/-- The length of a block, and whether it is allocated. -/
def shape (e : Block) : ℕ × Bool := (e.len, e.tag.isSome)

theorem total_congr (h : L.map shape = L'.map shape) : total L = total L' := by
  induction L generalizing L' with
  | nil =>
      rw [List.map_nil, eq_comm, List.map_eq_nil_iff] at h
      rw [h]
  | cons e L ih =>
      rw [List.map_cons, eq_comm, List.map_eq_cons_iff] at h
      obtain ⟨e', M, rfl, hshape, htail⟩ := h
      rw [total_cons, total_cons, ih htail.symm, (Prod.mk.inj hshape).1]

theorem short_congr {size : ℕ} (h : L.map shape = L'.map shape)
    (hshort : ∀ e ∈ L, e.tag = none → e.len < size) : ∀ e ∈ L', e.tag = none → e.len < size := by
  intro e he hfree
  obtain ⟨e', he', hshape⟩ := List.mem_map.mp (h.symm ▸ List.mem_map_of_mem (f := shape) he)
  obtain ⟨hlen, htag⟩ := Prod.mk.inj hshape
  rw [hfree, Option.isSome_none, Option.isSome_eq_false_iff, Option.isNone_iff_eq_none] at htag
  exact hlen ▸ hshort e' he' htag

theorem Searched.congr {size i : ℕ} (h : Searched L size i) (hL : L.map shape = L'.map shape) :
    Searched L' size i := by
  obtain ⟨L₁, L₂, rfl, rfl, hshort⟩ := h
  rw [List.map_append, eq_comm, List.map_eq_append_iff] at hL
  obtain ⟨M₁, M₂, rfl, hfront, -⟩ := hL
  exact ⟨M₁, M₂, rfl, total_congr hfront.symm, short_congr hfront.symm hshort⟩

theorem Found.congr {size i len : ℕ} (h : Found L size i len)
    (hL : L.map shape = L'.map shape) : Found L' size i len := by
  obtain ⟨L₁, L₂, rfl, rfl, hshort⟩ := h
  rw [List.map_append, eq_comm, List.map_eq_append_iff] at hL
  obtain ⟨M₁, M₂, rfl, hfront, hback⟩ := hL
  rw [List.map_cons, List.map_eq_cons_iff] at hback
  obtain ⟨⟨blockLen, tag⟩, M₂, rfl, hshape, -⟩ := hback
  obtain ⟨hlen, htag⟩ := Prod.mk.inj hshape
  dsimp only at hlen htag
  rw [Option.isSome_none, Option.isSome_eq_false_iff, Option.isNone_iff_eq_none] at htag
  subst hlen htag
  exact ⟨M₁, M₂, rfl, total_congr hfront.symm, short_congr hfront.symm hshort⟩

/-- What a thread knows depends on the shapes of the blocks. -/
theorem Knows.congr {t : PoolThread} (h : Knows A L t) (hL : L.map shape = L'.map shape) :
    Knows A L' t := by
  obtain ⟨phase, frame⟩ := t
  cases phase with
  | scanning n i => exact ⟨h.1, h.2.congr hL⟩
  | measuring n i =>
      obtain ⟨hn, len, hfound⟩ := h
      exact ⟨hn, len, hfound.congr hL⟩
  | splitting n i oldSize | spacing n i oldSize | marking n i oldSize | counting n i oldSize =>
      exact ⟨h.1, h.2.1.congr hL, h.2.2⟩
  | _ => exact h

theorem HasLength.congr {ptr len : ℕ} (h : HasLength A L ptr len)
    (hL : L.map shape = L'.map shape) : HasLength A L' ptr len := by
  obtain ⟨L₁, r, L₂, rfl, rfl⟩ := h.split
  rw [List.map_append, eq_comm, List.map_eq_append_iff] at hL
  obtain ⟨M₁, M₂, rfl, hfront, hback⟩ := hL
  rw [List.map_cons, List.map_eq_cons_iff] at hback
  obtain ⟨⟨blockLen, tag⟩, M₂, rfl, hshape, -⟩ := hback
  obtain ⟨hlen, htag⟩ := Prod.mk.inj hshape
  dsimp only at hlen htag
  obtain ⟨r', rfl⟩ := Option.isSome_iff_exists.mp htag
  subst hlen
  refine ⟨total M₁, r', ?_, by rw [total_congr hfront]⟩
  rw [placed_append, placed_cons, Nat.zero_add]
  exact List.mem_append_right _ List.mem_cons_self

theorem retag_shape {len r n : ℕ} : (L₁ ++ (⟨len, some r⟩ : Block) :: L₂).map shape =
    (L₁ ++ [(⟨len, some n⟩ : Block)] ++ L₂).map shape := by
  simp [shape]

/-! ### What other threads see -/

section Midway

variable {G G' : FixedPool A} {t : PoolThread} {ptr len : ℕ}

theorem pending_congr
    (h : ∀ own, t.uses = some own → G'.sizeAt (own - A.ptrBytes) = G.sizeAt (own - A.ptrBytes)) :
    pending G' t = pending G t := by
  obtain ⟨phase, frame⟩ := t
  cases phase with
  | discounting own | unmarking own =>
      exact congrArg (fun size => [(own - A.ptrBytes + A.ptrBytes, size)]) (h own rfl)
  | cutting n | resting n => cases frame <;> rfl
  | _ => rfl

/-- A byte may be stored to another block before what is pending or after it. -/
theorem midway_update {a : ℕ} (b : UInt8)
    (havoids : ByteMemory.Avoids A.ptrBytes (pending G t) (ptr - A.ptrBytes)
      (ptr - A.ptrBytes + len)) (hlo : ptr - A.ptrBytes ≤ a) (hhi : a < ptr - A.ptrBytes + len)
    (hmem : G' = { G with memory := Function.update G.memory a b })
    (hown : ∀ own, t.uses = some own →
      G'.sizeAt (own - A.ptrBytes) = G.sizeAt (own - A.ptrBytes)) :
    midway G' t = { midway G t with memory := Function.update (midway G t).memory a b } := by
  have hpending := pending_congr hown
  have hwrites := ByteMemory.writeAll_update havoids hlo hhi G.memory b
  rw [← hpending] at hwrites
  obtain ⟨phase, frame⟩ := t
  cases phase with
  | unmarking own =>
      have hsize := hown own rfl
      simp only [midway, hsize, ← hpending]
      subst hmem
      rw [hwrites]
  | _ =>
      rw [midway, midway, ← hpending]
      subst hmem
      dsimp only
      rw [hwrites]

end Midway

theorem no_frame {phase : PoolPhase} : ∀ ptr oldSize,
    (⟨phase, none⟩ : PoolThread).frame = some (ptr, oldSize) → HasLength A L ptr oldSize :=
  fun _ _ h => by cases h

theorem outside_uses {p : ℕ → Prop} :
    ∀ ptr, (⟨.outside, none⟩ : PoolThread).uses = some ptr → p ptr :=
  fun _ h => by cases h

/-! ### The simulation -/

variable {ι : Type} {s s' : SharedPool A ι} {S S' : PoolSession A} {i j : ι}
  {t : PoolThread}

/-- **The simulation.**  `S` is the pool of a single thread in which the calls of the threads have
been made that have taken effect, and `L` are its blocks.  At most one thread is busy, and what the
shared pool holds is `S` with what that thread has written. -/
structure Simulates (s : SharedPool A ι) (S : PoolSession A) (L : List Block) : Prop where
  tiled : S.Tiled L
  live : S.live = s.live
  sound : s.mutex.Sound
  locked : ∀ i, (s.thread i).phase.Locked = true → s.mutex.Inside i
  alone : ∀ i j, (s.thread i).phase.Busy = true → (s.thread j).phase.Busy = true → i = j
  busy : ∀ i, (s.thread i).phase.Busy = true → s.pool = midway S.pool (s.thread i)
  quiet : (∀ i, (s.thread i).phase.Busy = false) → s.pool = S.pool
  knows : ∀ i, Knows A L (s.thread i)
  framed : ∀ i ptr oldSize, (s.thread i).frame = some (ptr, oldSize) → HasLength A L ptr oldSize
  used : ∀ i ptr, (s.thread i).uses = some ptr → ∃ r, (ptr, r) ∈ s.live
  apart : ∀ i j ptr, (s.thread i).uses = some ptr → (s.thread j).uses = some ptr → i = j

theorem simulates_start (memory : ByteMemory) {size : ℕ} (hlarge : A.ptrBytes < size)
    (hlt : size < 2 ^ A.bits) :
    Simulates (start memory size : SharedPool A ι) (.start memory size) [⟨size, none⟩] where
  tiled := .of_start memory hlarge hlt
  live := rfl
  sound := SpinLock.sound_start
  locked := fun _ h => by cases h
  alone := fun _ _ h => by cases h
  busy := fun _ h => by cases h
  quiet := fun _ => rfl
  knows := fun _ => trivial
  framed := fun _ _ _ h => by cases h
  used := fun _ _ h => by cases h
  apart := fun _ _ _ h => by cases h

namespace Simulates

/-- A live pointer is to an allocated block. -/
theorem hasLength (h : Simulates s S L) {ptr r : ℕ} (hlive : (ptr, r) ∈ s.live) :
    ∃ len, HasLength A L ptr len ∧ S.pool.sizeAt (ptr - A.ptrBytes) = len ∧
      r + A.ptrBytes ≤ len ∧ A.ptrBytes < len := by
  rw [← h.live] at hlive
  obtain ⟨o, len, hx, hptr⟩ := h.tiled.exists_block hlive
  dsimp only at hptr
  have hwell := h.tiled.intact.wellSized _ (mem_of_mem_placed hx)
  refine ⟨len, ⟨o, r, hx, hptr⟩, ?_, hwell.fits r rfl, hwell.large⟩
  rw [hptr, Nat.add_sub_cancel]
  exact sizeAt_of_used (h.tiled.intact.header _ hx)

theorem uses_hasLength (h : Simulates s S L) {i : ι} {ptr : ℕ}
    (huses : (s.thread i).uses = some ptr) : ∃ len, HasLength A L ptr len := by
  obtain ⟨r, hlive⟩ := h.used i ptr huses
  obtain ⟨len, hlen, -⟩ := h.hasLength hlive
  exact ⟨len, hlen⟩

/-- What a thread has written is not in the block of a pointer that it does not use. -/
theorem avoids (h : Simulates s S L) {ptr len : ℕ} (hlen : HasLength A L ptr len)
    (hne : (s.thread i).uses ≠ some ptr) :
    ByteMemory.Avoids A.ptrBytes (pending S.pool (s.thread i)) (ptr - A.ptrBytes)
      (ptr - A.ptrBytes + len) :=
  avoids_pending h.tiled.intact (h.knows i) (fun _ huses => h.uses_hasLength huses) (h.framed i)
    hlen hne

/-- A thread at the headers that has written nothing. -/
theorem pool_of_unwritten (h : Simulates s S L) (ht : s.thread i = t)
    (hbusy : t.phase.Busy = true) (hnone : midway S.pool t = S.pool) : s.pool = S.pool := by
  subst ht
  rw [h.busy i hbusy, hnone]

/-- The pool is `S` with what a thread has written, or `S`. -/
theorem pool_eq (h : Simulates s S L) :
    (∃ i, (s.thread i).phase.Busy = true ∧ s.pool = midway S.pool (s.thread i)) ∨
      (∀ i, (s.thread i).phase.Busy = false) ∧ s.pool = S.pool := by
  by_cases hbusy : ∃ i, (s.thread i).phase.Busy = true
  · obtain ⟨i, hi⟩ := hbusy
    exact Or.inl ⟨i, hi, h.busy i hi⟩
  · have hall : ∀ i, (s.thread i).phase.Busy = false := fun i =>
      Bool.eq_false_iff.mpr fun hi => hbusy ⟨i, hi⟩
    exact Or.inr ⟨hall, h.quiet hall⟩

/-- The bytes of the block of a pointer that is in no call are those of `S`. -/
theorem agreeOn (h : Simulates s S L) {ptr len : ℕ} (hlen : HasLength A L ptr len)
    (hne : ∀ i, (s.thread i).phase.Busy = true → (s.thread i).uses ≠ some ptr) :
    ByteMemory.AgreeOn S.pool.memory s.pool.memory (ptr - A.ptrBytes)
      (ptr - A.ptrBytes + len) := by
  rcases h.pool_eq with ⟨i, hi, hpool⟩ | ⟨-, hpool⟩
  · rw [hpool]
    exact ByteMemory.writeAll_agreeOn (h.avoids hlen (hne i hi)) _
  · rw [hpool]
    exact ByteMemory.AgreeOn.refl _ _ _

/-- While a thread is busy, the others are not. -/
theorem others (h : Simulates s S L) (hi : (s.thread i).phase.Busy = true) :
    ∀ j, j ≠ i → (s.thread j).phase.Busy = false := fun j hne =>
  Bool.eq_false_iff.mpr fun hj => hne (h.alone j i hj hi)

/-- A pointer that the thread goes on to use. -/
theorem keeps_uses (h : Simulates s S L)
    (hsub : ∀ ptr, t.uses = some ptr → (s.thread i).uses = some ptr) :
    ∀ ptr, t.uses = some ptr →
      (∃ r, (ptr, r) ∈ s.live) ∧ ∀ j, j ≠ i → (s.thread j).uses ≠ some ptr := fun ptr hptr =>
  ⟨h.used i ptr (hsub ptr hptr), fun j hne hj => hne (h.apart j i ptr hj (hsub ptr hptr))⟩

/-- The pointer that the thread uses. -/
theorem keeps_used (h : Simulates s S L) {ptr : ℕ} (huses : (s.thread i).uses = some ptr)
    (ht : t.uses = some ptr) : ∀ own, t.uses = some own →
      (∃ r, (own, r) ∈ s.live) ∧ ∀ j, j ≠ i → (s.thread j).uses ≠ some own :=
  h.keeps_uses fun own hown => by rw [huses, ← ht, hown]

/-- When the lock is free and no block is half cut, nobody is at the headers. -/
theorem not_busy (h : Simulates s S L) (hflag : s.mutex.mSpinLock = false)
    (hcuts : ∀ j, (s.thread j).phase.Cuts = false) (j : ι) : (s.thread j).phase.Busy = false := by
  have hlocked : (s.thread j).phase.Locked = false := by
    refine Bool.eq_false_iff.mpr fun hphase => ?_
    have hinside := h.locked j hphase
    rw [SpinLock.Inside, h.sound.held_eq_zero hflag j] at hinside
    exact Nat.lt_irrefl 0 hinside
  rw [PoolPhase.Busy, hlocked, hcuts j]
  rfl

/-- The pointer of a thread that is not at the headers is not one of a thread that is. -/
theorem not_uses_of_busy {ptr : ℕ} (h : Simulates s S L)
    (hbefore : (s.thread i).phase.Busy = false) (huses : (s.thread i).uses = some ptr) :
    ∀ j, (s.thread j).phase.Busy = true → (s.thread j).uses ≠ some ptr := by
  intro j hj hptr
  obtain rfl := h.apart j i ptr hptr huses
  rw [hbefore] at hj
  cases hj

theorem takeBack_live (h : Simulates s S L) {ptr r : ℕ} (hlive : (ptr, r) ∈ s.live) :
    S.live.erase (ptr, r) = (s.takeBack ptr).live := by
  have hpairwise := live_pairwise h.tiled
  rw [h.live] at hpairwise ⊢
  exact (eraseP_eq_erase hpairwise hlive).symm

/-- The other threads keep their pointers. -/
theorem others_used (h : Simulates s S L) {ptr : ℕ} (huses : (s.thread i).uses = some ptr) :
    ∀ j, j ≠ i → ∀ own, (s.thread j).uses = some own → ∃ r, (own, r) ∈ (s.takeBack ptr).live := by
  intro j hne own hown
  obtain ⟨r, hlive⟩ := h.used j own hown
  refine ⟨r, (List.mem_eraseP_of_neg ?_).mpr hlive⟩
  have hother : own ≠ ptr := by
    rintro rfl
    exact hne (h.apart j i own hown huses)
  simpa using hother

/-- The blocks of their frames stay when the block of another pointer is replaced. -/
theorem others_framed {e : Block} {L₁ L₂ M : List Block} (h : Simulates s S (L₁ ++ e :: L₂))
    (huses : (s.thread i).uses = some (total L₁ + A.ptrBytes)) (hM : total M = e.len) :
    ∀ j, j ≠ i → ∀ own oldSize, (s.thread j).frame = some (own, oldSize) →
      HasLength A (L₁ ++ M ++ L₂) own oldSize := by
  intro j hne own oldSize hown
  refine (h.framed j own oldSize hown).replace hM (Or.inr ?_)
  rintro rfl
  exact hne (h.apart j i _ ((h.knows j).uses_of_frame hown) huses)

/-- **A byte is stored** to a block that no thread at the headers is about. -/
theorem store {ptr len a : ℕ} (h : Simulates s S L) (hlen : HasLength A L ptr len)
    (hlo : ptr ≤ a) (hhi : a < ptr - A.ptrBytes + len)
    (hne : ∀ j, (s.thread j).phase.Busy = true → (s.thread j).uses ≠ some ptr) (b : UInt8) :
    Simulates
      ({ s with pool := { s.pool with memory := Function.update s.pool.memory a b } } :
        SharedPool A ι)
      ⟨{ S.pool with memory := Function.update S.pool.memory a b }, S.live⟩ L := by
  have hintact : ({ S.pool with memory := Function.update S.pool.memory a b } :
      FixedPool A).Intact L := by
    obtain ⟨L₁, r, L₂, rfl, rfl⟩ := hlen.split
    exact h.tiled.intact.store (by omega) (by omega) b
  exact { h with
    tiled := ⟨hintact, h.tiled.live⟩
    busy := fun j hj => by
      have hmidway := midway_update (G := S.pool) b (h.avoids hlen (hne j hj)) (by omega) hhi rfl
        fun own hown => by
          obtain ⟨ownLen, hown⟩ := h.uses_hasLength hown
          exact (ByteMemory.update_agreeOn (hown.apart hlen h.tiled.intact hlo hhi)).read
      rw [hmidway]
      dsimp only
      rw [h.busy j hj]
    quiet := fun hall => by
      dsimp only
      rw [h.quiet hall] }

/-- What the threads see of the calls that have taken effect. -/
theorem agrees (h : Simulates s S L) : Agrees s S := by
  have hbounds := fun x hx => payloadEnd_bounds h.tiled (x := x) (h.live ▸ hx)
  refine ⟨h.live, h.quiet, fun x hx hfree => ?_, ?_, fun x hx => ?_⟩
  · obtain ⟨len, hlen, -, hfits, -⟩ := h.hasLength hx
    obtain ⟨hptr, -⟩ := hlen.bounds h.tiled.intact
    exact (h.agreeOn hlen fun i _ => hfree i).mono (by omega) (by omega)
  · have hdisjoint := h.tiled.disjoint
    rw [h.live] at hdisjoint
    refine hdisjoint.imp_of_mem fun {x y} hx hy hxy => ?_
    have hx := (hbounds x hx).2.1
    have hy := (hbounds y hy).2.1
    omega
  · exact (hbounds x hx).2.1.trans (hbounds x hx).2.2

variable [DecidableEq ι] {P : FixedPool A} {mutex : SpinLock ι} {live : List (ℕ × ℕ)}

/-- **The next state.**  What is to be shown of a step of thread `i`. -/
theorem next (h : Simulates s S L) (htiled : S'.Tiled L') (hlive : S'.live = live)
    (hsound : mutex.Sound) (hinside : ∀ j, j ≠ i → s.mutex.Inside j → mutex.Inside j)
    (hlocked : t.phase.Locked = true → mutex.Inside i)
    (hbusy : t.phase.Busy = true →
      P = midway S'.pool t ∧ ∀ j, j ≠ i → (s.thread j).phase.Busy = false)
    (hothers : ∀ j, j ≠ i → (s.thread j).phase.Busy = true → P = midway S'.pool (s.thread j))
    (hquiet : t.phase.Busy = false → (∀ j, j ≠ i → (s.thread j).phase.Busy = false) → P = S'.pool)
    (hknows : ∀ j, j ≠ i → Knows A L' (s.thread j)) (hknow : Knows A L' t)
    (hframes : ∀ j, j ≠ i → ∀ ptr oldSize, (s.thread j).frame = some (ptr, oldSize) →
      HasLength A L' ptr oldSize)
    (hframe : ∀ ptr oldSize, t.frame = some (ptr, oldSize) → HasLength A L' ptr oldSize)
    (hused : ∀ j, j ≠ i → ∀ ptr, (s.thread j).uses = some ptr → ∃ r, (ptr, r) ∈ live)
    (huses : ∀ ptr, t.uses = some ptr →
      (∃ r, (ptr, r) ∈ live) ∧ ∀ j, j ≠ i → (s.thread j).uses ≠ some ptr) :
    Simulates ⟨P, mutex, Function.update s.thread i t, live⟩ S' L' := by
  have hself : Function.update s.thread i t i = t := Function.update_self i t s.thread
  have hother : ∀ j, j ≠ i → Function.update s.thread i t j = s.thread j := fun j hne =>
    Function.update_of_ne hne t s.thread
  refine ⟨htiled, hlive, hsound, fun j => ?_, fun j k => ?_, fun j => ?_, fun hall => ?_,
    fun j => ?_, fun j => ?_, fun j => ?_, fun j k ptr => ?_⟩ <;> dsimp only
  · by_cases hj : j = i
    · subst hj
      rw [hself]
      exact hlocked
    · rw [hother j hj]
      exact fun hphase => hinside j hj (h.locked j hphase)
  · by_cases hj : j = i <;> by_cases hk : k = i
    · exact fun _ _ => hj.trans hk.symm
    · subst hj
      rw [hself, hother k hk]
      intro hphase hphase'
      rw [(hbusy hphase).2 k hk] at hphase'
      cases hphase'
    · subst hk
      rw [hself, hother j hj]
      intro hphase' hphase
      rw [(hbusy hphase).2 j hj] at hphase'
      cases hphase'
    · rw [hother j hj, hother k hk]
      exact h.alone j k
  · by_cases hj : j = i
    · subst hj
      rw [hself]
      exact fun hphase => (hbusy hphase).1
    · rw [hother j hj]
      exact hothers j hj
  · refine hquiet ?_ fun j hj => ?_
    · rw [← hself]
      exact hall i
    · rw [← hother j hj]
      exact hall j
  · by_cases hj : j = i
    · subst hj
      rwa [hself]
    · rw [hother j hj]
      exact hknows j hj
  · by_cases hj : j = i
    · subst hj
      rwa [hself]
    · rw [hother j hj]
      exact hframes j hj
  · by_cases hj : j = i
    · subst hj
      rw [hself]
      exact fun ptr hptr => (huses ptr hptr).1
    · rw [hother j hj]
      exact hused j hj
  · by_cases hj : j = i <;> by_cases hk : k = i
    · exact fun _ _ => hj.trans hk.symm
    · subst hj
      rw [hself, hother k hk]
      exact fun hptr hptr' => absurd hptr' ((huses ptr hptr).2 k hk)
    · subst hk
      rw [hself, hother j hj]
      exact fun hptr' hptr => absurd hptr' ((huses ptr hptr).2 j hj)
    · rw [hother j hj, hother k hk]
      exact h.apart j k ptr

/-- A thread that is not at the headers, before and after. -/
theorem aside (h : Simulates s S L) (hsound : mutex.Sound)
    (hinside : ∀ j, j ≠ i → s.mutex.Inside j → mutex.Inside j)
    (hbefore : (s.thread i).phase.Busy = false) (hafter : t.phase.Busy = false)
    (hknow : Knows A L t)
    (hframe : ∀ ptr oldSize, t.frame = some (ptr, oldSize) → HasLength A L ptr oldSize)
    (huses : ∀ ptr, t.uses = some ptr →
      (∃ r, (ptr, r) ∈ s.live) ∧ ∀ j, j ≠ i → (s.thread j).uses ≠ some ptr) :
    Simulates ⟨s.pool, mutex, Function.update s.thread i t, s.live⟩ S L := by
  have hnot : ¬ t.phase.Busy = true := Bool.eq_false_iff.mp hafter
  refine h.next h.tiled h.live hsound hinside (fun hlocked => ?_) (fun hbusy => absurd hbusy hnot)
    (fun j _ => h.busy j) (fun _ hall => ?_) (fun j _ => h.knows j) hknow (fun j _ => h.framed j)
    hframe (fun j _ => h.used j) huses
  · rw [PoolPhase.Busy, hlocked, Bool.true_or] at hnot
    exact absurd rfl hnot
  · refine h.quiet fun j => ?_
    by_cases hj : j = i
    · rwa [hj]
    · exact hall j hj

/-- A thread that is alone at the headers, when its call takes effect. -/
theorem commit (h : Simulates s S L) (hothers : ∀ j, j ≠ i → (s.thread j).phase.Busy = false)
    (htiled : S'.Tiled L') (hlive : S'.live = live) (hsound : mutex.Sound)
    (hinside : ∀ j, j ≠ i → s.mutex.Inside j → mutex.Inside j)
    (hlocked : t.phase.Locked = true → mutex.Inside i) (hpool : P = midway S'.pool t)
    (hknow : Knows A L' t)
    (hframes : ∀ j, j ≠ i → ∀ ptr oldSize, (s.thread j).frame = some (ptr, oldSize) →
      HasLength A L' ptr oldSize)
    (hframe : ∀ ptr oldSize, t.frame = some (ptr, oldSize) → HasLength A L' ptr oldSize)
    (hused : ∀ j, j ≠ i → ∀ ptr, (s.thread j).uses = some ptr → ∃ r, (ptr, r) ∈ live)
    (huses : ∀ ptr, t.uses = some ptr →
      (∃ r, (ptr, r) ∈ live) ∧ ∀ j, j ≠ i → (s.thread j).uses ≠ some ptr) :
    Simulates ⟨P, mutex, Function.update s.thread i t, live⟩ S' L' := by
  refine h.next htiled hlive hsound hinside hlocked (fun _ => ⟨hpool, hothers⟩)
    (fun j hj hbusy => ?_) (fun hnot _ => ?_)
    (fun j hj => (knows_of_not_busy (hothers j hj)).mp (h.knows j)) hknow hframes hframe hused huses
  · rw [hothers j hj] at hbusy
    cases hbusy
  · rw [hpool, midway_of_not_busy hnot]

/-- A thread that is alone at the headers and goes on with its call. -/
theorem work (h : Simulates s S L) (hothers : ∀ j, j ≠ i → (s.thread j).phase.Busy = false)
    (hsound : mutex.Sound) (hinside : ∀ j, j ≠ i → s.mutex.Inside j → mutex.Inside j)
    (hlocked : t.phase.Locked = true → mutex.Inside i) (hpool : P = midway S.pool t)
    (hknow : Knows A L t)
    (hframe : ∀ ptr oldSize, t.frame = some (ptr, oldSize) → HasLength A L ptr oldSize)
    (hsub : ∀ ptr, t.uses = some ptr → (s.thread i).uses = some ptr) :
    Simulates ⟨P, mutex, Function.update s.thread i t, s.live⟩ S L :=
  h.commit hothers h.tiled h.live hsound hinside hlocked hpool hknow (fun j _ => h.framed j) hframe
    (fun j _ => h.used j) (h.keeps_uses hsub)

end Simulates

end SharedPool

end Tklb
