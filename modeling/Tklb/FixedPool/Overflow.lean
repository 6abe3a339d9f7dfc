import Tklb.FixedPool.FirstFit

/-!
# Requests near the end of `Size`

`allocate` and `reallocate` add a header to the request and round the sum up to whole
words, both in `Size`.  As long as the rounded sum is a value of `Size`, a request that
the pool has no room for is turned down.  Beyond that the sum wraps to one word or to
nothing, and every free block has room for it: `allocate` fails to notice as soon as
there is a free block, and `reallocate`, which compares with the block in hand, always.

### What is load-bearing

`realAllocation` adds a word and rounds up, and both additions wrap, so a request of nearly the
largest value becomes one of a word or of none.  `Unrepresentable` is the condition on the
number; what follows from it differs between the two functions, and `Representable` says where a
wrapped request does no harm all the same: a full pool turns it down.

`Delivers` is an if-and-only-if in itself: null is right for a request that cannot be
represented, and a pointer to enough bytes is right for any other.  `Served` collects what the
two functions do for a request that does not wrap, by the results about the layout, so the last
theorem is about one call in a state that a run of representable requests has reached.
-/

namespace Tklb

open Foundation FixedPool

/-- Words fill the address space exactly. -/
theorem Target.ptrBytes_dvd (A : Target) : A.ptrBytes ∣ 2 ^ A.bits := by
  refine Nat.pow_dvd_pow 2 ?_
  have hlog : A.log < A.ptrBytes := Nat.lt_two_pow_self
  rw [bits]
  omega

namespace FixedPool

variable {A : Target}

/-- The header and `n` bytes, rounded up to whole words, are no value of `Size`. -/
def Unrepresentable (A : Target) (n : ℕ) : Prop :=
  2 ^ A.bits ≤ roundUp (A.ptrBytes + max A.ptrBytes n) A.ptrBytes

/-- The call on `P` returned the payload `q` of at least `n` bytes of a block of `P'` that
is marked as allocated and lies inside the pool. -/
def Delivered (P P' : FixedPool A) (n q : ℕ) : Prop :=
  ∃ blocks, P'.Chain blocks ∧ ∃ i ∈ blocks, q = i + A.ptrBytes ∧ P'.sizeAt i ≠ 0 ∧
    q + n ≤ i + P'.sizeAt i ∧ i + P'.sizeAt i ≤ P.poolSize

/-- **The result of a request for `n` bytes is right**: a pointer to them, or null; and
null, with the pool unchanged, if they are not representable. -/
def Delivers (P : FixedPool A) (n : ℕ) (result : Option (Option ℕ × FixedPool A)) : Prop :=
  ∃ found P', result = some (found, P') ∧
    (Unrepresentable A n → found = none ∧ P' = P) ∧
    ∀ q, found = some q → P.Delivered P' n q

/-- No block of the pool is free. -/
def Full (P : FixedPool A) : Prop :=
  ∃ blocks, P.Chain blocks ∧ ∀ i ∈ blocks, P.sizeAt i ≠ 0

/-! ### The roundings at the end of the range -/

/-- The last word of `Size`. -/
theorem unrepresentable_iff {n : ℕ} :
    Unrepresentable A n ↔ 2 ^ A.bits < n + 2 * A.ptrBytes := by
  have hword := A.ptrBytes_pos
  have hbig := A.four_mul_ptrBytes_le
  have hlt := roundUp_lt (A.ptrBytes + max A.ptrBytes n) hword
  have hle := le_roundUp (A.ptrBytes + max A.ptrBytes n) hword
  have hdvd := dvd_roundUp (A.ptrBytes + max A.ptrBytes n) A.ptrBytes
  unfold Unrepresentable
  constructor
  · intro h
    omega
  · intro h
    -- otherwise the sum would be a whole word short of the end
    by_contra hnot
    have := Target.add_ptrBytes_le hdvd A.ptrBytes_dvd (not_le.mp hnot)
    omega

/-- The multiple of a word behind `m`. -/
theorem next_word (m : ℕ) : A.ptrBytes ∣ m / A.ptrBytes * A.ptrBytes + A.ptrBytes ∧
    m < m / A.ptrBytes * A.ptrBytes + A.ptrBytes ∧
    m / A.ptrBytes * A.ptrBytes + A.ptrBytes ≤ m + A.ptrBytes := by
  have hmod := Nat.mod_add_div' m A.ptrBytes
  have hrem := Nat.mod_lt m A.ptrBytes_pos
  exact ⟨Nat.dvd_add (Nat.dvd_mul_left _ _) dvd_rfl, by omega, by omega⟩

/-- What lies between the last two words is rounded up to the last one. -/
theorem next_word_eq {m k : ℕ} (hk : A.ptrBytes ∣ k) (hle : k ≤ m) (hlt : m < k + A.ptrBytes) :
    m / A.ptrBytes * A.ptrBytes + A.ptrBytes = k + A.ptrBytes := by
  obtain ⟨hdvd, hgt, hupper⟩ := next_word (A := A) m
  have hlower := Target.add_ptrBytes_le hk hdvd (by omega)
  by_contra hne
  have := Target.add_ptrBytes_le (Nat.dvd_add hk dvd_rfl) hdvd (by omega)
  omega

/-- Rounding up a wrapped sum, or one that wraps when it is rounded up, gives a word or
nothing. -/
theorem wrap_next_word_le {m : ℕ} (hm : m < A.ptrBytes ∨ 2 ^ A.bits ≤ m + A.ptrBytes)
    (hlt : m < 2 ^ A.bits) :
    wrap A.bits (m / A.ptrBytes * A.ptrBytes + A.ptrBytes) ≤ A.ptrBytes := by
  have hbig := A.four_mul_ptrBytes_le
  have hword := A.ptrBytes_pos
  rcases hm with hm | hm
  · rw [next_word_eq (dvd_zero _) (Nat.zero_le m) (by omega), wrap_of_lt (by omega)]
    omega
  · have hlast : A.ptrBytes ∣ 2 ^ A.bits - A.ptrBytes := Nat.dvd_sub A.ptrBytes_dvd dvd_rfl
    rw [next_word_eq hlast (by omega) (by omega), Nat.sub_add_cancel (by omega), wrap,
      Nat.mod_self]
    exact Nat.zero_le _

/-- The sum of a word and a request, in `Size`. -/
theorem wrap_add_word {n : ℕ} (hn : n < 2 ^ A.bits) :
    wrap A.bits (n + A.ptrBytes) = n + A.ptrBytes ∨
      wrap A.bits (n + A.ptrBytes) < A.ptrBytes := by
  by_cases hlt : n + A.ptrBytes < 2 ^ A.bits
  · exact Or.inl (wrap_of_lt hlt)
  · right
    have hfour := A.four_mul_ptrBytes_le
    rw [wrap, Nat.mod_eq_sub_mod (by omega), Nat.mod_eq_of_lt (by omega)]
    omega

/-- An unrepresentable request is rounded to at most one word by `allocate`. -/
theorem realAllocation_le {n : ℕ} (hn : n < 2 ^ A.bits)
    (hbig : 2 ^ A.bits < n + 2 * A.ptrBytes) : realAllocation A n ≤ A.ptrBytes := by
  have hword := A.ptrBytes_pos
  have hfour := A.four_mul_ptrBytes_le
  have hlt := wrap_lt A.bits (n + A.ptrBytes)
  have hmin : wrap A.bits (n + A.ptrBytes) =
      wrap A.bits (A.ptrBytes + max A.ptrBytes n) := by
    rw [max_eq_right (by omega), Nat.add_comm]
  rw [realAllocation_eq_wrap (by omega) hmin]
  split
  · rename_i haligned
    -- no multiple of a word lies behind the last one
    have hlast := Target.add_ptrBytes_le (Nat.dvd_of_mod_eq_zero haligned) A.ptrBytes_dvd hlt
    rcases wrap_add_word hn with hsum | hlow <;> omega
  · refine wrap_next_word_le ?_ hlt
    rcases wrap_add_word hn with hsum | hlow <;> omega

/-- `reallocate` rounds up past what is whole words already. -/
theorem reallocSize_eq {n m : ℕ} (hm : m = wrap A.bits (n + A.ptrBytes)) :
    reallocSize A n = wrap A.bits (m / A.ptrBytes * A.ptrBytes + A.ptrBytes) := by
  have hmod := Nat.mod_add_div' m A.ptrBytes
  have hrem := Nat.mod_lt m A.ptrBytes_pos
  have hnext : m + (A.ptrBytes - m % A.ptrBytes) =
      m / A.ptrBytes * A.ptrBytes + A.ptrBytes := by omega
  rw [reallocSize, ← hm, hnext]

/-- An unrepresentable request, and the last one that is representable, are rounded to at
most one word by `reallocate`. -/
theorem reallocSize_le {n : ℕ} (hn : n < 2 ^ A.bits)
    (hbig : 2 ^ A.bits ≤ n + 2 * A.ptrBytes) : reallocSize A n ≤ A.ptrBytes := by
  rw [reallocSize_eq rfl]
  refine wrap_next_word_le ?_ (wrap_lt _ _)
  rcases wrap_add_word hn with hsum | hlow <;> omega

/-- A representable request that wraps further on takes all but the last word of `Size`. -/
theorem le_realAllocation {n : ℕ} (hlarge : 2 ^ A.bits < n + 3 * A.ptrBytes)
    (hrep : n + 2 * A.ptrBytes ≤ 2 ^ A.bits) :
    2 ^ A.bits ≤ realAllocation A n + A.ptrBytes := by
  have hword := A.ptrBytes_pos
  have hfour := A.four_mul_ptrBytes_le
  obtain ⟨m, hm⟩ : ∃ m, m = A.ptrBytes + max A.ptrBytes n := ⟨_, rfl⟩
  have hsum : m = A.ptrBytes + n := by rw [hm, max_eq_right (by omega)]
  have hlast : A.ptrBytes ∣ 2 ^ A.bits - 2 * A.ptrBytes :=
    Nat.dvd_sub A.ptrBytes_dvd (Nat.dvd_mul_left _ _)
  rw [realAllocation_eq (by omega) hm (by omega)]
  split
  · rename_i haligned
    have := Target.add_ptrBytes_le hlast (Nat.dvd_of_mod_eq_zero haligned) (by omega)
    omega
  · obtain ⟨hdvd, hgt, -⟩ := next_word (A := A) m
    have := Target.add_ptrBytes_le hlast hdvd (by omega)
    omega

/-- So it does in `reallocate`. -/
theorem le_reallocSize {n : ℕ} (hlarge : 2 ^ A.bits ≤ n + 3 * A.ptrBytes)
    (hrep : n + 2 * A.ptrBytes < 2 ^ A.bits) :
    2 ^ A.bits ≤ reallocSize A n + A.ptrBytes := by
  have hword := A.ptrBytes_pos
  have hfour := A.four_mul_ptrBytes_le
  have hlast : A.ptrBytes ∣ 2 ^ A.bits - 2 * A.ptrBytes :=
    Nat.dvd_sub A.ptrBytes_dvd (Nat.dvd_mul_left _ _)
  rw [reallocSize_eq rfl, wrap_of_lt (by omega : n + A.ptrBytes < 2 ^ A.bits),
    next_word_eq hlast (by omega) (by omega), wrap_of_lt (by omega)]
  omega

/-! ### What the requests lead to -/

/-- The call returned null and left the pool as it was, or a payload of `n` bytes beside
those in `rest`. -/
def Served (P : FixedPool A) (n : ℕ) (rest : List (ℕ × ℕ))
    (result : Option (Option ℕ × FixedPool A)) : Prop :=
  result = some (none, P) ∨ ∃ q P' L', result = some (some q, P') ∧ P'.Intact L' ∧
    P'.poolSize = P.poolSize ∧ (payloads A 0 L').Perm ((q, n) :: rest)

/-- A payload of a tiling is delivered. -/
theorem Intact.delivered {P P' : FixedPool A} {L : List Block} {n q : ℕ} (h : P'.Intact L)
    (hmem : (q, n) ∈ payloads A 0 L) (hsize : P'.poolSize = P.poolSize) :
    P.Delivered P' n q := by
  obtain ⟨i, len, hplaced, rfl⟩ := mem_payloads_placed hmem
  have hused := sizeAt_of_used (h.header _ hplaced)
  have hwell := h.wellSized _ (mem_of_mem_placed hplaced)
  have hlarge := hwell.large
  have hfits := hwell.fits n rfl
  have hend := (mem_placed_bounds hplaced).2
  rw [Nat.zero_add, h.total_eq, hsize] at hend
  dsimp only at hlarge hfits hend
  refine ⟨_, h.chain, i, List.mem_map_of_mem hplaced, rfl, ?_⟩
  rw [hused]
  exact ⟨by omega, by omega, by omega⟩

/-- No request of the last two words of `Size` is delivered: the pool is smaller. -/
theorem not_delivered {P P' : FixedPool A} {n q : ℕ}
    (hpool : P.poolSize + A.ptrBytes < 2 ^ A.bits) (hbig : 2 ^ A.bits ≤ n + 2 * A.ptrBytes) :
    ¬ P.Delivered P' n q := by
  rintro ⟨blocks, -, i, -, rfl, -, hroom, hin⟩
  omega

/-- So a pointer is never the right result for one of them. -/
theorem not_delivers {P P' : FixedPool A} {n q : ℕ}
    (hpool : P.poolSize + A.ptrBytes < 2 ^ A.bits) (hbig : 2 ^ A.bits ≤ n + 2 * A.ptrBytes) :
    ¬ P.Delivers n (some (some q, P')) := by
  rintro ⟨found, P'', hcall, -, hfound⟩
  rw [Option.some.injEq, Prod.mk.injEq] at hcall
  exact not_delivered hpool hbig (hfound q hcall.1.symm)

/-- A payload that is served is one of an intact pool. -/
theorem Served.intact {P P' : FixedPool A} {n q : ℕ} {rest : List (ℕ × ℕ)}
    (h : P.Served n rest (some (some q, P'))) :
    ∃ L', P'.Intact L' ∧ P'.poolSize = P.poolSize ∧
      (payloads A 0 L').Perm ((q, n) :: rest) := by
  rcases h with hnull | ⟨q', P'', L', hnew, hspec⟩
  · simp at hnull
  · rw [Option.some.injEq, Prod.mk.injEq, Option.some.injEq] at hnew
    obtain ⟨rfl, rfl⟩ := hnew
    exact ⟨L', hspec⟩

/-- A null that is served changes nothing. -/
theorem Served.unchanged {P P' : FixedPool A} {n : ℕ} {rest : List (ℕ × ℕ)}
    (h : P.Served n rest (some (none, P'))) : P' = P := by
  rcases h with hnull | ⟨q, P'', L', hnew, -⟩
  · simpa using hnull
  · simp at hnew

/-- What is served is right. -/
theorem Served.delivers {P : FixedPool A} {n : ℕ} {rest : List (ℕ × ℕ)}
    {result : Option (Option ℕ × FixedPool A)}
    (hpool : P.poolSize + A.ptrBytes < 2 ^ A.bits) (h : P.Served n rest result) :
    P.Delivers n result := by
  rcases h with rfl | ⟨q, P', L', rfl, hintact, hsize, hperm⟩
  · exact ⟨none, P, rfl, fun _ => ⟨rfl, rfl⟩, fun q hq => by cases hq⟩
  · have hdone := hintact.delivered (hperm.mem_iff.mpr List.mem_cons_self) hsize
    refine ⟨some q, P', rfl, fun hbig => ?_, ?_⟩
    · exact absurd hdone (not_delivered hpool (unrepresentable_iff.mp hbig).le)
    · rintro q' ⟨⟩
      exact hdone

namespace Intact

variable {P : FixedPool A} {L : List Block}

/-- A full pool is a tiling without free blocks. -/
theorem full_iff (h : P.Intact L) : P.Full ↔ ∀ x ∈ placed 0 L, x.2.tag ≠ none := by
  constructor
  · rintro ⟨blocks, hchain, hused⟩ ⟨i, len, tag⟩ hx rfl
    rw [hchain.unique h.chain] at hused
    exact hused i (List.mem_map_of_mem hx) (sizeAt_of_free (h.header _ hx)).1
  · refine fun hused => ⟨_, h.chain, fun i hi hzero => ?_⟩
    obtain ⟨⟨j, len, tag⟩, hx, rfl⟩ := List.mem_map.mp hi
    cases tag with
    | none => exact hused _ hx rfl
    | some r =>
        have hlarge := (h.wellSized _ (mem_of_mem_placed hx)).large
        dsimp only at hzero hlarge
        rw [sizeAt_of_used (h.header _ hx)] at hzero
        omega

/-- Where no free block fits, `allocate` returns null. -/
theorem allocate_null (h : P.Intact L) {n : ℕ}
    (hnone : ∀ x ∈ placed 0 L, Suits (realAllocation A n) x = false) :
    P.allocate n = some (none, P) := by
  rcases h.allocate_eq n with ⟨hnull, -⟩ | ⟨L₁, len, L₂, rfl, -, hle, -⟩
  · exact hnull
  · have hfits := hnone _ h.block_mem
    simp [Suits, hle] at hfits

/-- No block is as long as `Size` allows. -/
theorem not_suits_of_large (h : P.Intact L) (hpool : P.poolSize + A.ptrBytes < 2 ^ A.bits)
    {size : ℕ} (hsize : 2 ^ A.bits ≤ size + A.ptrBytes) {x : ℕ × Block}
    (hx : x ∈ placed 0 L) : Suits size x = false := by
  have hend := (mem_placed_bounds hx).2
  rw [Nat.zero_add, h.total_eq] at hend
  simp only [Suits, decide_eq_false_iff_not, not_and, not_le]
  omega

/-- **`allocate` serves a representable request**, and any request when the pool is full. -/
theorem allocate_served (h : P.Intact L) (hpool : P.poolSize + A.ptrBytes < 2 ^ A.bits)
    {n : ℕ} (hn : n + 2 * A.ptrBytes ≤ 2 ^ A.bits ∨ P.Full) :
    P.Served n (payloads A 0 L) (P.allocate n) := by
  rcases hn with hrep | hfull
  · by_cases hsmall : n + 3 * A.ptrBytes ≤ 2 ^ A.bits
    · rcases h.allocate_cases hsmall with hnull | ⟨q, P', L', hcall, hintact, hsize, hperm, -⟩
      · exact Or.inl hnull
      · exact Or.inr ⟨q, P', L', hcall, hintact, hsize, hperm⟩
    · exact Or.inl (h.allocate_null fun x hx =>
        h.not_suits_of_large hpool (le_realAllocation (not_le.mp hsmall) hrep) hx)
  · refine Or.inl (h.allocate_null fun x hx => ?_)
    simp [Suits, h.full_iff.mp hfull x hx]

/-- Any other request is given whatever is free. -/
theorem allocate_of_unrepresentable (h : P.Intact L) {n : ℕ} (hn : n < 2 ^ A.bits)
    (hbig : 2 ^ A.bits < n + 2 * A.ptrBytes) (hfree : ¬ P.Full) :
    ∃ q P', P.allocate n = some (some q, P') := by
  have hreal := realAllocation_le hn hbig
  have hfour := A.four_mul_ptrBytes_le
  rcases h.scan_cases (realAllocation A n) with ⟨-, hall⟩ | ⟨L₁, len, L₂, -, -, hsome, -⟩
  · -- a block is longer than a word, so a free one would have been found
    refine absurd (h.full_iff.mpr fun x hx htag => ?_) hfree
    have hlarge := (h.wellSized _ (mem_of_mem_placed hx)).large
    have hfits := hall x hx
    simp only [Suits, htag, true_and, decide_eq_false_iff_not, not_le] at hfits
    omega
  · exact ⟨_, _, allocate_of_some (by omega) hsome⟩

/-- **`reallocate` serves a request** unless its rounding wraps.  The block of the pointer is not
among those that must be kept; all others are, whether the block stays, moves, or there is no room.
-/
theorem reallocate_served (h : P.Intact L) (hpool : P.poolSize + A.ptrBytes < 2 ^ A.bits)
    {p r n : ℕ} (hlive : (p, r) ∈ payloads A 0 L) (hn : n + 2 * A.ptrBytes < 2 ^ A.bits) :
    P.Served n ((payloads A 0 L).erase (p, r)) (P.reallocate (some p) n) := by
  by_cases hsmall : n + 3 * A.ptrBytes < 2 ^ A.bits
  · rcases h.reallocate_cases hlive hsmall with
      hnull | ⟨q, P', L', hcall, hintact, hsize, hperm, -⟩
    · exact Or.inl hnull
    · exact Or.inr ⟨q, P', L', hcall, hintact, hsize, hperm⟩
  · -- the new size is longer than any block
    have hnew := le_reallocSize (not_lt.mp hsmall) hn
    have hlt : P.sizeAt (p - A.ptrBytes) < reallocSize A n := by
      obtain ⟨L₁, len, L₂, rfl, rfl⟩ := mem_payloads hlive
      have hin := h.block_le
      dsimp only at hin
      rw [Nat.zero_add, Nat.add_sub_cancel, sizeAt_of_used h.block_header]
      omega
    by_cases hlast : n + 3 * A.ptrBytes = 2 ^ A.bits
    · rcases h.reallocate_by_move hlive hlast.le hlt with
        hnull | ⟨q, P', L', hcall, hintact, hsize, hperm, -⟩
      · exact Or.inl hnull
      · exact Or.inr ⟨q, P', L', hcall, hintact, hsize, hperm⟩
    · have hnull := h.allocate_null fun x hx => h.not_suits_of_large hpool
        (le_realAllocation (n := n) (by omega) hn.le) hx
      exact Or.inl (reallocate_of_none hlt hnull)

/-- Any other request is met with the pointer that was passed. -/
theorem reallocate_of_unrepresentable (h : P.Intact L) {p r n : ℕ}
    (hlive : (p, r) ∈ payloads A 0 L) (hn : n < 2 ^ A.bits)
    (hbig : 2 ^ A.bits ≤ n + 2 * A.ptrBytes) :
    ∃ P', P.reallocate (some p) n = some (some p, P') := by
  obtain ⟨L₁, len, L₂, rfl, rfl⟩ := mem_payloads hlive
  have hlarge := h.block_wellSized.large
  have hnew := reallocSize_le hn hbig
  dsimp only at hlarge
  simp only [reallocate, Nat.zero_add, Nat.add_sub_cancel, sizeAt_of_used h.block_header,
    if_pos (hnew.trans hlarge.le)]
  split
  · exact ⟨_, rfl⟩
  · exact ⟨_, rfl⟩

end Intact

end FixedPool

namespace PoolSession

variable {A : Target}

/-- The request is representable, or wraps where that does no harm: `allocate` has no free
block to give. -/
def Representable (s : PoolSession A) : PoolCall → Prop
  | .allocate size => size + 2 * A.ptrBytes ≤ 2 ^ A.bits ∨ s.pool.Full
  | .reallocate _ size => size + 2 * A.ptrBytes < 2 ^ A.bits
  | _ => True

theorem Tiled.step_of_representable {s t : PoolSession A} {L : List Block} {c : PoolCall}
    (h : s.Tiled L) (hpool : s.pool.poolSize + A.ptrBytes < 2 ^ A.bits)
    (hc : s.Representable c) (hstep : Step s c t) :
    ∃ L', t.Tiled L' ∧ t.pool.poolSize = s.pool.poolSize := by
  cases hstep with
  | allocate hcall =>
      have hserved := h.intact.allocate_served hpool hc
      rw [hcall] at hserved
      obtain ⟨L', hintact, hsize, hpay⟩ := hserved.intact
      exact ⟨L', ⟨hintact, (h.live.cons _).trans hpay.symm⟩, hsize⟩
  | allocate_null hcall =>
      have hserved := h.intact.allocate_served hpool hc
      rw [hcall] at hserved
      obtain rfl := hserved.unchanged
      exact ⟨L, h, rfl⟩
  | deallocate hlive =>
      obtain ⟨L', htiled, hsize, -⟩ := h.step (c := .deallocate _) trivial (Step.deallocate hlive)
      exact ⟨L', htiled, hsize⟩
  | reallocate hlive hcall =>
      have hserved := h.intact.reallocate_served hpool (h.live.mem_iff.mp hlive) hc
      rw [hcall] at hserved
      obtain ⟨L', hintact, hsize, hpay⟩ := hserved.intact
      exact ⟨L', ⟨hintact, ((h.live.erase _).cons _).trans hpay.symm⟩, hsize⟩
  | reallocate_null hlive hcall =>
      have hserved := h.intact.reallocate_served hpool (h.live.mem_iff.mp hlive) hc
      rw [hcall] at hserved
      obtain rfl := hserved.unchanged
      exact ⟨L, h, rfl⟩
  | store hlive hin =>
      obtain ⟨L', htiled, hsize, -⟩ := h.step (c := .store _ _ _) trivial (Step.store hlive hin)
      exact ⟨L', htiled, hsize⟩

/-- A session stays tiled along a run. -/
theorem Tiled.run_of_representable {s t : PoolSession A} {L : List Block}
    {calls : List PoolCall} (h : s.Tiled L)
    (hpool : s.pool.poolSize + A.ptrBytes < 2 ^ A.bits)
    (hrun : Run (Guarded Step Representable) s calls t) :
    ∃ L', t.Tiled L' ∧ t.pool.poolSize = s.pool.poolSize := by
  refine hrun.invariant (I := fun t => ∃ L', t.Tiled L' ∧
    t.pool.poolSize = s.pool.poolSize) ?_ ⟨L, h, rfl⟩
  rintro t c t' ⟨L', htiled, hsize⟩ ⟨hc, hstep⟩
  obtain ⟨L'', htiled', hsize'⟩ := htiled.step_of_representable (hsize ▸ hpool) hc hstep
  exact ⟨L'', htiled', hsize'.trans hsize⟩

/-- What `allocate` returns is right for representable requests only. -/
theorem Tiled.allocate_delivers_iff {s : PoolSession A} {L : List Block} (h : s.Tiled L)
    (hpool : s.pool.poolSize + A.ptrBytes < 2 ^ A.bits) {n : ℕ} (hn : n < 2 ^ A.bits) :
    s.pool.Delivers n (s.pool.allocate n) ↔ s.Representable (.allocate n) := by
  constructor
  · intro hright
    by_contra hnot
    obtain ⟨hbig, hfree⟩ := not_or.mp hnot
    obtain ⟨q, P', hcall⟩ := h.intact.allocate_of_unrepresentable hn (not_le.mp hbig) hfree
    rw [hcall] at hright
    exact not_delivers hpool (not_le.mp hbig).le hright
  · exact fun hrep => (h.intact.allocate_served hpool hrep).delivers hpool

/-- What `reallocate` returns is right for requests that do not wrap only. -/
theorem Tiled.reallocate_delivers_iff {s : PoolSession A} {L : List Block} (h : s.Tiled L)
    (hpool : s.pool.poolSize + A.ptrBytes < 2 ^ A.bits) {x : ℕ × ℕ} (hx : x ∈ s.live) {n : ℕ}
    (hn : n < 2 ^ A.bits) :
    s.pool.Delivers n (s.pool.reallocate (some x.1) n) ↔
      s.Representable (.reallocate x.1 n) := by
  have hlive := h.live.mem_iff.mp hx
  constructor
  · intro hright
    by_contra hnot
    obtain ⟨P', hcall⟩ := h.intact.reallocate_of_unrepresentable hlive hn (not_lt.mp hnot)
    rw [hcall] at hright
    exact not_delivers hpool (not_lt.mp hnot) hright
  · exact fun hrep => (h.intact.reallocate_served hpool hlive hrep).delivers hpool

/-- **Requests near the end of `Size`.**  The pool lies at `base` and does not reach the
end of the address space.  In every state reached by representable requests, and for every
value of `Size`, `allocate` and `reallocate` return what was asked for, or null without
touching the pool, if and only if the request is representable as well. -/
theorem delivers_iff_of_run {base size : ℕ} {m : ByteMemory} {calls : List PoolCall}
    {s : PoolSession A} (hbase : A.ptrBytes ∣ base) (hnonnull : 0 < base)
    (hend : base + size < 2 ^ A.bits) (hlarge : A.ptrBytes < size)
    (hrun : Run (Guarded Step Representable) (start m size) calls s) {n : ℕ}
    (hn : n < 2 ^ A.bits) :
    (s.pool.Delivers n (s.pool.allocate n) ↔ s.Representable (.allocate n)) ∧
      (s.pool.Delivers n (s.pool.reallocate none n) ↔ s.Representable (.allocate n)) ∧
      ∀ x ∈ s.live, (s.pool.Delivers n (s.pool.reallocate (some x.1) n) ↔
        s.Representable (.reallocate x.1 n)) := by
  have hword : A.ptrBytes ≤ base := Nat.le_of_dvd hnonnull hbase
  have hstart : (start m size : PoolSession A).pool.poolSize = size := rfl
  obtain ⟨L, htiled, hsize⟩ := (Tiled.of_start m hlarge (by omega)).run_of_representable
    (by omega) hrun
  have hpool : s.pool.poolSize + A.ptrBytes < 2 ^ A.bits := by omega
  exact ⟨htiled.allocate_delivers_iff hpool hn, htiled.allocate_delivers_iff hpool hn,
    fun x hx => htiled.reallocate_delivers_iff hpool hx hn⟩

/-- The whole pool is given away, and then there is no harm in a request that wraps. -/
theorem delivers_iff_of_run_full :
    ∃ s : PoolSession ⟨3⟩, Run (Guarded Step Representable) (start (fun _ => 0) 32)
      [.allocate 24] s ∧
      (s.pool.Delivers (2 ^ 64 - 8) (s.pool.allocate (2 ^ 64 - 8)) ↔
        s.Representable (.allocate (2 ^ 64 - 8))) ∧
      (s.pool.Delivers (2 ^ 64 - 8) (s.pool.reallocate none (2 ^ 64 - 8)) ↔
        s.Representable (.allocate (2 ^ 64 - 8))) ∧
      ∀ x ∈ s.live, (s.pool.Delivers (2 ^ 64 - 8) (s.pool.reallocate (some x.1) (2 ^ 64 - 8)) ↔
        s.Representable (.reallocate x.1 (2 ^ 64 - 8))) := by
  have hrun : ∃ s : PoolSession ⟨3⟩, Run (Guarded Step Representable)
      (start (fun _ => 0) 32) [.allocate 24] s :=
    ⟨_, Run.cons ⟨Or.inl (by decide), Step.allocate (p := 8) rfl⟩ (Run.nil _)⟩
  obtain ⟨s, hcalls⟩ := hrun
  exact ⟨s, hcalls, @delivers_iff_of_run ⟨3⟩ 4096 32 _ _ s (by decide) (by decide) (by decide)
    (by decide) hcalls _ (by decide)⟩

/-- A fresh pool of 64 bytes answers a request for all but 8 bytes of the address space
with a pointer, and a payload of 16 bytes is resized in place to all but 16. -/
theorem not_delivers_near_end :
    ¬ (start (fun _ => 0) 64 : PoolSession ⟨3⟩).pool.Delivers (2 ^ 64 - 8)
      ((start (fun _ => 0) 64 : PoolSession ⟨3⟩).pool.allocate (2 ^ 64 - 8)) ∧
    ∃ s : PoolSession ⟨3⟩, Run Step (start (fun _ => 0) 64) [.allocate 16] s ∧
      (8, 16) ∈ s.live ∧
      ¬ s.pool.Delivers (2 ^ 64 - 16) (s.pool.reallocate (some 8) (2 ^ 64 - 16)) := by
  constructor
  · have hcall : ∃ P', (start (fun _ => 0) 64 : PoolSession ⟨3⟩).pool.allocate (2 ^ 64 - 8) =
        some (some 8, P') := ⟨_, rfl⟩
    obtain ⟨P', hcall⟩ := hcall
    rw [hcall]
    exact not_delivers (by decide) (by decide)
  · refine ⟨_, Run.cons (Step.allocate (p := 8) rfl) (Run.nil _), List.mem_cons_self, ?_⟩
    exact not_delivers (q := 8) (by decide) (by decide)

end PoolSession

end Tklb
