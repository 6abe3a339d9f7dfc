import Mathlib.Algebra.BigOperators.Group.List.Basic
import Tklb.FixedPool.Integrity

/-!
# The counter of a `FixedPool`

`allocate` adds the length of the block it takes and `deallocate` subtracts the
length of the block it frees, so `allocatedSpace` is the length of all allocated
blocks.  `reallocate` keeps it so in three of its four outcomes; when it cuts a
block in two it frees the rest without subtracting it (`Splits`), and from then
on the counter is too high by the length of the rest.

`counts_of_run` is the accounting for the runs without such a call.

### What is load-bearing

`Counts` excludes one outcome of `reallocate`, the one that cuts a block in two and keeps the
pointer, and requests whose arithmetic leaves `Size`.  Both are conditions on a call and the
state before it.  `Accounted` is then kept by every step (`Tiled.step` says what the counter
does), and since the tiling knows the length of each block, the sums of the claim are sums over
the tiling.

`free()` is the length of the pool without the counter, so what is said of one is said of the
other; the words of the headers count as allocated, as in the source.
-/

namespace Tklb

open Foundation FixedPool

namespace PoolSession

variable {A : Target}

/-- No computation leaves `Size`, and no block is cut in two in place.  The second condition is read
off the header of the block before the call. -/
def Counts (s : PoolSession A) (c : PoolCall) : Prop := s.NonWrapping c ∧ ¬ s.Splits c

/-- `allocated()` and `free()` are the sums over the blocks.  The sum over the live pointers takes
the lengths from the headers, which may be more than was asked for. -/
structure Accounted (s : PoolSession A) : Prop where
  allocated : s.pool.allocated =
    (s.live.map fun x => s.pool.sizeAt (x.1 - A.ptrBytes)).sum
  free : ∃ blocks, Visits s.pool.nextBlock 0 blocks s.pool.poolSize ∧
    s.pool.free =
      ((blocks.filter fun i => s.pool.sizeAt i = 0).map s.pool.spaceAt).sum
  /-- The assertion of the destructor. -/
  balanced : s.live = [] → s.pool.allocated = 0

/-! ### The sums over a tiling -/

section Sums

variable {P : FixedPool A} {L : List Block}

/-- The lengths of the allocated blocks, read from the headers. -/
theorem sum_sizeAt_payloads : ∀ {o : ℕ}, (∀ x ∈ placed o L, Header A P.memory x) →
    ((payloads A o L).map fun x => P.sizeAt (x.1 - A.ptrBytes)).sum = usedSpace L := by
  induction L with
  | nil => simp
  | cons e L ih =>
      intro o hheader
      have hhead := hheader (o, e) List.mem_cons_self
      have hrest := ih fun x hx => hheader x (List.mem_cons_of_mem _ hx)
      obtain ⟨len, tag⟩ := e
      cases tag with
      | none => rw [payloads_cons_free, usedSpace_cons_free, hrest]
      | some r =>
          rw [payloads_cons_used, usedSpace_cons_used, List.map_cons, List.sum_cons,
            hrest, Nat.add_sub_cancel, sizeAt_of_used hhead]

/-- The lengths of the free blocks, read from the headers. -/
theorem sum_spaceAt_placed : ∀ {o : ℕ}, (∀ e ∈ L, WellSized A e) →
    (∀ x ∈ placed o L, Header A P.memory x) →
    usedSpace L + ((((placed o L).map Prod.fst).filter
      fun i => P.sizeAt i = 0).map P.spaceAt).sum = total L := by
  have hword := A.ptrBytes_pos
  induction L with
  | nil => simp
  | cons e L ih =>
      intro o hwell hheader
      have hhead := hheader (o, e) List.mem_cons_self
      have hlarge := (hwell e List.mem_cons_self).large
      have hrest := ih (o := o + e.len) (fun b hb => hwell b (List.mem_cons_of_mem _ hb))
        fun x hx => hheader x (List.mem_cons_of_mem _ hx)
      obtain ⟨len, tag⟩ := e
      dsimp only at hlarge hrest
      rw [placed_cons, List.map_cons, total_cons]
      cases tag with
      | none =>
          obtain ⟨hzero, hspace⟩ := sizeAt_of_free hhead
          rw [List.filter_cons_of_pos (by simpa using hzero), usedSpace_cons_free,
            List.map_cons, List.sum_cons, hspace]
          dsimp only
          omega
      | some r =>
          have hused := sizeAt_of_used hhead
          rw [List.filter_cons_of_neg (by simp only [decide_eq_true_eq]; omega),
            usedSpace_cons_used]
          dsimp only
          omega

end Sums

/-- A right counter gives the right sums. -/
theorem Tiled.accounted {s : PoolSession A} {L : List Block} (h : s.Tiled L)
    (hcounted : s.pool.Counted L) : s.Accounted := by
  have hused := sum_sizeAt_payloads h.intact.header
  have hfree := sum_spaceAt_placed h.intact.wellSized h.intact.header
  have hallocated : s.pool.allocated =
      (s.live.map fun x => s.pool.sizeAt (x.1 - A.ptrBytes)).sum := by
    rw [(h.live.map _).sum_eq, hused]
    exact hcounted
  refine ⟨hallocated, ⟨_, h.walk, ?_⟩, fun hnone => ?_⟩
  · have htotal := h.intact.total_eq
    have hbound := usedSpace_le_total L
    have hpool := h.intact.poolSize_lt
    rw [free, hcounted, wsub_of_le hpool (by omega)]
    omega
  · rw [hallocated, hnone]
    rfl

/-- A pool too small for a header has one free block, of which nothing is taken. -/
theorem accounted_of_small {m : ByteMemory} {size : ℕ} (hsmall : size < 2 * A.ptrBytes) :
    (start m size : PoolSession A).Accounted := by
  have hbig := A.four_mul_ptrBytes_le
  have hfree : (start m size : PoolSession A).pool.free = size := by
    rw [free]
    exact wsub_of_le (show size < 2 ^ A.bits by omega) (Nat.zero_le _)
  have hsizeAt : (start m size : PoolSession A).pool.sizeAt 0 = 0 := sizeAt_construct m size
  have hspaceAt : (start m size : PoolSession A).pool.spaceAt 0 = size :=
    spaceAt_construct m (by omega)
  refine ⟨rfl, ?_, fun _ => rfl⟩
  by_cases hzero : size = 0
  · exact ⟨[], by rw [hzero]; rfl, by rw [hfree, hzero]; rfl⟩
  · refine ⟨[0], ⟨rfl, ?_⟩, ?_⟩
    · rw [visits_nil, nextBlock, stepAt, if_pos hsizeAt, hspaceAt, Nat.zero_add,
        wrap_of_lt (by omega)]
      rfl
    · rw [hfree, List.filter_cons_of_pos (by simpa using hsizeAt)]
      simpa using hspaceAt.symm

/-! ### Every run -/

/-- **The accounting.**  In every state reached by calls that do not cut a block
in two in place, `allocated()` is the sum of `block.size` over the live blocks
and `free()` the sum of `block.space` over the free ones; so `allocated()` is `0`
once every pointer has been given back. -/
theorem accounted_of_run {size : ℕ} {m : ByteMemory} {calls : List PoolCall}
    {s : PoolSession A} (_haligned : A.ptrBytes ∣ size) (hlt : size < 2 ^ A.bits)
    (hrun : Run (Guarded Step Counts) (start m size) calls s) : s.Accounted := by
  by_cases hsmall : size < 2 * A.ptrBytes
  · rw [run_of_small hsmall (hrun.mono fun _ _ _ h => ⟨h.1.1, h.2⟩)]
    exact accounted_of_small hsmall
  · have hstart : ∃ L, (start m size : PoolSession A).Tiled L ∧
        (start m size : PoolSession A).pool.Counted L :=
      ⟨_, Tiled.of_start m (by have := A.ptrBytes_pos; omega) hlt, rfl⟩
    have hstep : ∀ (t : PoolSession A) c t', (∃ L, t.Tiled L ∧ t.pool.Counted L) →
        Guarded Step Counts t c t' → ∃ L, t'.Tiled L ∧ t'.pool.Counted L := by
      rintro t c t' ⟨L, htiled, hcounted⟩ ⟨⟨hc, hkeep⟩, hone⟩
      obtain ⟨L', htiled', -, hcount⟩ := htiled.step hc hone
      exact ⟨L', htiled', hcount hcounted hkeep⟩
    obtain ⟨L, htiled, hcounted⟩ := hrun.invariant hstep hstart
    exact htiled.accounted hcounted

/-- A block is taken, kept by a smaller request, and given back. -/
theorem accounted_of_run_kept :
    ∃ s : PoolSession ⟨3⟩, Run (Guarded Step Counts) (start (fun _ => 0) 64)
      [.allocate 24, .reallocate 8 8, .deallocate 8] s ∧ s.Accounted := by
  have hrun : ∃ s : PoolSession ⟨3⟩, Run (Guarded Step Counts) (start (fun _ => 0) 64)
      [.allocate 24, .reallocate 8 8, .deallocate 8] s :=
    ⟨_, Run.cons ⟨⟨(by decide : 24 + 3 * 8 ≤ 2 ^ 64), id⟩, Step.allocate (p := 8) rfl⟩
      (Run.cons ⟨⟨(by decide : 8 + 3 * 8 < 2 ^ 64), (by decide : ¬ 24 + 8 < 32)⟩,
        Step.reallocate (r := 24) (q := 8) List.mem_cons_self rfl⟩
      (Run.cons ⟨⟨trivial, id⟩, Step.deallocate (r := 8) List.mem_cons_self⟩
        (Run.nil _)))⟩
  obtain ⟨s, hcalls⟩ := hrun
  exact ⟨s, hcalls, accounted_of_run (by decide) (by decide) hcalls⟩

/-- A block of 48 bytes is cut down to 24 and given back: no pointer is live, and
the counter stands at 24. -/
theorem not_accounted_after_shrink :
    ∃ s : PoolSession ⟨3⟩, Run (Guarded Step NonWrapping) (start (fun _ => 0) 64)
      [.allocate 40, .reallocate 8 8, .deallocate 8] s ∧ s.live = [] ∧
      s.pool.allocated = 24 ∧ ¬ s.Accounted := by
  have hrun : ∃ s : PoolSession ⟨3⟩, Run (Guarded Step NonWrapping)
      (start (fun _ => 0) 64) [.allocate 40, .reallocate 8 8, .deallocate 8] s ∧
      s.live = [] ∧ s.pool.allocated = 24 :=
    ⟨_, Run.cons ⟨(by decide : 40 + 3 * 8 ≤ 2 ^ 64), Step.allocate (p := 8) rfl⟩
      (Run.cons ⟨(by decide : 8 + 3 * 8 < 2 ^ 64),
        Step.reallocate (r := 40) (q := 8) List.mem_cons_self rfl⟩
      (Run.cons ⟨trivial, Step.deallocate (r := 8) List.mem_cons_self⟩
        (Run.nil _))), rfl, rfl⟩
  obtain ⟨s, hcalls, hlive, hcounter⟩ := hrun
  refine ⟨s, hcalls, hlive, hcounter, fun haccounted => ?_⟩
  have := haccounted.balanced hlive
  omega

end PoolSession

end Tklb
