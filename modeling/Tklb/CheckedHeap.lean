import Mathlib.Data.List.Basic
import Tklb.Foundation.LentMemory
import Tklb.MagicBlock

/-!
# `tklb_malloc` and `tklb_free`

With `TKLB_MEMORY_CHECK` every allocation is larger by two `MagicBlock`s than what was asked for.
`tklb_malloc` puts the blocks around the payload and returns the payload; `tklb_free` looks at
the blocks, asserts if one of them is not what it was, and gives the allocation back, unless it
does not trust the first block.

### The C library

`malloc` and `free` of the C library are what their documentation says: `malloc` returns memory
that does not overlap what it has returned before, or `nullptr`, and `free` takes back what
`malloc` has returned.  `tklb_malloc` looks at neither the pointer nor the size it asks for: a
request that is refused, or whose size wraps, makes `construct` write the two blocks where the
program owns nothing, and the call has no result (`CheckedHeap.tklbMalloc`).  A failed
assertion is counted and the program goes on.

### Sessions

A session is any program that calls the two functions in any order and writes to its payloads, and
possibly out of the end of them, not further than the second block reaches (`Step`); calls
without a result are no steps.  It is a run of memory that is lent (`step_view`), whatever is
written, so the contract of an allocator can be read off `LentMemory` (`run_keeps_contract`).

What is written out of a payload is found when that payload is freed, and the invariant that
carries this is that the first blocks are untouched (`Intact`): then the second block is
where `check` looks for it, and the assertion fails exactly if that block does not pass
(`Intact.tklbFree`, `alarm_iff`).
-/

namespace Tklb

open Foundation

namespace MagicBlock

/-- `sizeNeeded()` -/
def sizeNeeded (A : Target) : ℕ := 2 * blockBytes A

end MagicBlock

open MagicBlock

/-- The memory, what `malloc` has returned and `free` has not taken back, how often an assertion
of `tklb_free` has failed, and how often `free` was called with a pointer that `malloc` has not
returned. -/
structure CheckedHeap (A : Target) where
  memory : ByteMemory
  system : List Stretch
  asserts : ℕ
  misfrees : ℕ

namespace CheckedHeap

variable {A : Target}

/-- `free(p)` -/
def free (h : CheckedHeap A) (p : ℕ) : CheckedHeap A :=
  match h.system.find? fun r => r.first = p with
  | some r => { h with system := h.system.erase r }
  | none => { h with misfrees := h.misfrees + 1 }

/-- A block at this address lies in memory `malloc` has returned. -/
def readable (h : CheckedHeap A) (block : ℕ) : Bool :=
  h.system.any fun r => r.first ≤ block && block + blockBytes A ≤ r.first + r.length

/-- `tklb_malloc(bytes)`, where `malloc` returns `allocation`, and `none` is `nullptr`: the heap
and the pointer that is returned.  There is no result where the two blocks are written
somewhere else. -/
def tklbMalloc (h : CheckedHeap A) (bytes : ℕ) (allocation : Option ℕ) :
    Option (CheckedHeap A × ℕ) :=
  allocation.bind fun allocation =>
    let request := wrap A.bits (bytes + sizeNeeded A)
    if request < bytes + sizeNeeded A then none
    else
      let r := construct A h.memory allocation bytes
      some ({ h with memory := r.2, system := ⟨allocation, request⟩ :: h.system }, r.1)

/-- `tklb_free(ptr)` -/
def tklbFree (h : CheckedHeap A) : Option ℕ → Option (CheckedHeap A)
  | none => some h
  | some ptr =>
      (check A h.memory h.readable ptr).map fun result =>
        let h :=
          if result.overrun || result.underrun then { h with asserts := h.asserts + 1 } else h
        if !result.underrun then h.free result.ptr else h

end CheckedHeap

namespace MagicBlock.Region

variable {A : Target}

instance : DecidableEq (Region A) := fun R R' =>
  decidable_of_iff (R.allocation = R'.allocation ∧ R.bytes = R'.bytes) (by
    cases R
    cases R'
    simp only [mk.injEq])

/-- What the program sees. -/
def payload (R : Region A) : Stretch := ⟨R.useableSpace, R.bytes⟩

/-- The payload and the two blocks. -/
def padded (R : Region A) : Stretch := ⟨R.allocation, R.bytes + sizeNeeded A⟩

end MagicBlock.Region

/-- A program and its heap: the allocations it has not freed.  A program may hold several, and each
has the two blocks around it; what is in the payloads is the program's own business. -/
structure CheckedSession (A : Target) where
  heap : CheckedHeap A
  live : List (Region A)

namespace CheckedSession

variable {A : Target}

/-- A program that has not done anything. -/
def start (memory : ByteMemory) : CheckedSession A := ⟨⟨memory, [], 0, 0⟩, []⟩

/-- What the program does.  `malloc` keeps to its documentation, and so does the program with what
it frees; a write starts in a payload or in the block behind it. -/
inductive Step (s : CheckedSession A) : LentCall UInt8 → CheckedSession A → Prop
  | malloc {R : Region A} {heap : CheckedHeap A} {ptr : ℕ}
      (hcall : s.heap.tklbMalloc R.bytes (some R.allocation) = some (heap, ptr))
      (hapart : ∀ r ∈ s.heap.system, R.padded.Apart r) :
      Step s (.lend ⟨ptr, R.bytes⟩) ⟨heap, R :: s.live⟩
  | write {R : Region A} {x : ℕ} {v : UInt8} (hR : R ∈ s.live) (hle : R.useableSpace ≤ x)
      (hlt : x < R.endBlock + blockBytes A) :
      Step s (.write x v)
        ⟨{ s.heap with memory := Function.update s.heap.memory x v }, s.live⟩
  | free {R : Region A} {heap : CheckedHeap A} (hR : R ∈ s.live)
      (hcall : s.heap.tklbFree (some R.useableSpace) = some heap) :
      Step s (.giveBack (some R.useableSpace)) ⟨heap, s.live.erase R⟩
  | free_null {heap : CheckedHeap A} (hcall : s.heap.tklbFree none = some heap) :
      Step s (.giveBack none) ⟨heap, s.live⟩

/-- A write stays in a payload.  Where the payload is does not matter, nor what is written there. -/
def Disciplined (s : CheckedSession A) : LentCall UInt8 → Prop
  | .write x _ => ∃ R ∈ s.live, R.payload.Contains x
  | _ => True

/-- What the program sees of its memory. -/
def view (s : CheckedSession A) : LentMemory UInt8 := ⟨s.live.map Region.payload, s.heap.memory⟩

/-- **The invariant.**  Every allocation that the program holds is one that `malloc` has returned,
they do not overlap, and their first blocks are untouched. -/
structure Intact (s : CheckedSession A) : Prop where
  system : s.heap.system = s.live.map Region.padded
  apart : s.live.Pairwise fun R R' => R.padded.Apart R'.padded
  starts : ∀ R ∈ s.live, HasBlock A s.heap.memory R.allocation R.bytes true
  misfrees : s.heap.misfrees = 0

/-- The second blocks are untouched, too, and no assertion has failed.  This is what a program that
stays in its payloads has in addition to the invariant, and no longer has after the first write
behind one. -/
structure Sealed (s : CheckedSession A) : Prop where
  ends : ∀ R ∈ s.live, HasBlock A s.heap.memory R.endBlock R.bytes false
  asserts : s.heap.asserts = 0

end CheckedSession

/-! ### Regions that do not overlap -/

namespace MagicBlock.Region

variable {A : Target} {R R' : Region A}

theorem blockBytes_pos (A : Target) : 0 < blockBytes A := Nat.succ_pos _

theorem padded_first : R.padded.first = R.allocation := rfl

theorem padded_end : R.padded.first + R.padded.length = R.endBlock + blockBytes A := by
  simp only [padded, endBlock, useableSpace, sizeNeeded]
  omega

theorem payload_end : R.payload.first + R.payload.length = R.endBlock := rfl

theorem padded_injective : Function.Injective (Region.padded (A := A)) := by
  intro R R' h
  obtain ⟨hfirst, hlength⟩ := Stretch.mk.inj h
  cases R
  cases R'
  dsimp only at hfirst hlength
  subst hfirst
  obtain rfl := Nat.add_right_cancel hlength
  rfl

theorem payload_injective : Function.Injective (Region.payload (A := A)) := by
  intro R R' h
  obtain ⟨hfirst, hlength⟩ := Stretch.mk.inj h
  cases R
  cases R'
  dsimp only [useableSpace] at hfirst hlength
  obtain rfl := Nat.add_right_cancel hfirst
  subst hlength
  rfl

/-- Regions that do not overlap start at different addresses. -/
theorem allocation_ne (h : R.padded.Apart R'.padded) : R.allocation ≠ R'.allocation := by
  intro heq
  have hpos := blockBytes_pos A
  unfold Stretch.Apart at h
  simp only [padded, sizeNeeded] at h
  omega

theorem payload_apart (h : R.padded.Apart R'.padded) : R.payload.Apart R'.payload := by
  refine h.mono ?_ ?_ ?_ ?_
  · exact Nat.le_add_right _ _
  · rw [padded_end, payload_end]
    exact Nat.le_add_right _ _
  · exact Nat.le_add_right _ _
  · rw [padded_end, payload_end]
    exact Nat.le_add_right _ _

/-- `construct` writes to its region only. -/
theorem prepared_of_apart {r : Stretch} (h : R.padded.Apart r) {m : ByteMemory} {x : ℕ}
    (hx : r.Contains x) : R.prepared m x = m x := by
  have hnot : ¬ R.padded.Contains x := fun hR => h.not_contains hR hx
  unfold Stretch.Contains at hnot
  rw [padded_end, padded_first, endBlock, useableSpace] at hnot
  refine (writeBlock_of_outside ?_).trans (writeBlock_of_outside ?_)
  · omega
  · omega

/-- The block behind the payload passes the test of `check`.  The magic string is the one that its
flag names, whichever that is, and the size is the one in the first block. -/
def EndPasses (R : Region A) (m : ByteMemory) : Prop :=
  checkMagicString A m R.endBlock = true ∧ sizeAt A m R.endBlock = R.bytes

instance (R : Region A) (m : ByteMemory) : Decidable (R.EndPasses m) :=
  inferInstanceAs (Decidable (_ ∧ _))

/-- `check` when the first block is untouched, and the second can be read. -/
theorem check_of_start {m : ByteMemory} {readable : ℕ → Bool}
    (hstart : HasBlock A m R.allocation R.bytes true)
    (hread : readable R.allocation = true) (hread' : readable R.endBlock = true) :
    check A m readable R.useableSpace =
      some (if R.EndPasses m then ⟨R.allocation, R.bytes, false, false⟩
        else ⟨R.allocation, 0, false, true⟩) := by
  have hsize : sizeAt A m R.allocation = R.bytes := hstart.size
  have hfound : R.useableSpace + R.bytes = R.endBlock := rfl
  simp only [check, R.startBlock_eq, hread, hstart.checkMagicString, hsize, hfound, hread',
    Bool.not_true, Bool.false_eq_true, if_false, if_true]
  by_cases hmagic : checkMagicString A m R.endBlock = true
  · by_cases hend : sizeAt A m R.endBlock = R.bytes
    · rw [if_pos (show R.EndPasses m from ⟨hmagic, hend⟩), if_pos hmagic,
        if_neg (not_not.mpr hend.symm)]
    · rw [if_neg (show ¬ R.EndPasses m from fun h => hend h.2), if_pos hmagic,
        if_pos (Ne.symm hend)]
  · rw [if_neg (show ¬ R.EndPasses m from fun h => hmagic h.1), if_neg hmagic]

end MagicBlock.Region

/-! ### What the steps keep -/

namespace CheckedSession

variable {A : Target} {s t : CheckedSession A} {R R' : Region A}

theorem intact_start (memory : ByteMemory) : (start memory : CheckedSession A).Intact where
  system := rfl
  apart := List.Pairwise.nil
  starts := nofun
  misfrees := rfl

instance : Std.Symm fun R R' : Region A => R.padded.Apart R'.padded :=
  ⟨fun _ _ happart => Std.Symm.symm _ _ happart⟩

theorem Intact.apart_of_ne (h : s.Intact) (hR : R ∈ s.live) (hR' : R' ∈ s.live) (hne : R ≠ R') :
    R.padded.Apart R'.padded :=
  h.apart.forall hR hR' hne

/-- `free` finds what `malloc` has returned. -/
theorem Intact.free_eq (h : s.Intact) (hR : R ∈ s.live) {heap : CheckedHeap A}
    (hsystem : heap.system = s.heap.system) :
    heap.free R.allocation = { heap with system := (s.live.erase R).map Region.padded } := by
  have hfound : heap.system.find? (fun r => r.first = R.allocation) = some R.padded := by
    rw [hsystem, h.system]
    cases hfind : (s.live.map Region.padded).find? fun r => decide (r.first = R.allocation) with
    | none =>
        have hnone := List.find?_eq_none.mp hfind R.padded (List.mem_map_of_mem hR)
        exact absurd (decide_eq_true rfl) hnone
    | some r =>
        obtain ⟨R', hR', rfl⟩ := List.mem_map.mp (List.mem_of_find?_eq_some hfind)
        have hfirst := List.find?_some hfind
        rw [decide_eq_true_eq] at hfirst
        by_cases hne : R' = R
        · rw [hne]
        · exact absurd hfirst (Region.allocation_ne (h.apart_of_ne hR' hR hne))
  rw [CheckedHeap.free, hfound]
  dsimp only
  rw [hsystem, h.system, List.map_erase Region.padded_injective]

/-- Both blocks of an allocation can be read. -/
theorem Intact.readable (h : s.Intact) (hR : R ∈ s.live) :
    s.heap.readable R.allocation = true ∧ s.heap.readable R.endBlock = true := by
  have hmem : R.padded ∈ s.heap.system := h.system ▸ List.mem_map_of_mem hR
  have hend := Region.padded_end (R := R)
  rw [Region.padded_first] at hend
  have hle : R.allocation ≤ R.endBlock :=
    (Nat.le_add_right _ _).trans (Nat.le_add_right _ _)
  constructor
  · refine List.any_eq_true.mpr ⟨R.padded, hmem, ?_⟩
    rw [Bool.and_eq_true, decide_eq_true_eq, decide_eq_true_eq, Region.padded_first]
    omega
  · refine List.any_eq_true.mpr ⟨R.padded, hmem, ?_⟩
    rw [Bool.and_eq_true, decide_eq_true_eq, decide_eq_true_eq, Region.padded_first]
    omega

/-- **Freeing** gives the allocation back, and asserts if the block behind it does not pass. -/
theorem Intact.tklbFree (h : s.Intact) (hR : R ∈ s.live) :
    s.heap.tklbFree (some R.useableSpace) =
      some { s.heap with
        system := (s.live.erase R).map Region.padded
        asserts := s.heap.asserts + if R.EndPasses s.heap.memory then 0 else 1 } := by
  obtain ⟨hread, hread'⟩ := h.readable hR
  rw [CheckedHeap.tklbFree, Region.check_of_start (h.starts R hR) hread hread',
    Option.map_some]
  by_cases hpasses : R.EndPasses s.heap.memory
  · simp only [if_pos hpasses, Bool.or_self, Bool.false_eq_true, if_false, Bool.not_false, if_true]
    exact congrArg some (h.free_eq hR rfl)
  · simp only [if_neg hpasses, Bool.or_false, if_true, Bool.not_false]
    exact congrArg some (h.free_eq hR rfl)

/-- **Allocating** puts the region around the payload.  If the call has a result, `malloc` gave
memory for the padded size; the pointer returned is that of the payload, and both blocks are in
place. -/
theorem tklbMalloc_eq {heap : CheckedHeap A} {ptr : ℕ}
    (hcall : s.heap.tklbMalloc R.bytes (some R.allocation) = some (heap, ptr)) :
    ptr = R.useableSpace ∧ heap = { s.heap with
      memory := R.prepared s.heap.memory, system := R.padded :: s.heap.system } := by
  rw [CheckedHeap.tklbMalloc, Option.bind_some] at hcall
  dsimp only at hcall
  split at hcall
  · cases hcall
  · rename_i hroom
    obtain ⟨rfl, rfl⟩ := Prod.mk.inj (Option.some.inj hcall)
    have hrequest : wrap A.bits (R.bytes + sizeNeeded A) = R.bytes + sizeNeeded A :=
      le_antisymm (Nat.mod_le _ _) (Nat.le_of_not_lt hroom)
    rw [hrequest]
    exact ⟨rfl, rfl⟩

/-- What `malloc` returns does not overlap the regions that the program holds. -/
theorem Intact.apart_live (h : s.Intact) (hapart : ∀ r ∈ s.heap.system, R.padded.Apart r) :
    ∀ R' ∈ s.live, R.padded.Apart R'.padded := by
  intro R' hR'
  refine hapart _ ?_
  rw [h.system]
  exact List.mem_map_of_mem hR'

/-- A write to one region, or to the blocks around it, is not one to another region. -/
theorem Intact.not_padded (h : s.Intact) (hR : R ∈ s.live) (hR' : R' ∈ s.live) (hne : R' ≠ R)
    {x : ℕ}
    (hx : R.allocation ≤ x) (hx' : x < R.endBlock + blockBytes A) : ¬ R'.padded.Contains x := by
  refine (h.apart_of_ne hR hR' (Ne.symm hne)).not_contains ⟨hx, ?_⟩
  rwa [Region.padded_end]

/-- **A step keeps the invariant.**  Allocating adds a region apart from the others, freeing removes
one, and a write out of a payload goes upwards and ends in the block behind it: no first block is
ever in reach. -/
theorem Intact.step (h : s.Intact) {call : LentCall UInt8} (hstep : Step s call t) : t.Intact := by
  cases hstep with
  | @malloc R _ _ hcall hapart =>
      obtain ⟨rfl, rfl⟩ := tklbMalloc_eq hcall
      have hothers := h.apart_live hapart
      refine ⟨?_, List.Pairwise.cons hothers h.apart, fun R' hR' => ?_, h.misfrees⟩
      · show _ :: s.heap.system = _
        rw [h.system, List.map_cons]
      · rcases List.mem_cons.mp hR' with rfl | hR'
        · exact (Region.prepared_hasBlock s.heap.memory).1
        · refine (h.starts R' hR').congr fun x hlo hhi =>
            Region.prepared_of_apart (hothers R' hR') ⟨hlo, ?_⟩
          rw [Region.padded_end, Region.endBlock, Region.useableSpace]
          omega
  | @write R x v hR hle hlt =>
      refine ⟨h.system, h.apart, fun R' hR' => ?_, h.misfrees⟩
      refine (h.starts R' hR').congr (ByteMemory.update_agreeOn ?_)
      by_cases hsame : R' = R
      · rw [hsame]
        exact Or.inr hle
      · have hnot := h.not_padded hR hR' hsame (le_trans (Nat.le_add_right _ _) hle) hlt
        unfold Stretch.Contains at hnot
        rw [Region.padded_end, Region.padded_first, Region.endBlock, Region.useableSpace] at hnot
        omega
  | @free R heap hR hcall =>
      obtain rfl := Option.some.inj ((h.tklbFree hR).symm.trans hcall)
      exact ⟨rfl, h.apart.sublist List.erase_sublist,
        fun R' hR' => h.starts R' (List.mem_of_mem_erase hR'), h.misfrees⟩
  | free_null hcall =>
      obtain rfl := Option.some.inj hcall
      exact h

/-- **A run keeps the invariant.**  So in every state a program can reach, `tklb_free` finds a first
block it can trust, whatever was written behind the payloads. -/
theorem intact_of_run {memory : ByteMemory} {calls : List (LentCall UInt8)}
    (h : Run Step (start memory) calls t) : t.Intact :=
  h.invariant (fun _ _ _ hs hstep => hs.step hstep) (intact_start memory)

/-- **The simulation.**  What a step does to the payloads is what the contract allows. -/
theorem step_view (h : s.Intact) {call : LentCall UInt8} (hstep : Step s call t) :
    LentMemory.Step s.view call t.view := by
  cases hstep with
  | @malloc R _ _ hcall hapart =>
      obtain ⟨rfl, rfl⟩ := tklbMalloc_eq hcall
      have hothers := h.apart_live hapart
      refine LentMemory.Step.lend (r := R.payload) (fun r hr => ?_) (fun r hr x hx => ?_)
      · obtain ⟨R', hR', rfl⟩ := List.mem_map.mp hr
        exact Region.payload_apart (hothers R' hR')
      · obtain ⟨R', hR', rfl⟩ := List.mem_map.mp hr
        refine Region.prepared_of_apart (hothers R' hR') ⟨le_trans (Nat.le_add_right _ _) hx.1, ?_⟩
        rw [Region.padded_end]
        exact lt_of_lt_of_le hx.2 (Nat.le_add_right _ _)
  | @write R x v hR hle hlt => exact LentMemory.Step.write
  | @free R heap hR hcall =>
      obtain rfl := Option.some.inj ((h.tklbFree hR).symm.trans hcall)
      have hlive : (s.live.erase R).map Region.payload =
          (s.live.map Region.payload).erase R.payload := List.map_erase Region.payload_injective _
      show LentMemory.Step s.view _ ⟨(s.live.erase R).map Region.payload, s.heap.memory⟩
      rw [hlive]
      exact LentMemory.Step.giveBack (r := R.payload) (List.mem_map_of_mem hR) fun _ _ _ _ => rfl
  | free_null hcall =>
      obtain rfl := Option.some.inj hcall
      exact LentMemory.Step.nothing

/-! ### Programs that stay in their payloads -/

theorem sealed_start (memory : ByteMemory) : (start memory : CheckedSession A).Sealed :=
  ⟨nofun, rfl⟩

/-- A block that is untouched passes. -/
theorem endPasses_of_hasBlock {m : ByteMemory} {flag : Bool}
    (h : HasBlock A m R.endBlock R.bytes flag) : R.EndPasses m :=
  ⟨h.checkMagicString, h.size⟩

/-- **A step of such a program keeps the second blocks.**  If no write leaves its payload, the
blocks behind the payloads stay as they were made, and freeing passes the test of `check`. -/
theorem Sealed.step (hs : s.Sealed) (h : s.Intact) {call : LentCall UInt8}
    (hstays : Disciplined s call) (hstep : Step s call t) : t.Sealed := by
  cases hstep with
  | @malloc R _ _ hcall hapart =>
      obtain ⟨rfl, rfl⟩ := tklbMalloc_eq hcall
      have hothers := h.apart_live hapart
      refine ⟨fun R' hR' => ?_, hs.asserts⟩
      rcases List.mem_cons.mp hR' with rfl | hR'
      · exact (Region.prepared_hasBlock s.heap.memory).2
      · refine (hs.ends R' hR').congr fun x hlo hhi =>
          Region.prepared_of_apart (hothers R' hR') ⟨?_, ?_⟩
        · rw [Region.endBlock, Region.useableSpace] at hlo
          rw [Region.padded_first]
          omega
        · rwa [Region.padded_end]
  | @write _ x v _ _ _ =>
      obtain ⟨R, hR, hle, hlt⟩ := hstays
      rw [Region.payload_end] at hlt
      refine ⟨fun R' hR' => ?_, hs.asserts⟩
      refine (hs.ends R' hR').congr (ByteMemory.update_agreeOn ?_)
      by_cases hsame : R' = R
      · rw [hsame]
        exact Or.inl hlt
      · have hnot := h.not_padded hR hR' hsame (le_trans (Nat.le_add_right _ _) hle)
          (lt_of_lt_of_le hlt (Nat.le_add_right _ _))
        unfold Stretch.Contains at hnot
        rw [Region.padded_end, Region.padded_first] at hnot
        have hfront : R'.allocation ≤ R'.endBlock := by
          rw [Region.endBlock, Region.useableSpace]
          omega
        omega
  | @free R heap hR hcall =>
      obtain rfl := Option.some.inj ((h.tklbFree hR).symm.trans hcall)
      refine ⟨fun R' hR' => hs.ends R' (List.mem_of_mem_erase hR'), ?_⟩
      show s.heap.asserts + _ = 0
      rw [if_pos (endPasses_of_hasBlock (hs.ends R hR)), hs.asserts]
  | free_null hcall =>
      obtain rfl := Option.some.inj hcall
      exact hs

/-! ### Runs -/

/-- A run as a run of memory that is lent. -/
theorem view_of_run {calls : List (LentCall UInt8)} (h : Run Step s calls t) (hs : s.Intact) :
    Run LentMemory.Step s.view calls t.view := by
  induction h with
  | nil => exact Run.nil _
  | cons hone _ ih => exact Run.cons (step_view hs hone) (ih (hs.step hone))

/-- **Every run keeps the contract of an allocator**, also when writes leave their payloads: what
is lent does not overlap, it can be freed, the C library gets back what it has lent, and only
that, and a payload holds what was last written to it, until it is freed. -/
theorem run_keeps_contract {memory : ByteMemory} {before after : List (LentCall UInt8)}
    (hbefore : Run Step (start memory) before s) (hafter : Run Step s after t) :
    t.view.lent.Pairwise Stretch.Apart ∧ t.heap.system = t.live.map Region.padded ∧
      t.heap.misfrees = 0 ∧
      (∀ R ∈ t.live, (t.heap.tklbFree (some R.useableSpace)).isSome) ∧
      ∀ R ∈ s.live, (∀ call ∈ after, call ≠ .giveBack (some R.useableSpace)) →
        ∀ x, R.payload.Contains x →
          t.heap.memory x = lastWritten x after (s.heap.memory x) := by
  have hs := intact_of_run hbefore
  have ht := intact_of_run (hbefore.append hafter)
  have hview := view_of_run hafter hs
  refine ⟨?_, ht.system, ht.misfrees, fun R hR => ?_, fun R hR hkept x hx => ?_⟩
  · exact LentMemory.apart_of_run (view_of_run (hbefore.append hafter) (intact_start memory))
      List.Pairwise.nil
  · rw [ht.tklbFree hR]
    rfl
  · exact (LentMemory.contents_of_run hview (r := R.payload) (List.mem_map_of_mem hR) hkept hx).2

/-- The block behind a payload is as it was, or it has become a first block of the same size. -/
def EndTrusted (R : Region A) (m : ByteMemory) : Prop :=
  HasBlock A m R.endBlock R.bytes false ∨ HasBlock A m R.endBlock R.bytes true

theorem endPasses_iff {m : ByteMemory}
    (hflag : m (startAddr A R.endBlock) = 0 ∨ m (startAddr A R.endBlock) = 1) :
    R.EndPasses m ↔ EndTrusted R m := by
  constructor
  · rintro ⟨hmagic, hsize⟩
    obtain ⟨flag, hblock⟩ := exists_hasBlock hflag hmagic
    rw [hsize] at hblock
    cases flag with
    | false => exact Or.inl hblock
    | true => exact Or.inr hblock
  · rintro (hblock | hblock)
    · exact endPasses_of_hasBlock hblock
    · exact endPasses_of_hasBlock hblock

/-- **No false alarms**, and what an alarm says.  In a run of a program that stays in its payloads
no assertion fails.  Whatever a program has written, freeing a payload gives the allocation
back, and fails an assertion exactly if the block behind this payload cannot be trusted. -/
theorem alarm_iff {memory : ByteMemory} {calls : List (LentCall UInt8)}
    (hrun : Run Step (start memory) calls s) :
    (Run (Guarded Step Disciplined) (start memory) calls s → s.heap.asserts = 0) ∧
      ∀ R ∈ s.live, s.heap.memory (startAddr A R.endBlock) = 0 ∨
          s.heap.memory (startAddr A R.endBlock) = 1 →
        ∃ freed, s.heap.tklbFree (some R.useableSpace) = some freed ∧
          freed.system = (s.live.erase R).map Region.padded ∧ freed.misfrees = 0 ∧
          (EndTrusted R s.heap.memory → freed.asserts = s.heap.asserts) ∧
          (¬ EndTrusted R s.heap.memory → freed.asserts = s.heap.asserts + 1) := by
  have hs := intact_of_run hrun
  refine ⟨fun hdisciplined => ?_, fun R hR hflag => ?_⟩
  · have hboth : s.Intact ∧ s.Sealed :=
      hdisciplined.invariant (I := fun s => s.Intact ∧ s.Sealed)
        (fun _ _ _ ⟨hs, hsealed⟩ ⟨hcall, hstep⟩ => ⟨hs.step hstep, hsealed.step hs hcall hstep⟩)
        ⟨intact_start memory, sealed_start memory⟩
    exact hboth.2.asserts
  · refine ⟨_, hs.tklbFree hR, rfl, hs.misfrees, fun htrusted => ?_, fun hnot => ?_⟩
    · show s.heap.asserts + _ = _
      rw [if_pos ((endPasses_iff hflag).mpr htrusted), Nat.add_zero]
    · show s.heap.asserts + _ = _
      rw [if_neg (mt (endPasses_iff hflag).mp hnot)]

/-! ### A session -/

/-- Four bytes of payload at 88. -/
def fourBytesLent : CheckedSession ⟨3⟩ :=
  ⟨⟨Region.fourBytes.prepared fun _ => 0, [Region.fourBytes.padded], 0, 0⟩, [Region.fourBytes]⟩

/-- The first byte behind them has been written. -/
def fourBytesOverrun : CheckedSession ⟨3⟩ :=
  ⟨⟨Function.update (Region.fourBytes.prepared fun _ => 0) 92 7, [Region.fourBytes.padded], 0, 0⟩,
    [Region.fourBytes]⟩

theorem run_fourBytesLent :
    Run Step (start fun _ => 0) [.lend Region.fourBytes.payload] fourBytesLent :=
  Run.cons (Step.malloc (R := Region.fourBytes) rfl nofun) (Run.nil _)

theorem run_fourBytesOverrun : Run Step fourBytesLent [.write 92 7] fourBytesOverrun :=
  Run.cons (Step.write (R := Region.fourBytes) List.mem_cons_self (by decide) (by decide))
    (Run.nil _)

/-- The payload has not changed. -/
theorem run_keeps_contract_fourBytes :
    fourBytesOverrun.heap.memory 88 = fourBytesLent.heap.memory 88 :=
  (run_keeps_contract run_fourBytesLent run_fourBytesOverrun).2.2.2.2 Region.fourBytes
    List.mem_cons_self (by simp) 88 ⟨by decide, by decide⟩

/-- The write is found when the payload is freed. -/
theorem alarm_iff_fourBytes :
    ∃ freed, fourBytesOverrun.heap.tklbFree (some 88) = some freed ∧ freed.asserts = 1 := by
  have hflag : fourBytesOverrun.heap.memory (startAddr ⟨3⟩ Region.fourBytes.endBlock) = 0 := by
    decide +kernel
  have hsize : sizeAt ⟨3⟩ fourBytesOverrun.heap.memory Region.fourBytes.endBlock ≠ 4 := by
    decide +kernel
  obtain ⟨freed, hcall, -, -, -, halarm⟩ :=
    (alarm_iff (run_fourBytesLent.append run_fourBytesOverrun)).2 Region.fourBytes
      List.mem_cons_self (Or.inl hflag)
  refine ⟨freed, hcall, halarm ?_⟩
  rintro (hblock | hblock)
  · exact hsize hblock.size
  · exact hsize hblock.size

end CheckedSession

end Tklb
