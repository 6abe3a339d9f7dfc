import Mathlib.Logic.Function.Basic
import Tklb.Foundation.Runs

/-!
# Memory that is lent

The contract of an allocator, as its client sees it: stretches of addresses are lent, and given
back.  A stretch that is lent does not overlap those that are lent already, and neither lending
nor taking back changes what is in the others.  What happens outside of the stretches is nobody's
business, so `contents` may change there in any step.

`LentMemory.apart_of_run` says that the stretches never overlap, and `LentMemory.contents_of_run`
that an address in a stretch holds what was last written to it, for as long as the stretch is
lent.

### What is load-bearing

The contract is a relation and not a function: where a stretch is lent is for the allocator to
decide.  A client that is verified against the relation is verified for every allocator that
keeps the contract, and an allocator is verified by showing that its calls are steps of it.

`contents_of_run` gives the value at an address from the calls alone (`lastWritten`).  It needs
no hypothesis about the other stretches, because the steps forbid that they change it.
-/

namespace Tklb.Foundation

universe u

/-- Consecutive addresses. -/
@[ext]
structure Stretch where
  first : ℕ
  length : ℕ
deriving DecidableEq

namespace Stretch

def Contains (r : Stretch) (x : ℕ) : Prop := r.first ≤ x ∧ x < r.first + r.length

def Apart (r r' : Stretch) : Prop :=
  r.first + r.length ≤ r'.first ∨ r'.first + r'.length ≤ r.first

instance : Std.Symm Apart := ⟨fun _ _ h => Or.symm h⟩

theorem Apart.not_contains {r r' : Stretch} (h : r.Apart r') {x : ℕ} (hx : r.Contains x) :
    ¬ r'.Contains x := by
  rintro ⟨hle, hlt⟩
  obtain ⟨hle', hlt'⟩ := hx
  rcases h with h | h <;> omega

/-- Parts of stretches that do not overlap do not overlap. -/
theorem Apart.mono {r r' s s' : Stretch} (h : r.Apart r') (hs : r.first ≤ s.first)
    (hs' : s.first + s.length ≤ r.first + r.length) (ht : r'.first ≤ s'.first)
    (ht' : s'.first + s'.length ≤ r'.first + r'.length) : s.Apart s' := by
  unfold Apart at *
  omega

end Stretch

/-- What is lent, and what is in it.  The contents are those of the whole memory; what is said about
them concerns the addresses that are lent. -/
structure LentMemory (α : Type u) where
  lent : List Stretch
  contents : ℕ → α

/-- What happens to a memory. -/
inductive LentCall (α : Type u)
  | lend (r : Stretch)
  | write (x : ℕ) (v : α)
  /-- `none` is nothing. -/
  | giveBack (first : Option ℕ)

/-- What is at `x` after the calls, if `v` was there before. -/
def lastWritten {α : Type u} (x : ℕ) : List (LentCall α) → α → α
  | [], v => v
  | .write y u :: calls, v => lastWritten x calls (if y = x then u else v)
  | _ :: calls, v => lastWritten x calls v

namespace LentMemory

variable {α : Type u}

/-- **The contract.**  What is lent must be apart from what is lent already; writing is possible
everywhere, also where nothing is lent; and what is given back must have been lent. -/
inductive Step (s : LentMemory α) : LentCall α → LentMemory α → Prop
  | lend {r : Stretch} {contents : ℕ → α} (hapart : ∀ r' ∈ s.lent, r.Apart r')
      (hkept : ∀ r' ∈ s.lent, ∀ x, r'.Contains x → contents x = s.contents x) :
      Step s (.lend r) ⟨r :: s.lent, contents⟩
  | write {x : ℕ} {v : α} :
      Step s (.write x v) ⟨s.lent, Function.update s.contents x v⟩
  | giveBack {r : Stretch} {contents : ℕ → α} (hr : r ∈ s.lent)
      (hkept : ∀ r' ∈ s.lent.erase r, ∀ x, r'.Contains x → contents x = s.contents x) :
      Step s (.giveBack (some r.first)) ⟨s.lent.erase r, contents⟩
  | nothing : Step s (.giveBack none) s

/-- **What is lent never overlaps.**  Each stretch was apart from the others when it was lent, and
giving one back only removes it. -/
theorem apart_of_run {s t : LentMemory α} {calls : List (LentCall α)} (h : Run Step s calls t)
    (hs : s.lent.Pairwise Stretch.Apart) : t.lent.Pairwise Stretch.Apart := by
  refine h.invariant (I := fun s => s.lent.Pairwise Stretch.Apart) (fun s call t hs hstep => ?_) hs
  cases hstep with
  | lend hapart _ => exact List.Pairwise.cons hapart hs
  | write => exact hs
  | giveBack _ _ => exact hs.sublist List.erase_sublist
  | nothing => exact hs

/-- One call. -/
theorem Step.contents {s t : LentMemory α} {call : LentCall α} (h : Step s call t) {r : Stretch}
    (hr : r ∈ s.lent) (hlent : call ≠ .giveBack (some r.first)) {x : ℕ} (hx : r.Contains x) :
    r ∈ t.lent ∧ t.contents x = lastWritten x [call] (s.contents x) := by
  cases h with
  | lend _ hkept => exact ⟨List.mem_cons_of_mem _ hr, hkept r hr x hx⟩
  | @write y v =>
      refine ⟨hr, ?_⟩
      show Function.update s.contents y v x = if y = x then v else s.contents x
      by_cases hyx : y = x
      · rw [if_pos hyx, hyx, Function.update_self]
      · rw [if_neg hyx, Function.update_of_ne (Ne.symm hyx)]
  | @giveBack r' _ _ hkept =>
      have hmem : r ∈ s.lent.erase r' := by
        refine (List.mem_erase_of_ne ?_).mpr hr
        rintro rfl
        exact hlent rfl
      exact ⟨hmem, hkept r hmem x hx⟩
  | nothing => exact ⟨hr, rfl⟩

theorem lastWritten_cons (x : ℕ) (call : LentCall α) (calls : List (LentCall α)) (v : α) :
    lastWritten x (call :: calls) v = lastWritten x calls (lastWritten x [call] v) := by
  cases call <;> rfl

/-- **What is lent keeps what was last written to it.**  As long as the stretch is not given back it
stays lent, and the calls alone say what is at its addresses, whatever the allocator and the clients
of the other stretches do. -/
theorem contents_of_run {s t : LentMemory α} {calls : List (LentCall α)} (h : Run Step s calls t)
    {r : Stretch} (hr : r ∈ s.lent) (hlent : ∀ call ∈ calls, call ≠ .giveBack (some r.first))
    {x : ℕ} (hx : r.Contains x) :
    r ∈ t.lent ∧ t.contents x = lastWritten x calls (s.contents x) := by
  induction h with
  | nil s => exact ⟨hr, rfl⟩
  | @cons _ _ _ call calls hone _ ih =>
      obtain ⟨hr', hcontents⟩ := hone.contents hr (hlent _ List.mem_cons_self) hx
      obtain ⟨hr'', hcontents'⟩ := ih hr' fun call hcall =>
        hlent call (List.mem_cons_of_mem _ hcall)
      refine ⟨hr'', ?_⟩
      rw [hcontents', hcontents, ← lastWritten_cons]

end LentMemory

end Tklb.Foundation
