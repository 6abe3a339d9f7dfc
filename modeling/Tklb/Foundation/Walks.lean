import Mathlib.Data.List.Basic
import Mathlib.Data.List.Nodup

/-!
# Walks along a successor function

Linked structures kept in an array or in raw memory are read by following a
successor function: the next free slot of a slot, the next block header after a
block header.  `Visits next a l b` says that starting at `a` and following
`next` one meets exactly the positions `l`, in order, and then stands at `b`.

What every successor keeps, a walk keeps (`Visits.invariant`); so a walk that
stands on a position leading to itself never leaves it (`Visits.eq_of_fixed`).

### What is load-bearing

The list of positions is part of the statement, so the length of a walk is the length of a list,
and walks that meet a position twice are walks like others.  A structure without cycles is one
with a walk that meets no position twice and ends at a position that is known; a structure with
one is shown to have it by `Visits.eq_of_fixed`.
-/

namespace Tklb.Foundation

universe u

variable {α : Type u}

/-- Starting at `a` and following `next`, the walk meets the positions `l` in
order and then stands at `b`. -/
def Visits (next : α → α) : α → List α → α → Prop
  | a, [], b => a = b
  | a, x :: l, b => a = x ∧ Visits next (next a) l b

@[simp] theorem visits_nil (next : α → α) (a b : α) :
    Visits next a [] b ↔ a = b := Iff.rfl

@[simp] theorem visits_cons (next : α → α) (a x b : α) (l : List α) :
    Visits next a (x :: l) b ↔ a = x ∧ Visits next (next a) l b := Iff.rfl

namespace Visits

variable {next next' : α → α}

/-- What holds at the start and is kept by `next` holds wherever the walk
stops. -/
theorem invariant {I : α → Prop} (hnext : ∀ x, I x → I (next x)) {a b : α}
    {l : List α} (h : Visits next a l b) (ha : I a) : I b := by
  induction l generalizing a with
  | nil => exact h ▸ ha
  | cons x l ih => exact ih h.2 (hnext a ha)

/-- A walk that stops where it first meets its end is the only one. -/
theorem unique {a b : α} {l l' : List α} (h : Visits next a l b) (h' : Visits next a l' b)
    (hl : b ∉ l) (hl' : b ∉ l') : l = l' := by
  induction l generalizing a l' with
  | nil =>
      cases l' with
      | nil => rfl
      | cons y l' =>
          rw [visits_nil] at h
          exact absurd (h ▸ h'.1 ▸ List.mem_cons_self) hl'
  | cons x l ih =>
      cases l' with
      | nil =>
          rw [visits_nil] at h'
          exact absurd (h' ▸ h.1 ▸ List.mem_cons_self) hl
      | cons y l' =>
          obtain rfl : x = y := h.1.symm.trans h'.1
          rw [ih h.2 h'.2 (List.not_mem_of_not_mem_cons hl) (List.not_mem_of_not_mem_cons hl')]

/-- A walk that starts on a self-loop never leaves it. -/
theorem eq_of_fixed {a b : α} {l : List α} (h : Visits next a l b)
    (hfix : next a = a) : b = a :=
  h.invariant (I := fun x => x = a) (fun _ hx => hx ▸ hfix) rfl

end Visits

end Tklb.Foundation
