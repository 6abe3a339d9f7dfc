import Mathlib.Algebra.Order.Group.Nat
import Mathlib.Logic.Function.Basic

/-!
# Memory that records its writes

A copying function is trusted with a destination: what it leaves there matters, and so does
where it wrote at all.  `RecordedMemory` keeps both, the cells and the list of the indices
that were written, so that a write of a value that was there before is one, too.

`WrittenIn m m' lo hi` says that all that happened between `m` and `m'` are writes to the
indices from `lo` up to, but not including, `hi`.

### What is load-bearing

`WrittenIn` composes: writes in one range followed by writes in another are writes in any range
that has both.  So a function that is made of loops is described by one range for all it does:
every index it wrote is inside, and the cells outside have the contents they had.
-/

namespace Tklb.Foundation

universe u

/-- Cells, and the indices written so far, the last one first. -/
structure RecordedMemory (α : Type u) where
  cells : ℕ → α
  written : List ℕ

namespace RecordedMemory

variable {α : Type u}

/-- Memory that has not been written yet. -/
def untouched (cells : ℕ → α) : RecordedMemory α := ⟨cells, []⟩

/-- `m[i] = v` -/
def store (m : RecordedMemory α) (i : ℕ) (v : α) : RecordedMemory α :=
  ⟨Function.update m.cells i v, i :: m.written⟩

variable {m m' m'' : RecordedMemory α} {lo hi lo' hi' i : ℕ} {v : α}

@[simp] theorem untouched_cells (cells : ℕ → α) : (untouched cells).cells = cells := rfl

@[simp] theorem store_cells_self : (m.store i v).cells i = v := by
  simp [store]

theorem store_cells_of_ne {j : ℕ} (h : j ≠ i) : (m.store i v).cells j = m.cells j := by
  simp [store, h]

/-- Only indices from `lo` on and below `hi` were written.  Both halves are needed: the cells
outside hold what they held, and they were not even written with what they held. -/
structure WrittenIn (m m' : RecordedMemory α) (lo hi : ℕ) : Prop where
  written : ∀ i ∈ m'.written, i ∈ m.written ∨ lo ≤ i ∧ i < hi
  frame : ∀ i, i < lo ∨ hi ≤ i → m'.cells i = m.cells i

namespace WrittenIn

theorem refl (m : RecordedMemory α) (lo hi : ℕ) : WrittenIn m m lo hi :=
  ⟨fun _ hmem => Or.inl hmem, fun _ _ => rfl⟩

theorem trans (h : WrittenIn m m' lo hi) (h' : WrittenIn m' m'' lo hi) :
    WrittenIn m m'' lo hi where
  written i hmem := (h'.written i hmem).elim (h.written i) Or.inr
  frame i hi := (h'.frame i hi).trans (h.frame i hi)

theorem mono (h : WrittenIn m m' lo hi) (hlo : lo' ≤ lo) (hhi : hi ≤ hi') :
    WrittenIn m m' lo' hi' where
  written i hmem := (h.written i hmem).imp_right fun hi =>
    ⟨le_trans hlo hi.1, lt_of_lt_of_le hi.2 hhi⟩
  frame i hi := h.frame i (hi.imp (fun hi => lt_of_lt_of_le hi hlo) (le_trans hhi))

/-- The writes to memory that had not been written. -/
theorem mem_range {cells : ℕ → α} (h : WrittenIn (untouched cells) m lo hi) {i : ℕ}
    (hmem : i ∈ m.written) : lo ≤ i ∧ i < hi :=
  (h.written i hmem).resolve_left List.not_mem_nil

end WrittenIn

theorem store_writtenIn (hlo : lo ≤ i) (hhi : i < hi) : WrittenIn m (m.store i v) lo hi where
  written j hmem := by
    rcases List.mem_cons.mp hmem with rfl | hmem
    · exact Or.inr ⟨hlo, hhi⟩
    · exact Or.inl hmem
  frame j hj := by
    apply store_cells_of_ne
    omega

end RecordedMemory

end Tklb.Foundation
