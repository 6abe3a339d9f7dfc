import Mathlib.Data.List.Basic
import Mathlib.Data.Nat.ModEq

/-!
# Bounded queues and their circular representation

`BoundedQueue F` is a queue that holds at most `capacity` items, the oldest
first.  `offer` appends as many of the offered items as there is room for and
`discard` removes the oldest ones.

A circular buffer keeps such a queue in `n` cells, of which `fill` are taken, in
front of the index `tail` the next item goes to.  The oldest item but `k` is in
cell `slot n tail fill k`, and `window` reads the whole queue back.  The section
on windows says what the two moves of a circular buffer do to it: items written
from `tail` on are appended (`window_append`), and a smaller fill count drops
the oldest items (`window_drop`).

### What is load-bearing

`slot` is the only formula with a remainder in it, and it counts backwards from `tail`: the cell
of an item depends on how many items come after it.  The two moves are chosen so that neither
needs the index of the oldest item, which a circular buffer does not keep.  All of the rest is
about lists.
-/

namespace Tklb.Foundation

universe u

variable {F : Type u}

/-- A queue of at most `capacity` items, the oldest first.  That there are no more is a field, so no
operation can build a queue with too many. -/
structure BoundedQueue (F : Type u) where
  capacity : ℕ
  items : List F
  bounded : items.length ≤ capacity

namespace BoundedQueue

/-- A queue nothing was put into. -/
def initial (capacity : ℕ) : BoundedQueue F := ⟨capacity, [], Nat.zero_le capacity⟩

def filled (q : BoundedQueue F) : ℕ := q.items.length

def remaining (q : BoundedQueue F) : ℕ := q.capacity - q.filled

theorem filled_add_remaining (q : BoundedQueue F) : q.filled + q.remaining = q.capacity :=
  Nat.add_sub_cancel' q.bounded

/-- Append the first items there is room for. -/
def offer (q : BoundedQueue F) (xs : List F) : BoundedQueue F where
  capacity := q.capacity
  items := q.items ++ xs.take q.remaining
  bounded := by
    have htake : (xs.take q.remaining).length ≤ q.remaining := List.length_take_le _ _
    have htotal := q.filled_add_remaining
    rw [List.length_append]
    exact htotal ▸ Nat.add_le_add_left htake _

/-- Remove the `n` oldest items. -/
def discard (q : BoundedQueue F) (n : ℕ) : BoundedQueue F where
  capacity := q.capacity
  items := q.items.drop n
  bounded := by
    rw [List.length_drop]
    exact (Nat.sub_le _ _).trans q.bounded

end BoundedQueue

/-! ### Circular indices -/

/-- The cell of the oldest item but `k`, when `fill` of `n` cells are taken and
the next item goes to `tail`. -/
def slot (n tail fill k : ℕ) : ℕ := (tail + (n - fill) + k) % n

/-- An index that runs over the end starts again at the beginning. -/
theorem add_mod_of_lt {n a i : ℕ} (ha : a < n) (hi : i < n) :
    (a + i) % n = if a + i < n then a + i else a + i - n := by
  rw [Nat.add_mod_eq_ite, Nat.mod_eq_of_lt ha, Nat.mod_eq_of_lt hi]
  by_cases h : a + i < n
  · rw [if_neg (Nat.not_le.mpr h), if_pos h]
  · rw [if_pos (Nat.not_lt.mp h), if_neg h]

theorem slot_lt {n : ℕ} (hn : 0 < n) (tail fill k : ℕ) : slot n tail fill k < n :=
  Nat.mod_lt _ hn

/-- Counting from the oldest item. -/
theorem slot_add {n : ℕ} (tail fill j k : ℕ) :
    slot n tail fill (j + k) = (slot n tail fill j + k) % n := by
  unfold slot
  rw [Nat.mod_add_mod, Nat.add_assoc, Nat.add_assoc, Nat.add_assoc]

/-- The items after the last one are where the next ones go. -/
theorem slot_fill {n fill : ℕ} (tail i : ℕ) (h : fill ≤ n) :
    slot n tail fill (fill + i) = (tail + i) % n := by
  unfold slot
  rw [show tail + (n - fill) + (fill + i) = tail + i + n by omega, Nat.add_mod_right]

/-- Appending `e` items moves no item. -/
theorem slot_append {n tail tail' fill e : ℕ} (k : ℕ) (h : fill + e ≤ n)
    (htail : tail' % n = (tail + e) % n) :
    slot n tail' (fill + e) k = slot n tail fill k := by
  unfold slot
  have hsum : tail + (n - fill) + k = tail + e + (n - (fill + e) + k) := by omega
  rw [hsum, Nat.add_mod (tail + e), ← htail, ← Nat.add_mod, ← Nat.add_assoc]

/-- Removing the `e` oldest items moves no item. -/
theorem slot_drop {n fill e : ℕ} (tail k : ℕ) (he : e ≤ fill) (h : fill ≤ n) :
    slot n tail (fill - e) k = slot n tail fill (e + k) := by
  unfold slot
  rw [show tail + (n - (fill - e)) + k = tail + (n - fill) + (e + k) by omega]

/-- Different items are in different cells. -/
theorem slot_injective {n tail fill j k : ℕ} (hj : j < n) (hk : k < n)
    (h : slot n tail fill j = slot n tail fill k) : j = k := by
  have hmod : j ≡ k [MOD n] := Nat.ModEq.add_left_cancel' (tail + (n - fill)) h
  exact hmod.eq_of_lt_of_lt hj hk

/-! ### Windows -/

/-- The queue a circular buffer holds. -/
def window (cells : ℕ → F) (n tail fill : ℕ) : List F :=
  (List.range fill).map fun k => cells (slot n tail fill k)

@[simp] theorem length_window (cells : ℕ → F) (n tail fill : ℕ) :
    (window cells n tail fill).length = fill := by
  rw [window, List.length_map, List.length_range]

/-- **Appending.**  Items written from `tail` on, with nothing else changed, are
appended to the queue. -/
theorem window_append {cells cells' : ℕ → F} {n tail tail' fill e : ℕ} {item : ℕ → F}
    (hfit : fill + e ≤ n) (htail : tail' % n = (tail + e) % n)
    (hwrite : ∀ i < e, cells' ((tail + i) % n) = item i)
    (hkeep : ∀ p < n, (∀ i < e, (tail + i) % n ≠ p) → cells' p = cells p) :
    window cells' n tail' (fill + e) =
      window cells n tail fill ++ (List.range e).map item := by
  have hold : ∀ k < fill, cells' (slot n tail fill k) = cells (slot n tail fill k) := by
    intro k hk
    have hn : 0 < n := by omega
    apply hkeep _ (slot_lt hn tail fill k)
    -- a written cell is one of the free ones
    intro i hi heq
    have hfree : slot n tail fill (fill + i) = (tail + i) % n := slot_fill tail i (by omega)
    have := slot_injective (by omega) (by omega) (hfree.trans heq)
    omega
  unfold window
  rw [List.range_add, List.map_append, List.map_map]
  congr 1
  · apply List.map_congr_left
    intro k hk
    rw [slot_append k hfit htail, hold k (List.mem_range.mp hk)]
  · apply List.map_congr_left
    intro i hi
    rw [Function.comp_apply, slot_append _ hfit htail, slot_fill tail i (by omega),
      hwrite i (List.mem_range.mp hi)]

/-- **Removing.**  A smaller fill count drops the oldest items.  No cell is written for it: the
items are still there, but they are not counted any more. -/
theorem window_drop (cells : ℕ → F) {n fill e : ℕ} (tail : ℕ) (he : e ≤ fill) (h : fill ≤ n) :
    window cells n tail (fill - e) = (window cells n tail fill).drop e := by
  obtain ⟨rest, rfl⟩ := Nat.exists_eq_add_of_le he
  unfold window
  rw [Nat.add_sub_cancel_left, List.range_add, List.map_append,
    List.drop_left' (by rw [List.length_map, List.length_range]), List.map_map]
  apply List.map_congr_left
  intro k _
  have hslot := slot_drop (n := n) tail k he h
  rw [Nat.add_sub_cancel_left] at hslot
  rw [hslot, Function.comp_apply]

/-- The oldest items, read from the cell of the oldest one on. -/
theorem take_window (cells : ℕ → F) {n fill e : ℕ} (tail : ℕ) (he : e ≤ fill) :
    (window cells n tail fill).take e =
      (List.range e).map fun i => cells ((slot n tail fill 0 + i) % n) := by
  unfold window
  rw [← List.map_take, List.take_range, Nat.min_eq_left he]
  apply List.map_congr_left
  intro i _
  rw [← slot_add, Nat.zero_add]

end Tklb.Foundation
