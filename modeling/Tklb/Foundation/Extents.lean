import Mathlib.Algebra.Order.Group.Nat
import Mathlib.Data.List.Basic

/-!
# Tilings of an interval

A stretch of memory that is completely cut into consecutive pieces is described
by the list of the pieces' lengths, each with a tag.  `placed o L` gives every
piece its position when the first one starts at `o`; consecutive pieces do not
overlap (`placed_pairwise`), stay inside the stretch (`mem_placed_bounds`), and a
piece can be replaced by pieces of the same total length without moving the
others (`placed_append`).

### What is load-bearing

The list is the description of the whole stretch, gaps included, so the positions need not be
stored: they are sums of lengths.  Splitting a piece or joining two of them is an equation
between lists, and `placed_append` shows that the pieces in front and behind are not touched by
it.  An algorithm that walks from piece to piece follows the list, by induction.
-/

namespace Tklb.Foundation

universe u

/-- A piece of a tiling: its length and what it is used for.  The tag is arbitrary; it may say
whether the piece is free, or who owns it. -/
structure Extent (τ : Type u) where
  len : ℕ
  tag : τ

variable {τ : Type u}

/-- The length of a whole tiling. -/
def total : List (Extent τ) → ℕ
  | [] => 0
  | e :: L => e.len + total L

@[simp] theorem total_nil : total ([] : List (Extent τ)) = 0 := rfl

@[simp] theorem total_cons (e : Extent τ) (L : List (Extent τ)) :
    total (e :: L) = e.len + total L := rfl

@[simp] theorem total_append (L M : List (Extent τ)) :
    total (L ++ M) = total L + total M := by
  induction L with
  | nil => simp
  | cons e L ih => rw [List.cons_append, total_cons, total_cons, ih, add_assoc]

/-- The pieces of a tiling with their positions, the first one at `o`. -/
def placed : ℕ → List (Extent τ) → List (ℕ × Extent τ)
  | _, [] => []
  | o, e :: L => (o, e) :: placed (o + e.len) L

@[simp] theorem placed_nil (o : ℕ) : placed o ([] : List (Extent τ)) = [] := rfl

@[simp] theorem placed_cons (o : ℕ) (e : Extent τ) (L : List (Extent τ)) :
    placed o (e :: L) = (o, e) :: placed (o + e.len) L := rfl

theorem placed_append (o : ℕ) (L M : List (Extent τ)) :
    placed o (L ++ M) = placed o L ++ placed (o + total L) M := by
  induction L generalizing o with
  | nil => simp
  | cons e L ih => simp [ih, add_assoc]

/-- Every piece lies inside the tiled stretch. -/
theorem mem_placed_bounds {o : ℕ} {L : List (Extent τ)} {x : ℕ × Extent τ}
    (hx : x ∈ placed o L) : o ≤ x.1 ∧ x.1 + x.2.len ≤ o + total L := by
  induction L generalizing o with
  | nil => simp at hx
  | cons e L ih =>
      rw [placed_cons, List.mem_cons] at hx
      rw [total_cons]
      rcases hx with rfl | hx
      · exact ⟨le_rfl, by dsimp only; omega⟩
      · have := ih hx
        omega

/-- A placed piece splits the tiling. -/
theorem mem_placed_split {o : ℕ} {L : List (Extent τ)} {x : ℕ × Extent τ}
    (hx : x ∈ placed o L) :
    ∃ L₁ L₂, L = L₁ ++ x.2 :: L₂ ∧ x.1 = o + total L₁ := by
  induction L generalizing o with
  | nil => simp at hx
  | cons e L ih =>
      rw [placed_cons, List.mem_cons] at hx
      rcases hx with rfl | hx
      · exact ⟨[], L, rfl, rfl⟩
      · obtain ⟨L₁, L₂, rfl, hpos⟩ := ih hx
        exact ⟨e :: L₁, L₂, rfl, by rw [hpos, total_cons]; omega⟩

/-- Searching the pieces in order finds none, or the first one. -/
theorem find_placed (p : ℕ × Extent τ → Bool) (o : ℕ) (L : List (Extent τ)) :
    ((placed o L).find? p = none ∧ ∀ x ∈ placed o L, p x = false) ∨
      ∃ L₁ e L₂, L = L₁ ++ e :: L₂ ∧ (placed o L).find? p = some (o + total L₁, e) ∧
        p (o + total L₁, e) = true ∧ ∀ x ∈ placed o L₁, p x = false := by
  induction L generalizing o with
  | nil => exact Or.inl ⟨rfl, nofun⟩
  | cons e L ih =>
      rw [placed_cons]
      cases hp : p (o, e) with
      | true =>
          refine Or.inr ⟨[], e, L, rfl, ?_, hp, nofun⟩
          rw [List.find?_cons_of_pos hp]
          rfl
      | false =>
          rw [List.find?_cons_of_neg (by simp [hp])]
          rcases ih (o + e.len) with ⟨hnone, hall⟩ | ⟨L₁, b, L₂, rfl, hsome, hb, hall⟩
          · exact Or.inl ⟨hnone, List.forall_mem_cons.mpr ⟨hp, hall⟩⟩
          · refine Or.inr ⟨e :: L₁, b, L₂, rfl, ?_, ?_, List.forall_mem_cons.mpr ⟨hp, hall⟩⟩
            · rw [hsome, total_cons, Nat.add_assoc]
            · rwa [total_cons, ← Nat.add_assoc]

theorem mem_of_mem_placed {o : ℕ} {L : List (Extent τ)} {x : ℕ × Extent τ}
    (hx : x ∈ placed o L) : x.2 ∈ L := by
  obtain ⟨L₁, L₂, rfl, -⟩ := mem_placed_split hx
  simp

/-- Replacing a piece by pieces of the same length leaves the others where they
are. -/
theorem mem_placed_replace {L₁ L₂ M : List (Extent τ)} {e : Extent τ} {o : ℕ}
    (hM : total M = e.len) {x : ℕ × Extent τ}
    (hx : x ∈ placed o (L₁ ++ e :: L₂)) (hne : x ≠ (o + total L₁, e)) :
    x ∈ placed o (L₁ ++ M ++ L₂) := by
  rw [placed_append, placed_cons, List.mem_append, List.mem_cons] at hx
  rw [List.append_assoc, placed_append, placed_append, hM, List.mem_append,
    List.mem_append]
  rcases hx with hx | hx | hx
  · exact Or.inl hx
  · exact absurd hx hne
  · exact Or.inr (Or.inr hx)

/-- Consecutive pieces do not overlap. -/
theorem placed_pairwise (o : ℕ) (L : List (Extent τ)) :
    (placed o L).Pairwise fun x y => x.1 + x.2.len ≤ y.1 := by
  induction L generalizing o with
  | nil => exact List.Pairwise.nil
  | cons e L ih =>
      refine List.Pairwise.cons (fun y hy => ?_) (ih _)
      exact (mem_placed_bounds hy).1

/-- Two placed pieces are the same or do not overlap. -/
theorem placed_disjoint {o : ℕ} {L : List (Extent τ)} {x y : ℕ × Extent τ}
    (hx : x ∈ placed o L) (hy : y ∈ placed o L) :
    x = y ∨ x.1 + x.2.len ≤ y.1 ∨ y.1 + y.2.len ≤ x.1 := by
  induction L generalizing o with
  | nil => simp at hx
  | cons e L ih =>
      rw [placed_cons, List.mem_cons] at hx hy
      rcases hx with rfl | hx
      · rcases hy with rfl | hy
        · exact Or.inl rfl
        · exact Or.inr (Or.inl (mem_placed_bounds hy).1)
      · rcases hy with rfl | hy
        · exact Or.inr (Or.inr (mem_placed_bounds hx).1)
        · exact ih hx hy

end Tklb.Foundation
