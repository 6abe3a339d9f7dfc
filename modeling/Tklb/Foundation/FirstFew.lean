import Mathlib.Data.Nat.Count

/-!
# The first few positions

A loop that goes over positions, acts where a condition `p` holds and stops after `k`
times acts on the first `k` positions that meet `p` (`FirstFew`).  When the loop is meant
to act where `q` holds, and `q` can not be seen from the inside, `eq_firstFew_iff` says
when it does: `q` is met nowhere else than `p`, without a gap, and `k` times, or the loop
runs out of positions.

### What is load-bearing

The two conditions are compared at all positions below a bound, with the number of positions
that meet `q` (`Nat.count`).  Neither is decided by the other in general, and the two ways to be
right are different: the loop stops in time, or there is nothing more to find.
-/

namespace Tklb.Foundation

variable {p q : ℕ → Prop} [DecidablePred p] [DecidablePred q] {k n : ℕ}

/-- `i` is one of the first `k` positions that meet `p`. -/
def FirstFew (p : ℕ → Prop) [DecidablePred p] (k i : ℕ) : Prop := p i ∧ Nat.count p i < k

/-- Conditions that agree up to a position are counted alike up to it. -/
theorem count_congr (h : ∀ i < n, p i ↔ q i) : Nat.count p n = Nat.count q n :=
  le_antisymm (Nat.count_mono_left fun i hi => (h i hi).mp)
    (Nat.count_mono_left fun i hi => (h i hi).mpr)

/-- There are `k` of the first `k` positions, or as many as there are. -/
theorem count_firstFew (h : ∀ i < n, q i ↔ FirstFew p k i) :
    Nat.count q n = min k (Nat.count p n) := by
  induction n with
  | zero => simp
  | succ n ih =>
      have hlast := h n n.lt_succ_self
      have hbefore := ih fun i hi => h i (hi.trans n.lt_succ_self)
      rw [Nat.count_succ, Nat.count_succ, hbefore]
      by_cases hp : p n
      · by_cases hfew : Nat.count p n < k
        · rw [if_pos hp, if_pos (hlast.mpr ⟨hp, hfew⟩)]
          omega
        · rw [if_pos hp, if_neg fun hq => hfew (hlast.mp hq).2]
          omega
      · rw [if_neg hp, if_neg fun hq => hp (hlast.mp hq).1]
        omega

/-- **When the first few positions are the right ones.**  Below `n`, the two sets agree if and only
if `q` implies `p`, no `p` without `q` comes before a `q`, and the number of positions is right or
does not matter. -/
theorem eq_firstFew_iff :
    (∀ i < n, q i ↔ FirstFew p k i) ↔
      (∀ i < n, q i → p i) ∧ (∀ i j, i < j → j < n → q j → ¬ q i → ¬ p i) ∧
        (k = Nat.count q n ∨ Nat.count q n < k ∧ ∀ i < n, ¬ q i → ¬ p i) := by
  constructor
  · intro h
    have hcount := count_firstFew h
    refine ⟨fun i hi hq => ((h i hi).mp hq).1, fun i j hij hj hqj hqi hpi => ?_, ?_⟩
    · have hfew := ((h j hj).mp hqj).2
      have hmono := Nat.count_monotone p hij.le
      exact hqi ((h i (hij.trans hj)).mpr ⟨hpi, by omega⟩)
    · by_cases hall : Nat.count p n < k
      · refine Or.inr ⟨by omega, fun i hi hqi hpi => hqi ((h i hi).mpr ⟨hpi, ?_⟩)⟩
        exact lt_of_le_of_lt (Nat.count_monotone p hi.le) hall
      · exact Or.inl (by omega)
  · rintro ⟨hsub, hgap, hnum⟩ i hi
    constructor
    · -- up to a position that meets `q`, the conditions agree
      intro hq
      have hagree : Nat.count q i = Nat.count p i := by
        refine count_congr fun j hj => ⟨hsub j (hj.trans hi), fun hpj => ?_⟩
        by_contra hqj
        exact hgap j i hj hi hq hqj hpj
      have hlt := Nat.count_strict_mono hq hi
      exact ⟨hsub i hi hq, by omega⟩
    · rintro ⟨hp, hfew⟩
      by_contra hq
      rcases hnum with heq | ⟨-, hnone⟩
      · -- behind a gap there is no position that meets `q`
        have hle : Nat.count q i ≤ Nat.count p i :=
          Nat.count_mono_left fun j hj => hsub j (hj.trans hi)
        obtain ⟨j, hj, hqj⟩ := Nat.exists_of_count_lt_count (p := q) (a := i) (b := n) (by omega)
        rw [Set.mem_Ico] at hj
        rcases Nat.eq_or_lt_of_le hj.1 with rfl | hij
        · exact hq hqj
        · exact hgap i j hij hj.2 hqj hq hp
      · exact hnone i hi hq hp

end Tklb.Foundation
