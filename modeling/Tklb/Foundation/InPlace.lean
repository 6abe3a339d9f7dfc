import Mathlib.Algebra.Order.Floor.Div
import Mathlib.Data.Set.Basic
import Tklb.Foundation.Loops

/-!
# Passes in place

A pass over a memory is often made of parts that keep to their own cells: what a part leaves
in its cells depends on nothing but them, and it writes to no others (`ActsOn`).  If the parts
have no cell in common, each of them finds its cells as they were before the pass
(`countUp_of_mem`), and the pass as a whole keeps to the cells of its parts
(`ActsOn.countUp`).

Some parts rewrite two cells from what is in them (`rewriteTwo`), and some passes exchange
the contents of cells, one pair after the other.  If the pairs have no cell in
common, all of them are exchanged (`exchangeAll_apply`).

### What is load-bearing

A pass in place can be taken apart only because its parts do not get into the way of each other.
`ActsOn` puts what that means into one structure: the cells a part writes to, and the cells that
decide what it writes, are the same set.  With it the order of the parts does not matter, and a
pass is described cell by cell.

Passes are nested, so `ActsOn.countUp` gives back what it takes: a loop over parts is a part.
-/

namespace Tklb.Foundation

universe u

/-- `for (i = start; i < stop; i += step)`, the state passed from one iteration to the next. -/
def countBy {S : Type u} (start stop step : ℕ) (body : ℕ → S → S) (s : S) : S :=
  countUp ((stop - start) ⌈/⌉ step) (fun i => body (start + i * step)) s

/-- A loop over a whole number of steps. -/
theorem countBy_eq_countUp {S : Type u} {start stop step n : ℕ} (hstep : 0 < step)
    (hstop : stop = start + n * step) (body : ℕ → S → S) (s : S) :
    countBy start stop step body s = countUp n (fun i => body (start + i * step)) s := by
  have hcount : (stop - start) ⌈/⌉ step = n := by
    rw [hstop, Nat.add_sub_cancel_left, Nat.ceilDiv_eq_add_pred_div, Nat.add_sub_assoc hstep,
      Nat.mul_comm, Nat.mul_add_div hstep, Nat.div_eq_of_lt (Nat.sub_lt hstep Nat.one_pos),
      Nat.add_zero]
  rw [countBy, hcount]

theorem countUp_succ_first {S : Type u} (n : ℕ) (body : ℕ → S → S) (s : S) :
    countUp (n + 1) body s = countUp n (fun i => body (i + 1)) (body 0 s) := by
  induction n with
  | zero => rfl
  | succ n ih => rw [countUp_succ, ih, countUp_succ]

variable {β : Type u}

/-! ### Parts that keep to their cells -/

/-- A part of a pass that neither reads nor writes outside of the cells in `cells`. -/
structure ActsOn (cells : Set ℕ) (part : (ℕ → β) → ℕ → β) : Prop where
  kept : ∀ m c, c ∉ cells → part m c = m c
  determined : ∀ m m', (∀ c ∈ cells, m c = m' c) → ∀ c ∈ cells, part m c = part m' c

section Parts

variable {n : ℕ} {cells : ℕ → Set ℕ} {part : ℕ → (ℕ → β) → ℕ → β}

/-- Cells outside of all parts. -/
theorem countUp_of_notMem (h : ∀ i < n, ActsOn (cells i) (part i)) {c : ℕ}
    (hc : ∀ i < n, c ∉ cells i) (m : ℕ → β) : countUp n part m c = m c := by
  refine countUp_invariant (fun _ (m' : ℕ → β) => m' c = m c) rfl fun i hi m' hm' => ?_
  rw [(h i hi).kept m' c (hc i hi), hm']

/-- **Each part finds its cells as they were before the pass.**  The parts before have not touched
the cells, and those behind will not, so what is left there is what this part alone would leave. -/
theorem countUp_of_mem (h : ∀ i < n, ActsOn (cells i) (part i))
    (hapart : ∀ i < n, ∀ j < n, i ≠ j → ∀ c ∈ cells i, c ∉ cells j) {i c : ℕ} (hi : i < n)
    (hc : c ∈ cells i) (m : ℕ → β) : countUp n part m c = part i m c := by
  induction n with
  | zero => exact absurd hi (Nat.not_lt_zero i)
  | succ n ih =>
      have hbefore : ∀ i < n, ActsOn (cells i) (part i) := fun i hi =>
        h i (Nat.lt_succ_of_lt hi)
      rw [countUp_succ]
      rcases Nat.lt_succ_iff_lt_or_eq.mp hi with hlt | rfl
      · have hother : c ∉ cells n := hapart i hi n (Nat.lt_succ_self n) hlt.ne c hc
        rw [(h n (Nat.lt_succ_self n)).kept _ c hother]
        exact ih hbefore (fun i hi j hj => hapart i (Nat.lt_succ_of_lt hi) j
          (Nat.lt_succ_of_lt hj)) hlt
      · refine (h i hi).determined _ _ (fun d hd => ?_) c hc
        refine countUp_of_notMem hbefore (fun j hj hmem => ?_) m
        exact hapart j (Nat.lt_succ_of_lt hj) i hi hj.ne d hmem hd

/-- **A pass keeps to the cells of its parts.**  So a loop of such parts may be a part of another
loop, and nested passes are described from the inside out. -/
theorem ActsOn.countUp (h : ∀ i < n, ActsOn (cells i) (part i))
    (hapart : ∀ i < n, ∀ j < n, i ≠ j → ∀ c ∈ cells i, c ∉ cells j) :
    ActsOn {c | ∃ i < n, c ∈ cells i} (countUp n part) where
  kept m c hc := countUp_of_notMem h (fun i hi hmem => hc ⟨i, hi, hmem⟩) m
  determined := by
    rintro m m' hsame c ⟨i, hi, hc⟩
    rw [countUp_of_mem h hapart hi hc, countUp_of_mem h hapart hi hc]
    exact (h i hi).determined m m' (fun d hd => hsame d ⟨i, hi, hd⟩) c hc

end Parts

/-! ### Two cells -/

section TwoCells

variable {x y : ℕ} (u v : β → β → β)

/-- Two cells get what is computed from their contents. -/
def rewriteTwo (x y : ℕ) (u v : β → β → β) (m : ℕ → β) : ℕ → β :=
  Function.update (Function.update m x (u (m x) (m y))) y (v (m x) (m y))

theorem rewriteTwo_left (hne : x ≠ y) (m : ℕ → β) :
    rewriteTwo x y u v m x = u (m x) (m y) := by
  rw [rewriteTwo, Function.update_of_ne hne, Function.update_self]

theorem rewriteTwo_right (x y : ℕ) (m : ℕ → β) :
    rewriteTwo x y u v m y = v (m x) (m y) := by
  rw [rewriteTwo, Function.update_self]

theorem rewriteTwo_of_ne {c : ℕ} (hx : c ≠ x) (hy : c ≠ y) (m : ℕ → β) :
    rewriteTwo x y u v m c = m c := by
  rw [rewriteTwo, Function.update_of_ne hy, Function.update_of_ne hx]

theorem actsOn_rewriteTwo (hne : x ≠ y) : ActsOn {c | c = x ∨ c = y} (rewriteTwo x y u v) where
  kept m c hc := rewriteTwo_of_ne u v (fun h => hc (Or.inl h)) (fun h => hc (Or.inr h)) m
  determined := by
    rintro m m' hsame c (rfl | rfl)
    · rw [rewriteTwo_left u v hne, rewriteTwo_left u v hne, hsame c (Or.inl rfl),
        hsame y (Or.inr rfl)]
    · rw [rewriteTwo_right, rewriteTwo_right, hsame x (Or.inl rfl), hsame c (Or.inr rfl)]

end TwoCells

/-! ### Exchanging cells -/

/-- The contents of two cells change places. -/
def exchange (x y : ℕ) : (ℕ → β) → ℕ → β := rewriteTwo x y (fun _ b => b) fun a _ => a

theorem exchange_left {x y : ℕ} (hne : x ≠ y) (m : ℕ → β) : exchange x y m x = m y :=
  rewriteTwo_left _ _ hne m

theorem exchange_right (x y : ℕ) (m : ℕ → β) : exchange x y m y = m x :=
  rewriteTwo_right _ _ x y m

theorem exchange_of_ne {x y c : ℕ} (hx : c ≠ x) (hy : c ≠ y) (m : ℕ → β) :
    exchange x y m c = m c :=
  rewriteTwo_of_ne _ _ hx hy m

/-- Each cell of the list changes places with its partner. -/
def exchangeAll (partner : ℕ → ℕ) (xs : List ℕ) (m : ℕ → β) : ℕ → β :=
  xs.foldl (fun m x => exchange x (partner x) m) m

section Exchanges

variable {partner : ℕ → ℕ} {xs : List ℕ}

/-- A cell that is in no pair. -/
theorem exchangeAll_of_ne {c : ℕ} (hc : ∀ x ∈ xs, c ≠ x ∧ c ≠ partner x) (m : ℕ → β) :
    exchangeAll partner xs m c = m c := by
  induction xs generalizing m with
  | nil => rfl
  | cons y xs ih =>
      have hy := hc y List.mem_cons_self
      show exchangeAll partner xs (exchange y (partner y) m) c = m c
      rw [ih (fun x hx => hc x (List.mem_cons_of_mem y hx)), exchange_of_ne hy.1 hy.2]

theorem exchangeAll_of_mem (hnodup : xs.Nodup) (hpartner : ∀ x ∈ xs, partner (partner x) = x)
    (hone : ∀ x ∈ xs, partner x ∉ xs) {x : ℕ} (hx : x ∈ xs) (m : ℕ → β) :
    exchangeAll partner xs m x = m (partner x) ∧ exchangeAll partner xs m (partner x) = m x := by
  induction xs generalizing m with
  | nil => exact absurd hx List.not_mem_nil
  | cons y xs ih =>
      obtain ⟨hy, hnodup'⟩ := List.nodup_cons.mp hnodup
      have hne : y ≠ partner y := fun h => hone y List.mem_cons_self (h ▸ List.mem_cons_self)
      -- the first pair has no cell in common with another one
      have hapart : ∀ z ∈ xs, (z ≠ y ∧ z ≠ partner y) ∧ partner z ≠ y ∧
          partner z ≠ partner y := by
        intro z hz
        have hzy : z ≠ y := fun h => hy (h ▸ hz)
        refine ⟨⟨hzy, fun h => ?_⟩, fun h => ?_, fun h => hzy ?_⟩
        · exact hone y List.mem_cons_self (h ▸ List.mem_cons_of_mem y hz)
        · exact hone z (List.mem_cons_of_mem y hz) (h ▸ List.mem_cons_self)
        · rw [← hpartner z (List.mem_cons_of_mem y hz), h, hpartner y List.mem_cons_self]
      show exchangeAll partner xs (exchange y (partner y) m) x = _ ∧
        exchangeAll partner xs (exchange y (partner y) m) (partner x) = _
      rcases List.mem_cons.mp hx with rfl | htail
      · rw [exchangeAll_of_ne fun z hz => ⟨(hapart z hz).1.1.symm, (hapart z hz).2.1.symm⟩,
          exchangeAll_of_ne fun z hz => ⟨(hapart z hz).1.2.symm, (hapart z hz).2.2.symm⟩]
        exact ⟨exchange_left hne m, exchange_right _ _ m⟩
      · obtain ⟨⟨h₁, h₂⟩, h₃, h₄⟩ := hapart x htail
        have hrest := ih hnodup' (fun z hz => hpartner z (List.mem_cons_of_mem y hz))
          (fun z hz hmem => hone z (List.mem_cons_of_mem y hz) (List.mem_cons_of_mem y hmem))
          htail (exchange y (partner y) m)
        rw [exchange_of_ne h₃ h₄, exchange_of_ne h₁ h₂] at hrest
        exact hrest

/-- **Exchanging pair by pair.**  If a cell in no pair is its own partner, every cell gets what
was in its partner. -/
theorem exchangeAll_apply (hnodup : xs.Nodup) (hpartner : ∀ x ∈ xs, partner (partner x) = x)
    (hone : ∀ x ∈ xs, partner x ∉ xs)
    (hfixed : ∀ c, c ∉ xs → (∀ x ∈ xs, c ≠ partner x) → partner c = c) (m : ℕ → β) (c : ℕ) :
    exchangeAll partner xs m c = m (partner c) := by
  by_cases hfirst : c ∈ xs
  · exact (exchangeAll_of_mem hnodup hpartner hone hfirst m).1
  · by_cases hsecond : ∃ x ∈ xs, c = partner x
    · obtain ⟨x, hx, rfl⟩ := hsecond
      rw [(exchangeAll_of_mem hnodup hpartner hone hx m).2, hpartner x hx]
    · have hne : ∀ x ∈ xs, c ≠ partner x := fun x hx h => hsecond ⟨x, hx, h⟩
      rw [hfixed c hfirst hne]
      refine exchangeAll_of_ne (fun x hx => ⟨fun h => hfirst ?_, hne x hx⟩) m
      rwa [h]

end Exchanges

end Tklb.Foundation
