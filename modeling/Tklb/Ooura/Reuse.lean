import Tklb.Ooura.RealTransform

/-!
# One transform after the other

`rdft` writes to `mIp`: behind the two lengths, `bitrv2` keeps its table of indices there.  So
the transforms of one object share their tables, and what a transform finds in them depends on
the transforms before it.  What it computes does not (`rdft_congr`): the lengths and the
twiddles stay, and the indices are written before they are read.

`session` is any number of calls, forwards and backwards in any order.

### Main results

* `session_answers` — any number of calls on one object: each answers as if it were the first.
* `session_tables` — the same with what the answers are, for the tables of the constructor.
* `transforms_inverse` — there and back, with other calls before and in between.

An object of the class is used for many transforms, so a result about a single call with fresh
tables would say nothing about the second one.
-/

namespace Tklb

open Foundation

namespace Ooura

/-- Consecutive calls of `rdft`, each with the sign and the array it is given: `ip` afterwards,
and what each call has left in its array. -/
def session {α : Type} [Field α] (n : ℕ) (w : ℕ → α) :
    (ℕ → ℕ) → List (ℤ × (ℕ → α)) → (ℕ → ℕ) × List (ℕ → α)
  | ip, [] => (ip, [])
  | ip, (isgn, a) :: calls =>
      let r := rdft n isgn a ip w
      let s := session n w r.1 calls
      (s.1, r.2 :: s.2)

variable {p : ℕ} {ip ip' : ℕ → ℕ} {w w' : ℕ → ℝ}

theorem TablesKept.trans {ip'' : ℕ → ℕ} (h : TablesKept p ip ip') (h' : TablesKept p ip' ip'') :
    TablesKept p ip ip'' :=
  ⟨h'.nw.trans h.nw, h'.nc.trans h.nc, fun k hk => (h'.behind k hk).trans (h.behind k hk)⟩

/-- What a call leaves in its array. -/
def Answers (p : ℕ) (call : ℤ × (ℕ → ℝ)) (b : ℕ → ℝ) : Prop :=
  if 0 ≤ call.1 then Packed p call.2 b
  else ∀ i, number b i = if i < 2 ^ p then backSum p (unpacked p call.2) i else number call.2 i

/-- **One call.**  The tables it leaves are still prepared, though not the same as before, and the
array is the transform in the direction of the sign. -/
theorem rdft_answers (hprep : Prepared p ip w) (call : ℤ × (ℕ → ℝ)) :
    TablesKept p ip (rdft (2 ^ (p + 1)) call.1 call.2 ip w).1 ∧
      Answers p call (rdft (2 ^ (p + 1)) call.1 call.2 ip w).2 := by
  unfold Answers
  by_cases hisgn : 0 ≤ call.1
  · rw [if_pos hisgn]
    exact rdft_forward hprep hisgn call.2
  · rw [if_neg hisgn]
    exact rdft_backward hprep (lt_of_not_ge hisgn) call.2

/-- **Any number of calls.**  Each finds the tables as they were, and answers as if it were the
first. -/
theorem session_answers (hprep : Prepared p ip w) (calls : List (ℤ × (ℕ → ℝ))) :
    TablesKept p ip (session (2 ^ (p + 1)) w ip calls).1 ∧
      List.Forall₂ (Answers p) calls (session (2 ^ (p + 1)) w ip calls).2 := by
  induction calls generalizing ip with
  | nil => exact ⟨TablesKept.refl p ip, List.Forall₂.nil⟩
  | cons call calls ih =>
      obtain ⟨hkept, hanswer⟩ := rdft_answers hprep call
      obtain ⟨hkept', hanswers⟩ := ih (hprep.kept hkept)
      exact ⟨hkept.trans hkept', List.Forall₂.cons hanswer hanswers⟩

/-! ### The answer is determined -/

theorem realSpectrum_congr {a a' : ℕ → ℝ} (h : ∀ i < 2 ^ (p + 1), a i = a' i) (k : ℕ) :
    realSpectrum p a k = realSpectrum p a' k := by
  rw [realSpectrum, realSpectrum, dftSum, dftSum]
  refine Finset.sum_congr rfl fun i hi => ?_
  rw [h i (Finset.mem_range.mp hi)]

/-- Arrays agree when their numbers do. -/
theorem eq_of_numbers {a a' : ℕ → ℝ} (h : ∀ k < 2 ^ p, number a k = number a' k) {i : ℕ}
    (hi : i < 2 ^ (p + 1)) : a i = a' i := by
  rw [Nat.pow_succ] at hi
  have hcell := eq_of_pair (number_eq_iff.mp (h (i / 2) (by omega))) (Nat.mod_lt i Nat.two_pos)
  rwa [Nat.div_add_mod] at hcell

theorem number_congr {a a' : ℕ → ℝ} (h : ∀ i < 2 ^ (p + 1), a i = a' i) {k : ℕ}
    (hk : k < 2 ^ p) : number a k = number a' k := by
  rw [Nat.pow_succ] at h
  rw [number, number, h _ (by omega), h _ (by omega)]

theorem unpacked_congr {a a' : ℕ → ℝ} (h : ∀ i < 2 ^ (p + 1), a i = a' i) {k : ℕ}
    (hk : k < 2 ^ p) : unpacked p a k = unpacked p a' k := by
  have hpos := Nat.two_pow_pos p
  have htwo : 2 ≤ 2 ^ (p + 1) := by
    rw [Nat.pow_succ]
    omega
  rw [unpacked, unpacked, h 0 (by omega), h 1 (by omega)]
  by_cases hzero : k = 0
  · rw [if_pos hzero, if_pos hzero]
  · rw [if_neg hzero, if_neg hzero, merge, merge, number_congr h hk, number_congr h (by omega)]

/-- Only the spectrum matters to what is packed. -/
theorem Packed.unique {a a' b b' : ℕ → ℝ} (hb : Packed p a b) (hb' : Packed p a' b')
    (h : ∀ i < 2 ^ (p + 1), a i = a' i) {i : ℕ} (hi : i < 2 ^ (p + 1)) : b i = b' i := by
  refine eq_of_numbers (fun k hk => ?_) hi
  by_cases hzero : k = 0
  · subst hzero
    have hfirst : b 0 = b' 0 := by
      exact_mod_cast (hb.first.trans (realSpectrum_congr h 0)).trans hb'.first.symm
    have hlast : b 1 = b' 1 := by
      exact_mod_cast (hb.last.trans (realSpectrum_congr h _)).trans hb'.last.symm
    rw [number, number, Nat.mul_zero, Nat.zero_add, hfirst, hlast]
  · rw [hb.bins k (by omega) hk, hb'.bins k (by omega) hk, realSpectrum_congr h]

/-- **The tables do not matter**, as long as they are prepared, nor does what is behind the
array. -/
theorem rdft_congr (hprep : Prepared p ip w) (hprep' : Prepared p ip' w') (isgn : ℤ)
    {a a' : ℕ → ℝ} (h : ∀ i < 2 ^ (p + 1), a i = a' i) {i : ℕ} (hi : i < 2 ^ (p + 1)) :
    (rdft (2 ^ (p + 1)) isgn a ip w).2 i = (rdft (2 ^ (p + 1)) isgn a' ip' w').2 i := by
  have hanswer := (rdft_answers hprep (isgn, a)).2
  have hanswer' := (rdft_answers hprep' (isgn, a')).2
  unfold Answers at hanswer hanswer'
  by_cases hisgn : 0 ≤ isgn
  · rw [if_pos hisgn] at hanswer hanswer'
    exact hanswer.unique hanswer' h hi
  · rw [if_neg hisgn] at hanswer hanswer'
    refine eq_of_numbers (fun k hk => ?_) hi
    rw [hanswer, hanswer', if_pos hk, if_pos hk]
    exact backSum_congr (fun j hj => unpacked_congr h hj) k

/-! ### With the tables of the constructor -/

/-- The transforms of an object that was just constructed. -/
noncomputable def newSession (p : ℕ) (ip₀ : ℕ → ℕ) (w₀ : ℕ → ℝ) (calls : List (ℤ × (ℕ → ℝ))) :
    (ℕ → ℕ) × List (ℕ → ℝ) :=
  let t := tables realTrig (2 ^ (p + 1)) ip₀ w₀
  session (2 ^ (p + 1)) t.2 t.1 calls

/-- **Every run of transforms** of one object, in any order: what each leaves in its array is its
transform, and the calls stay inside of `mIp`. -/
theorem session_tables (p : ℕ) (ip₀ : ℕ → ℕ) (w₀ : ℕ → ℝ) (calls : List (ℤ × (ℕ → ℝ))) :
    List.Forall₂ (Answers p) calls (newSession p ip₀ w₀ calls).2 ∧
      ∀ k, 2 + Nat.sqrt (2 ^ (p + 1)) ≤ k → (newSession p ip₀ w₀ calls).1 k = ip₀ k := by
  obtain ⟨hkept, hanswers⟩ := session_answers (prepared_tables ip₀ w₀ p) calls
  refine ⟨hanswers, fun k hk => (hkept.behind k hk).trans ?_⟩
  exact (tables_kept ip₀ w₀ p).1 k hk

/-- The calls `before`, a transform of `a`, the calls `between`, and a transform of what the first
one has left: what the second one leaves. -/
noncomputable def thereAndBack (p : ℕ) (ip₀ : ℕ → ℕ) (w₀ : ℕ → ℝ)
    (before between : List (ℤ × (ℕ → ℝ))) (first second : ℤ) (a : ℕ → ℝ) : ℕ → ℝ :=
  let w := (tables realTrig (2 ^ (p + 1)) ip₀ w₀).2
  let r := rdft (2 ^ (p + 1)) first a (newSession p ip₀ w₀ before).1 w
  (rdft (2 ^ (p + 1)) second r.2 (session (2 ^ (p + 1)) w r.1 between).1 w).2

/-- **The two transforms are inverse to each other** up to half the length, in both orders, and
whatever transforms the object has done before each of them. -/
theorem transforms_inverse (p : ℕ) (ip₀ : ℕ → ℕ) (w₀ : ℕ → ℝ)
    (before between : List (ℤ × (ℕ → ℝ))) {first second : ℤ} (hsigns : 0 ≤ first ↔ second < 0)
    (a : ℕ → ℝ) {i : ℕ} (hi : i < 2 ^ (p + 1)) :
    thereAndBack p ip₀ w₀ before between first second a i = (2 ^ p : ℕ) * a i := by
  have hbuilt := prepared_tables ip₀ w₀ p
  have hprep := hbuilt.kept (session_answers hbuilt before).1
  have hafter := hprep.kept (rdft_answers hprep (first, a)).1
  have hprep' := hafter.kept (session_answers hafter between).1
  rcases lt_or_ge second 0 with hback | hforward
  · exact backward_forward hprep hprep' (hsigns.mpr hback) hback a hi
  · exact forward_backward hprep hprep' hforward
      (Int.not_le.mp fun hfirst => absurd (hsigns.mp hfirst) (Int.not_lt.mpr hforward)) a hi

/-- Four samples there and back, after a transform of zeros. -/
theorem transforms_inverse_four :
    thereAndBack 1 0 0 [(1, 0)] [] 1 (-1) (fun i => (i : ℝ)) 3 = (2 ^ 1 : ℕ) * (3 : ℕ) :=
  transforms_inverse 1 0 0 [(1, 0)] [] (by decide) (fun i => (i : ℝ)) (by decide)

end Ooura

end Tklb
