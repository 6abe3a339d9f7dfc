import Mathlib.Algebra.BigOperators.Group.Finset.Basic
import Tklb.Foundation.Unsigned

/-!
# Counted loops over a memory

`countUp n body` is the loop `for (i = 0; i < n; i++)` with an explicit state.
The loops of this development write into a memory, a function from addresses to
values, and have one of two shapes:

* `modifyEach` — one pass, iteration `i` rewrites the cell `addr i` from what is
  in it;
* `modifyGrid` — a loop of such passes, pass `c` rewriting the cells `addr c i`.

As long as no two iterations meet in a cell, the order of the iterations does not
matter, and the loop is its pointwise description: `modifyEach_addr` and
`modifyGrid_addr` say what the named cells hold afterwards, `modifyEach_of_ne`
and `modifyGrid_of_ne` that nothing else changes.  A loop that reads what need not be there
can fail (`countUpOption`, `copyEach`); where all can be read it is the loop that cannot.
`pointerLoop` is a loop that compares a pointer with its end, and need not meet it.
`stride_injective` is the arithmetic that keeps the cells of a two-dimensional layout apart.

### What is load-bearing

* `countUp_invariant` and `pointerLoop_invariant` are the rules of the two loops.  The invariant
  is indexed by the number of iterations done, so that the loop counter is not part of the
  state.
* `modifyEach_addr` and `modifyGrid_addr` have one hypothesis, that the addresses differ.  With
  it the loop is a definition by cases, and proofs about code with several loops one after the
  other use these instead of an invariant for each.
* `GridInjective` for the common layouts follows from `stride_injective`.
-/

namespace Tklb.Foundation

universe u v

variable {S : Type u} {T : Type v}

/-- `for (i = 0; i < n; i++)`, the state passed from one iteration to the
next. -/
def countUp (n : ℕ) (body : ℕ → S → S) (s : S) : S := Nat.fold n (fun i _ => body i) s

@[simp] theorem countUp_zero (body : ℕ → S → S) (s : S) : countUp 0 body s = s := rfl

theorem countUp_succ (n : ℕ) (body : ℕ → S → S) (s : S) :
    countUp (n + 1) body s = body n (countUp n body s) := rfl

/-- **The loop rule.**  An assertion about the iterations done so far that every
iteration keeps holds after the last one. -/
theorem countUp_invariant {n : ℕ} {body : ℕ → S → S} {s : S} (P : ℕ → S → Prop)
    (hstart : P 0 s) (hstep : ∀ i < n, ∀ s, P i s → P (i + 1) (body i s)) :
    P n (countUp n body s) := by
  induction n with
  | zero => exact hstart
  | succ n ih =>
      rw [countUp_succ]
      apply hstep n (Nat.lt_succ_self n)
      exact ih fun i hi => hstep i (Nat.lt_succ_of_lt hi)

/-- Only what the body does at the indices of the loop matters. -/
theorem countUp_congr {n : ℕ} {body body' : ℕ → S → S}
    (h : ∀ i < n, body i = body' i) (s : S) : countUp n body s = countUp n body' s := by
  induction n with
  | zero => rfl
  | succ n ih =>
      rw [countUp_succ, countUp_succ, h n (Nat.lt_succ_self n),
        ih fun i hi => h i (Nat.lt_succ_of_lt hi)]

/-- A loop that works on one part of its state is the loop on that part. -/
theorem countUp_hom {n : ℕ} {body : ℕ → S → S} {body' : ℕ → T → T} (f : S → T)
    (h : ∀ i < n, ∀ s, body' i (f s) = f (body i s)) (s : S) :
    countUp n body' (f s) = f (countUp n body s) := by
  induction n with
  | zero => rfl
  | succ n ih =>
      rw [countUp_succ, countUp_succ, ih fun i hi => h i (Nat.lt_succ_of_lt hi),
        h n (Nat.lt_succ_self n)]

/-- A second loop variable, advanced by `next` after every iteration, has the
value `value i` in iteration `i`. -/
theorem countUp_counter {J : Type v} {n : ℕ} (next : J → J) (value : ℕ → J)
    (hnext : ∀ i, value (i + 1) = next (value i)) (body : ℕ → J → S → S) (s : S) :
    countUp n (fun i (p : J × S) => (next p.1, body i p.1 p.2)) (value 0, s) =
      (value n, countUp n (fun i => body i (value i)) s) := by
  induction n with
  | zero => rfl
  | succ n ih => rw [countUp_succ, countUp_succ, ih, hnext]

/-- A second loop variable that advances by `step` in unsigned arithmetic, as long
as it does not overflow in any iteration. -/
theorem countUp_stride {w n start step : ℕ} (hfit : ∀ i < n, start + i * step < 2 ^ w)
    (body : ℕ → ℕ → S → S) (s : S) :
    countUp n (fun i (p : ℕ × S) => (wrap w (p.1 + step), body i p.1 p.2))
      (wrap w start, s) =
      (wrap w (start + n * step), countUp n (fun i => body i (start + i * step)) s) := by
  have hnext : ∀ i, wrap w (start + (i + 1) * step) =
      wrap w (wrap w (start + i * step) + step) := by
    intro i
    unfold wrap
    rw [Nat.mod_add_mod, Nat.add_mul, Nat.one_mul, Nat.add_assoc]
  have hcounter := countUp_counter (n := n) (fun j => wrap w (j + step))
    (fun i => wrap w (start + i * step)) hnext body s
  simp only [Nat.zero_mul, Nat.add_zero] at hcounter
  rw [hcounter]
  congr 1
  apply countUp_congr
  intro i hi
  rw [wrap_of_lt (hfit i hi)]

/-- Going through what the indices of a loop are mapped to, in order, is a loop. -/
theorem foldl_map_range (n : ℕ) (f : ℕ → T) (step : S → T → S) (s : S) :
    ((List.range n).map f).foldl step s = countUp n (fun i s => step s (f i)) s := by
  induction n with
  | zero => rfl
  | succ n ih =>
      rw [List.range_succ, List.map_append, List.foldl_append, ih, countUp_succ]
      rfl

/-- Going through several lists, one after the other. -/
theorem foldl_flatMap_range (n : ℕ) (f : ℕ → List T) (step : S → T → S) (s : S) :
    ((List.range n).flatMap f).foldl step s = countUp n (fun i s => (f i).foldl step s) s := by
  induction n with
  | zero => rfl
  | succ n ih =>
      rw [List.range_succ, List.flatMap_append, List.foldl_append, ih, countUp_succ,
        List.flatMap_singleton]

/-- A loop that records what it visits. -/
theorem countUp_append (n : ℕ) (visit : ℕ → List T) :
    (countUp n fun i s => s ++ visit i) = fun s => s ++ (List.range n).flatMap visit := by
  funext s
  induction n with
  | zero => simp
  | succ n ih =>
      rw [countUp_succ, ih, List.range_succ, List.flatMap_append, List.append_assoc,
        List.flatMap_singleton]

/-- An accumulating loop computes the sum of what it adds. -/
theorem countUp_add {M : Type u} [AddCommMonoid M] (n : ℕ) (value : ℕ → M) (a : M) :
    countUp n (fun i acc => acc + value i) a = a + ∑ i ∈ Finset.range n, value i := by
  induction n with
  | zero => rw [Finset.range_zero, Finset.sum_empty, add_zero, countUp_zero]
  | succ n ih => rw [countUp_succ, ih, Finset.sum_range_succ, add_assoc]

/-! ### Loops that can fail -/

section Option

variable {n : ℕ} {body : ℕ → S → Option S} {s : S}

/-- A loop whose iterations can fail; it ends where one does. -/
def countUpOption (n : ℕ) (body : ℕ → S → Option S) (s : S) : Option S :=
  countUp n (fun i s? => s?.bind (body i)) (some s)

/-- If no iteration fails in a state that the ones before lead to, it is an ordinary
loop. -/
theorem countUpOption_of_some {f : ℕ → S → S} (P : ℕ → S → Prop) (hstart : P 0 s)
    (hstep : ∀ i < n, ∀ s, P i s → body i s = some (f i s) ∧ P (i + 1) (f i s)) :
    countUpOption n body s = some (countUp n f s) := by
  refine (countUp_invariant
    (fun k (s? : Option S) => s? = some (countUp k f s) ∧ P k (countUp k f s))
    ⟨rfl, hstart⟩ ?_).1
  rintro i hi s? ⟨rfl, hinv⟩
  rw [Option.bind_some, countUp_succ]
  exact hstep i hi _ hinv

/-- Only what the body does at the indices of the loop matters. -/
theorem countUpOption_congr {body' : ℕ → S → Option S} (h : ∀ i < n, ∀ s, body i s = body' i s)
    (s : S) : countUpOption n body s = countUpOption n body' s := by
  refine countUp_congr (fun i hi => ?_) (some s)
  funext s?
  rw [show body i = body' i from funext (h i hi)]

/-- An iteration that fails in every state. -/
theorem countUpOption_of_none {i : ℕ} (hi : i < n) (h : ∀ s, body i s = none) (s : S) :
    countUpOption n body s = none := by
  refine countUp_invariant (fun k (s? : Option S) => i < k → s? = none)
    (fun hlt => absurd hlt (Nat.not_lt_zero i)) ?_ hi
  intro k _ s? hnone hlt
  rcases Nat.lt_succ_iff_lt_or_eq.mp hlt with hbefore | rfl
  · rw [hnone hbefore, Option.bind_none]
  · cases s? with
    | none => rfl
    | some s => exact h s

/-- A loop that fails at once. -/
theorem countUpOption_first (hpos : 0 < n) (h : body 0 s = none) :
    countUpOption n body s = none := by
  refine (countUp_invariant (fun k (s? : Option S) => (k = 0 ∧ s? = some s) ∨ s? = none)
    (Or.inl ⟨rfl, rfl⟩) ?_).resolve_left fun hstart => by omega
  rintro k - s? (⟨rfl, rfl⟩ | rfl)
  · exact Or.inr h
  · exact Or.inr rfl

end Option

/-! ### Loops over pointers -/

section Pointer

variable {body : ℕ → S → Option S} {last step : ℕ}

/-- `while (p != last) { …; p += step; }`; `none` if an iteration fails or the fuel is used
up. -/
def pointerLoop (last step : ℕ) (body : ℕ → S → Option S) : ℕ → ℕ → S → Option S
  | 0, p, s => if p = last then some s else none
  | fuel + 1, p, s =>
      if p = last then some s
      else (body p s).bind (pointerLoop last step body fuel (p + step))

/-- **The rule for pointers.**  If `last` is `k` steps away, a loop with fuel for them ends,
and an assertion about the steps done so far that every step keeps holds at the end. -/
theorem pointerLoop_invariant {k : ℕ} (hpos : 0 < step) (hlast : last = k * step)
    (P : ℕ → S → Prop)
    (hbody : ∀ j < k, ∀ s, P j s → ∃ s', body (j * step) s = some s' ∧ P (j + 1) s') :
    ∀ (fuel j : ℕ) (s : S), j ≤ k → k - j ≤ fuel → P j s →
      ∃ s', pointerLoop last step body fuel (j * step) s = some s' ∧ P k s' := by
  intro fuel
  induction fuel with
  | zero =>
      intro j s hle hfuel hs
      obtain rfl : j = k := by omega
      exact ⟨s, if_pos hlast.symm, hs⟩
  | succ fuel ih =>
      intro j s hle hfuel hs
      rw [pointerLoop]
      rcases hle.lt_or_eq with hlt | rfl
      · have hne : j * step ≠ last := by
          rw [hlast]
          exact (Nat.mul_lt_mul_of_pos_right hlt hpos).ne
        obtain ⟨s', hcall, hs'⟩ := hbody j hlt s hs
        rw [if_neg hne, hcall, Option.bind_some, ← Nat.succ_mul]
        exact ih (j + 1) s' hlt (by omega) hs'
      · exact ⟨s, if_pos hlast.symm, hs⟩

theorem pointerLoop_of_start {k : ℕ} (hpos : 0 < step) (hlast : last = k * step)
    (P : ℕ → S → Prop)
    (hbody : ∀ j < k, ∀ s, P j s → ∃ s', body (j * step) s = some s' ∧ P (j + 1) s')
    {fuel : ℕ} (hfuel : k ≤ fuel) {s : S} (hstart : P 0 s) :
    ∃ s', pointerLoop last step body fuel 0 s = some s' ∧ P k s' := by
  have hloop := pointerLoop_invariant hpos hlast P hbody fuel 0 s (Nat.zero_le k) hfuel hstart
  rwa [Nat.zero_mul] at hloop

end Pointer

/-! ### Loops that write -/

section Memory

variable {α : Type u} {n : ℕ}

/-- A loop that keeps rewriting one cell. -/
theorem countUp_update (a : ℕ) (f : ℕ → α → α) (m : ℕ → α) :
    countUp n (fun i m => Function.update m a (f i (m a))) m =
      Function.update m a (countUp n f (m a)) := by
  induction n with
  | zero => exact (Function.update_eq_self a m).symm
  | succ n ih =>
      rw [countUp_succ, countUp_succ, ih, Function.update_self, Function.update_idem]

/-- `for (i = 0; i < n; i++) m[addr i] = f i m[addr i]`. -/
def modifyEach (n : ℕ) (addr : ℕ → ℕ) (f : ℕ → α → α) (m : ℕ → α) : ℕ → α :=
  countUp n (fun i m => Function.update m (addr i) (f i (m (addr i)))) m

/-- A cell the loop does not name keeps its value. -/
theorem modifyEach_of_ne {addr : ℕ → ℕ} {f : ℕ → α → α} {m : ℕ → α} {k : ℕ}
    (h : ∀ i < n, addr i ≠ k) : modifyEach n addr f m k = m k := by
  unfold modifyEach
  refine countUp_invariant (fun _ (m' : ℕ → α) => m' k = m k) ?_ ?_
  · rfl
  · intro i hi m' hm'
    rw [Function.update_of_ne (h i hi).symm, hm']

/-- The cell iteration `i` names holds what that iteration computed from the
value before the loop. -/
theorem modifyEach_addr {addr : ℕ → ℕ} {f : ℕ → α → α} {m : ℕ → α}
    (hinj : ∀ i < n, ∀ j < n, addr i = addr j → i = j) {i : ℕ} (hi : i < n) :
    modifyEach n addr f m (addr i) = f i (m (addr i)) := by
  induction n with
  | zero => exact absurd hi (Nat.not_lt_zero i)
  | succ n ih =>
      have hinj' : ∀ i < n, ∀ j < n, addr i = addr j → i = j := fun i hi j hj =>
        hinj i (Nat.lt_succ_of_lt hi) j (Nat.lt_succ_of_lt hj)
      have hunfold : modifyEach (n + 1) addr f m =
          Function.update (modifyEach n addr f m) (addr n)
            (f n (modifyEach n addr f m (addr n))) := rfl
      rw [hunfold]
      rcases Nat.lt_succ_iff_lt_or_eq.mp hi with hlt | rfl
      · have hne : addr i ≠ addr n := fun h =>
          absurd (hinj i hi n (Nat.lt_succ_self n) h) (Nat.ne_of_lt hlt)
        rw [Function.update_of_ne hne, ih hinj' hlt]
      · have hfresh : ∀ j < i, addr j ≠ addr i := fun j hj h =>
          absurd (hinj j (Nat.lt_succ_of_lt hj) i hi h) (Nat.ne_of_lt hj)
        rw [Function.update_self, modifyEach_of_ne hfresh]

/-- `for (i = 0; i < n; i++) m[addr i] = source[i]`, where not everything can be read. -/
def copyEach (n : ℕ) (addr : ℕ → ℕ) (source : ℕ → Option α) (m : ℕ → α) : Option (ℕ → α) :=
  countUpOption n (fun i m => (source i).map (Function.update m (addr i))) m

theorem copyEach_of_some {addr : ℕ → ℕ} {source : ℕ → Option α} {value : ℕ → α}
    (h : ∀ i < n, source i = some (value i)) (m : ℕ → α) :
    copyEach n addr source m = some (modifyEach n addr (fun i _ => value i) m) := by
  refine countUpOption_of_some (fun _ _ => True) trivial fun i hi m _ => ⟨?_, trivial⟩
  rw [h i hi, Option.map_some]

/-- Only the cells that are read matter. -/
theorem copyEach_congr {addr : ℕ → ℕ} {source source' : ℕ → Option α}
    (h : ∀ i < n, source i = source' i) (m : ℕ → α) :
    copyEach n addr source m = copyEach n addr source' m := by
  refine countUpOption_congr (fun i hi m => ?_) m
  rw [h i hi]

/-- Reading one bad cell is enough. -/
theorem copyEach_of_none {addr : ℕ → ℕ} {source : ℕ → Option α} {i : ℕ} (hi : i < n)
    (h : source i = none) (m : ℕ → α) : copyEach n addr source m = none := by
  refine countUpOption_of_none hi (fun m => ?_) m
  rw [h, Option.map_none]

/-- A loop of passes: pass `c` rewrites the cells `addr c i`. -/
def modifyGrid (rows n : ℕ) (addr : ℕ → ℕ → ℕ) (f : ℕ → ℕ → α → α) (m : ℕ → α) : ℕ → α :=
  countUp rows (fun c => modifyEach n (addr c) (f c)) m

/-- No two iterations of a loop of passes meet in a cell.  For cells of a two-dimensional layout it
follows from the distance of the rows. -/
def GridInjective (rows n : ℕ) (addr : ℕ → ℕ → ℕ) : Prop :=
  ∀ c < rows, ∀ i < n, ∀ d < rows, ∀ j < n, addr c i = addr d j → c = d ∧ i = j

variable {rows : ℕ} {addr : ℕ → ℕ → ℕ} {f : ℕ → ℕ → α → α} {m : ℕ → α}

/-- Only what is written at the indices of the loop matters. -/
theorem modifyGrid_congr {f' : ℕ → ℕ → α → α} (h : ∀ c < rows, ∀ i < n, f c i = f' c i) :
    modifyGrid rows n addr f m = modifyGrid rows n addr f' m := by
  refine countUp_congr (fun c hc => funext fun m => countUp_congr (fun i hi => ?_) m) m
  rw [h c hc i hi]

theorem modifyGrid_of_ne {k : ℕ} (h : ∀ c < rows, ∀ i < n, addr c i ≠ k) :
    modifyGrid rows n addr f m k = m k := by
  unfold modifyGrid
  refine countUp_invariant (fun _ (m' : ℕ → α) => m' k = m k) ?_ ?_
  · rfl
  · intro c hc m' hm'
    show modifyEach n (addr c) (f c) m' k = m k
    rw [modifyEach_of_ne (h c hc), hm']

/-- **Loops over a grid of cells.**  If no two iterations meet, the order in
which the cells are visited does not matter. -/
theorem modifyGrid_addr (hinj : GridInjective rows n addr) {c i : ℕ} (hc : c < rows)
    (hi : i < n) : modifyGrid rows n addr f m (addr c i) = f c i (m (addr c i)) := by
  induction rows with
  | zero => exact absurd hc (Nat.not_lt_zero c)
  | succ rows ih =>
      have hunfold : modifyGrid (rows + 1) n addr f m =
          modifyEach n (addr rows) (f rows) (modifyGrid rows n addr f m) := rfl
      have hinj' : GridInjective rows n addr := fun c hc i hi d hd j hj =>
        hinj c (Nat.lt_succ_of_lt hc) i hi d (Nat.lt_succ_of_lt hd) j hj
      rw [hunfold]
      rcases Nat.lt_succ_iff_lt_or_eq.mp hc with hlt | rfl
      · -- an earlier pass wrote the cell, the last one stays away from it
        have hne : ∀ j < n, addr rows j ≠ addr c i := fun j hj h =>
          absurd (hinj rows (Nat.lt_succ_self rows) j hj c hc i hi h).1.symm (Nat.ne_of_lt hlt)
        rw [modifyEach_of_ne hne, ih hinj' hlt]
      · have hfresh : ∀ d < c, ∀ j < n, addr d j ≠ addr c i := fun d hd j hj h =>
          absurd (hinj d (Nat.lt_succ_of_lt hd) j hj c hc i hi h).1 (Nat.ne_of_lt hd)
        have hrow : ∀ i < n, ∀ j < n, addr c i = addr c j → i = j := fun i hi j hj h =>
          (hinj c hc i hi c hc j hj h).2
        rw [modifyEach_addr hrow hi, modifyGrid_of_ne hfresh]

/-- Rows of `s` cells, laid out one after the other, do not overlap. -/
theorem stride_injective {s c d i j : ℕ} (hi : i < s) (hj : j < s)
    (h : c * s + i = d * s + j) : c = d ∧ i = j := by
  have hmod : i = j := by
    rw [← Nat.mul_add_mod_of_lt (a := c) hi, h, Nat.mul_add_mod_of_lt hj]
  have hmul : c * s = d * s := by omega
  exact ⟨Nat.eq_of_mul_eq_mul_right (Nat.zero_lt_of_lt hi) hmul, hmod⟩

end Memory

end Tklb.Foundation
