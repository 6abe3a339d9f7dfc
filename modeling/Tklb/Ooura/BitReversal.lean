import Mathlib.Algebra.Order.Ring.Nat
import Mathlib.Data.List.Nodup
import Mathlib.Data.Nat.Sqrt
import Mathlib.Tactic.IntervalCases
import Tklb.Foundation.BitReversal
import Tklb.Ooura

/-!
# `bitrv2`

The table `ip` that `bitrv2` computes holds the bit reversals of `0, …, m - 1`, scaled to the
high end of an index (`indexTable_spec`).  Of the bits of an index `s` are below and `s` above
the `q` in the middle, `m = 2 ^ s`; there are two in the middle if `(m << 3) == l`, and one if
not.  The loops exchange the number at `j`, `t`, `k` for the one at `k`, `t` reversed, `j`:
each pair once, for `j < k`, and for `j = k` where the middle bits differ from their reversal.
So all numbers get to where they belong (`pair_bitrv2`).

### Main results

* `indexTable_spec` — the table, for every size, when the loop that builds it ends.
* `exchangeAll_exchanged` — the exchanges of the loops reverse every index.
* `pair_bitrv2` — the numbers in the array afterwards.
* `bitrv2_reverses` — the function as a whole, for every power of two from 4 on and every array:
  where each number goes, that nothing behind the array or behind the table is written, and that
  a second call undoes the first.

### What is load-bearing

The loops are over pairs of entries of the table, and which indices these are is a matter of the
two shapes an index can have, with one bit in the middle or with two.  Both are `threeParts` of
`Foundation.BitReversal`, and the two branches of the source are one argument, with `middle` for
what differs.
-/

namespace Tklb

open Foundation

namespace Ooura

variable {α : Type}

/-- The number at `i`. -/
def pair (a : ℕ → α) (i : ℕ) : α × α := (a (2 * i), a (2 * i + 1))

theorem pair_store (x : ℕ) (re im : α) (a : ℕ → α) :
    pair (store (2 * x) re im a) = Function.update (pair a) x (re, im) := by
  funext i
  by_cases hi : i = x
  · subst hi
    simp [pair, store]
  · have hre : 2 * i ≠ 2 * x := by omega
    have him : 2 * i + 1 ≠ 2 * x + 1 := by omega
    have hre' : 2 * i ≠ 2 * x + 1 := by omega
    have him' : 2 * i + 1 ≠ 2 * x := by omega
    simp only [pair, store, Function.update_of_ne hi, Function.update_of_ne hre,
      Function.update_of_ne him, Function.update_of_ne hre', Function.update_of_ne him']

theorem pair_swap (x y : ℕ) (a : ℕ → α) :
    pair (swap (2 * x) (2 * y) a) = exchange x y (pair a) := by
  rw [swap, pair_store, pair_store]
  rfl

/-- What is in the numbers is what is in the cells. -/
theorem eq_of_pair {a b : ℕ → α} {i j : ℕ} (h : pair a i = pair b j) {e : ℕ} (he : e < 2) :
    a (2 * i + e) = b (2 * j + e) := by
  obtain ⟨hre, him⟩ := Prod.mk.inj h
  interval_cases e
  · exact hre
  · exact him

/-! ### The table -/

/-- One step of the loop doubles the table. -/
theorem countUp_extend (m l : ℕ) (ip : ℕ → ℕ) (k : ℕ) :
    countUp m (fun j ip => Function.update ip (m + j) (ip j + l)) ip k =
      if m ≤ k ∧ k < m + m then ip (k - m) + l else ip k := by
  refine countUp_invariant
    (fun i (ip' : ℕ → ℕ) => ∀ k, ip' k = if m ≤ k ∧ k < m + i then ip (k - m) + l else ip k)
    (fun k => (if_neg (by omega)).symm) (fun i hi ip' hip' k => ?_) k
  by_cases hk : k = m + i
  · subst hk
    rw [Function.update_self, hip' i, if_neg (by omega), if_pos (by omega),
      Nat.add_sub_cancel_left]
  · rw [Function.update_of_ne hk, hip' k]
    exact if_congr (by omega) rfl rfl

/-- The table holds the reversals of the numbers with `s` bits, scaled by `l`. -/
def TableOf (s l : ℕ) (ip : ℕ → ℕ) : Prop := ∀ j < 2 ^ s, ip j = reverseBits s j * l

/-- Half the scale, and one more bit. -/
theorem TableOf.extend {s d : ℕ} {ip : ℕ → ℕ} (h : TableOf s (2 ^ (d + 1)) ip) :
    TableOf (s + 1) (2 ^ d)
      (countUp (2 ^ s) (fun j ip => Function.update ip (2 ^ s + j) (ip j + 2 ^ d)) ip) := by
  intro j hj
  rw [Nat.pow_succ] at hj
  rw [countUp_extend]
  rcases Nat.lt_or_ge j (2 ^ s) with hlow | hhigh
  · rw [if_neg (by omega), h j hlow, reverseBits_of_lt 1 hlow]
    ring
  · have hsplit := reverseBits_add 1 (show j - 2 ^ s < 2 ^ s by omega) 1
    rw [Nat.mul_one, Nat.sub_add_cancel hhigh, reverseBits_one_of_lt Nat.one_lt_two] at hsplit
    rw [if_pos (by omega), h _ (by omega), hsplit]
    ring

/-- **The table** when the loop ends.  Each round appends as many entries as there are and halves
the scale, until that is four or eight times their number; the entries behind the table are left
alone. -/
theorem indexTable_spec (d : ℕ) : ∀ {s : ℕ} {ip : ℕ → ℕ}, s + 2 ≤ d → TableOf s (2 ^ d) ip →
    ∃ s' d' ip', indexTable (2 ^ s) (2 ^ d) ip = (2 ^ s', 2 ^ d', ip') ∧ s' + d' = s + d ∧
      (d' = s' + 2 ∨ d' = s' + 3) ∧ TableOf s' (2 ^ d') ip' ∧ ∀ k, 2 ^ s' ≤ k → ip' k = ip k := by
  induction d with
  | zero =>
      intro s ip hle
      exact absurd hle (by omega)
  | succ d ih =>
      intro s ip hle hip
      have hshift : 2 ^ s <<< 3 = 2 ^ (s + 3) := by rw [Nat.shiftLeft_eq, ← Nat.pow_add]
      have hcond : 2 ^ s <<< 3 < 2 ^ (d + 1) ↔ s + 3 < d + 1 := by
        rw [hshift]
        exact Nat.pow_lt_pow_iff_right Nat.one_lt_two
      rw [indexTable]
      by_cases hlt : s + 3 < d + 1
      · have hhalf : 2 ^ (d + 1) >>> 1 = 2 ^ d := by
          rw [Nat.shiftRight_eq_div_pow, Nat.pow_one, Nat.pow_succ,
            Nat.mul_div_cancel _ Nat.two_pos]
        have hdouble : 2 ^ s <<< 1 = 2 ^ (s + 1) := by rw [Nat.shiftLeft_eq, ← Nat.pow_add]
        rw [if_pos (hcond.mpr hlt), hhalf, hdouble]
        obtain ⟨s', d', ip', hcall, hsum, hshape, htable, hkept⟩ := ih (by omega) hip.extend
        refine ⟨s', d', ip', hcall, by omega, hshape, htable, fun k hk => ?_⟩
        have hgrown : 2 ^ (s + 1) ≤ 2 ^ s' := Nat.pow_le_pow_right Nat.two_pos (by omega)
        rw [Nat.pow_succ] at hgrown
        rw [hkept k hk, countUp_extend, if_neg (by omega)]
      · rw [if_neg (mt hcond.mp hlt)]
        exact ⟨s, d + 1, ip, rfl, rfl, by omega, hip, fun _ _ => rfl⟩

/-! ### The pairs -/

section Pairs

variable (s q : ℕ) (middle : List ℕ)

/-- The indices of which the loops exchange the numbers with those at the reversals: for each
`k`, all of `j < k`, and for `j = k` the ones with the bits of `middle` in the middle. -/
def exchanged : List ℕ :=
  (List.range (2 ^ s)).flatMap fun k =>
    ((List.range k).flatMap fun j =>
      (List.range (2 ^ q)).map fun t => threeParts s q j t k) ++
    middle.map fun t => threeParts s q k t k

variable {s q middle}

theorem mem_exchanged {x : ℕ} : x ∈ exchanged s q middle ↔
    ∃ k < 2 ^ s, (∃ j < k, ∃ t < 2 ^ q, threeParts s q j t k = x) ∨
      ∃ t ∈ middle, threeParts s q k t k = x := by
  simp only [exchanged, List.mem_flatMap, List.mem_append, List.mem_map, List.mem_range]

/-- Which indices the list has. -/
theorem threeParts_mem_exchanged (hmiddle : ∀ t ∈ middle, t < 2 ^ q) {j t k : ℕ}
    (hj : j < 2 ^ s) (ht : t < 2 ^ q) (hk : k < 2 ^ s) :
    threeParts s q j t k ∈ exchanged s q middle ↔ j < k ∨ (j = k ∧ t ∈ middle) := by
  rw [mem_exchanged]
  constructor
  · rintro ⟨k', hk', ⟨j', hj', t', ht', heq⟩ | ⟨t', ht', heq⟩⟩
    · obtain ⟨rfl, rfl, rfl⟩ := threeParts_injective (hj'.trans hk') ht' hk' hj ht hk heq
      exact Or.inl hj'
    · obtain ⟨rfl, rfl, rfl⟩ := threeParts_injective hk' (hmiddle t' ht') hk' hj ht hk heq
      exact Or.inr ⟨rfl, ht'⟩
  · rintro (hlt | ⟨rfl, hmem⟩)
    · exact ⟨k, hk, Or.inl ⟨j, hlt, t, ht, rfl⟩⟩
    · exact ⟨j, hk, Or.inr ⟨t, hmem, rfl⟩⟩

theorem nodup_exchanged (hmiddle : ∀ t ∈ middle, t < 2 ^ q) (hnodup : middle.Nodup) :
    (exchanged s q middle).Nodup := by
  refine List.nodup_flatMap.mpr ⟨fun k hk => ?_, ?_⟩
  · rw [List.mem_range] at hk
    refine List.Nodup.append ?_ ?_ ?_
    · refine List.nodup_flatMap.mpr ⟨fun j hj => ?_, ?_⟩
      · rw [List.mem_range] at hj
        refine List.nodup_range.map_on fun t ht t' ht' heq => ?_
        rw [List.mem_range] at ht ht'
        exact (threeParts_injective (hj.trans hk) ht hk (hj.trans hk) ht' hk heq).2.1
      · refine List.nodup_range.pairwise_of_forall_ne fun j hj j' hj' hne x hx hx' => hne ?_
        simp only [List.mem_map, List.mem_range] at hj hj' hx hx'
        obtain ⟨t, ht, rfl⟩ := hx
        obtain ⟨t', ht', heq⟩ := hx'
        exact (threeParts_injective (hj'.trans hk) ht' hk (hj.trans hk) ht hk heq).1.symm
    · refine hnodup.map_on fun t ht t' ht' heq => ?_
      exact (threeParts_injective hk (hmiddle t ht) hk hk (hmiddle t' ht') hk heq).2.1
    · intro x hx hx'
      simp only [List.mem_flatMap, List.mem_map, List.mem_range] at hx hx'
      obtain ⟨j, hj, t, ht, rfl⟩ := hx
      obtain ⟨t', ht', heq⟩ := hx'
      exact hj.ne
        (threeParts_injective hk (hmiddle t' ht') hk (hj.trans hk) ht hk heq).1.symm
  · refine List.nodup_range.pairwise_of_forall_ne fun k hk k' hk' hne x hx hx' => hne ?_
    -- the high part tells them apart
    have hhigh : ∀ k < 2 ^ s, x ∈ (((List.range k).flatMap fun j =>
        (List.range (2 ^ q)).map fun t => threeParts s q j t k) ++
          middle.map fun t => threeParts s q k t k) →
        ∃ j < 2 ^ s, ∃ t < 2 ^ q, threeParts s q j t k = x := by
      intro k hk hx
      simp only [List.mem_append, List.mem_flatMap, List.mem_map, List.mem_range] at hx
      rcases hx with ⟨j, hj, t, ht, heq⟩ | ⟨t, ht, heq⟩
      · exact ⟨j, hj.trans hk, t, ht, heq⟩
      · exact ⟨k, hk, t, hmiddle t ht, heq⟩
    rw [List.mem_range] at hk hk'
    obtain ⟨j, hj, t, ht, rfl⟩ := hhigh k hk hx
    obtain ⟨j', hj', t', ht', heq⟩ := hhigh k' hk' hx'
    exact (threeParts_injective hj' ht' hk' hj ht hk heq).2.2.symm

/-- **The exchanges reverse all indices**, if `middle` has one number of each pair that
reversing the middle bits exchanges. -/
theorem exchangeAll_exchanged {β : Type} (hmiddle : ∀ t ∈ middle, t < 2 ^ q)
    (hnodup : middle.Nodup) (hone : ∀ t ∈ middle, reverseBits q t ∉ middle)
    (hall : ∀ t < 2 ^ q, t ∉ middle → reverseBits q t ∉ middle → reverseBits q t = t)
    (z : ℕ → β) (i : ℕ) :
    exchangeAll (reversal (s + (q + s))) (exchanged s q middle) z i =
      z (reversal (s + (q + s)) i) := by
  refine exchangeAll_apply (nodup_exchanged hmiddle hnodup)
    (fun x _ => reversal_reversal _ x) (fun x hx => ?_) (fun c hc hne => ?_) z i
  · obtain ⟨k, hk, ⟨j, hj, t, ht, rfl⟩ | ⟨t, ht, rfl⟩⟩ := mem_exchanged.mp hx
    · rw [reversal_threeParts (hj.trans hk) ht hk,
        threeParts_mem_exchanged hmiddle hk (reverseBits_lt q t) (hj.trans hk)]
      omega
    · rw [reversal_threeParts hk (hmiddle t ht) hk,
        threeParts_mem_exchanged hmiddle hk (reverseBits_lt q t) hk]
      rintro (hlt | ⟨-, hmem⟩)
      · exact lt_irrefl k hlt
      · exact hone t ht hmem
  · rcases Nat.lt_or_ge c (2 ^ (s + (q + s))) with hlt | hge
    · obtain ⟨j, t, k, hj, ht, hk, rfl⟩ := exists_threeParts hlt
      have hpartner : reversal (s + (q + s)) (threeParts s q j t k) ∉ exchanged s q middle :=
        fun hmem => hne _ hmem (reversal_reversal _ _).symm
      rw [reversal_threeParts hj ht hk,
        threeParts_mem_exchanged hmiddle hk (reverseBits_lt q t) hj] at hpartner
      rw [threeParts_mem_exchanged hmiddle hj ht hk] at hc
      obtain rfl : j = k := by
        by_contra hjk
        rcases Nat.lt_or_gt_of_ne hjk with h | h
        · exact hc (Or.inl h)
        · exact hpartner (Or.inl h)
      rw [reversal_threeParts hj ht hj, hall t ht (fun h => hc (Or.inr ⟨rfl, h⟩))
        fun h => hpartner (Or.inr ⟨rfl, h⟩)]
    · exact reversal_of_le hge

end Pairs

/-! ### The loops -/

section Loops

variable {s : ℕ} {ip : ℕ → ℕ}

/-- Where the loops start. -/
theorem TableOf.index {q : ℕ} (h : TableOf s (2 ^ (s + 1 + q)) ip) {k : ℕ} (hk : k < 2 ^ s)
    (j : ℕ) : 2 * j + ip k = 2 * threeParts s q j 0 k := by
  rw [h k hk, threeParts]
  ring

theorem index_add (s q j t k : ℕ) :
    2 * threeParts s q j t k + 2 * 2 ^ s = 2 * threeParts s q j (t + 1) k := by
  rw [threeParts_middle, threeParts_middle s q j (t + 1)]
  ring

theorem index_add_two (s q j t k : ℕ) :
    2 * threeParts s q j t k + 2 * (2 * 2 ^ s) = 2 * threeParts s q j (t + 2) k := by
  rw [threeParts_middle, threeParts_middle s q j (t + 2)]
  ring

theorem index_sub (s q j t k : ℕ) :
    2 * threeParts s q j (t + 1) k - 2 * 2 ^ s = 2 * threeParts s q j t k := by
  rw [← index_add, Nat.add_sub_cancel]

variable {j k : ℕ}

/-- The exchanges for one `j` and `k` are those of one part of the list. -/
theorem pair_swapTwo (h : TableOf s (2 ^ (s + 1 + 1)) ip) (hj : j < 2 ^ s) (hk : k < 2 ^ s)
    (a : ℕ → α) : pair (swapTwo (2 * 2 ^ s) ip k j a) =
      exchangeAll (reversal (s + (1 + s)))
        ((List.range (2 ^ 1)).map fun t => threeParts s 1 j t k) (pair a) := by
  have hpartner : ∀ t < 2 ^ 1, reversal (s + (1 + s)) (threeParts s 1 j t k) =
      threeParts s 1 k (reverseBits 1 t) j := fun t ht => reversal_threeParts hj ht hk
  rw [swapTwo, h.index hk, h.index hj]
  rw [index_add, index_add, pair_swap, pair_swap]
  show _ = exchange _ (reversal _ (threeParts s 1 j 1 k))
    (exchange _ (reversal _ (threeParts s 1 j 0 k)) (pair a))
  rw [hpartner 0 (by decide), hpartner 1 (by decide)]
  rfl

theorem pair_swapFour (h : TableOf s (2 ^ (s + 1 + 2)) ip) (hj : j < 2 ^ s) (hk : k < 2 ^ s)
    (a : ℕ → α) : pair (swapFour (2 * 2 ^ s) ip k j a) =
      exchangeAll (reversal (s + (2 + s)))
        ((List.range (2 ^ 2)).map fun t => threeParts s 2 j t k) (pair a) := by
  have hpartner : ∀ t < 2 ^ 2, reversal (s + (2 + s)) (threeParts s 2 j t k) =
      threeParts s 2 k (reverseBits 2 t) j := fun t ht => reversal_threeParts hj ht hk
  rw [swapFour, h.index hk, h.index hj]
  -- the middle parts are `0, 1, 2, 3` on one side and `0, 2, 1, 3` on the other
  rw [index_add, index_add, index_add, index_add_two, index_sub, index_add_two, pair_swap,
    pair_swap, pair_swap, pair_swap]
  show _ = exchange _ (reversal _ (threeParts s 2 j 3 k))
    (exchange _ (reversal _ (threeParts s 2 j 2 k))
      (exchange _ (reversal _ (threeParts s 2 j 1 k))
        (exchange _ (reversal _ (threeParts s 2 j 0 k)) (pair a))))
  rw [hpartner 0 (by decide), hpartner 1 (by decide), hpartner 2 (by decide),
    hpartner 3 (by decide)]
  rfl

/-- The exchange for `j = k`. -/
theorem pair_swapMiddle (h : TableOf s (2 ^ (s + 1 + 2)) ip) (hk : k < 2 ^ s) (a : ℕ → α) :
    pair (swap (2 * k + 2 * 2 ^ s + ip k) (2 * k + 2 * 2 ^ s + ip k + 2 * 2 ^ s) a) =
      exchangeAll (reversal (s + (2 + s))) ([1].map fun t => threeParts s 2 k t k) (pair a) := by
  rw [Nat.add_right_comm, h.index hk, index_add, index_add, pair_swap]
  show _ = exchange _ (reversal _ (threeParts s 2 k 1 k)) (pair a)
  rw [reversal_threeParts hk (by decide) hk]
  rfl

/-- Going through the list row by row. -/
theorem exchangeAll_eq_countUp {β : Type} (partner : ℕ → ℕ) (s q : ℕ) (middle : List ℕ)
    (z : ℕ → β) : exchangeAll partner (exchanged s q middle) z =
      countUp (2 ^ s) (fun k z =>
        exchangeAll partner (middle.map fun t => threeParts s q k t k)
          (countUp k (fun j => exchangeAll partner
            ((List.range (2 ^ q)).map fun t => threeParts s q j t k)) z)) z := by
  rw [exchangeAll, exchanged, foldl_flatMap_range]
  refine countUp_congr (fun k _ => funext fun z => ?_) z
  rw [List.foldl_append, foldl_flatMap_range]
  rfl

/-- **The numbers after `bitrv2`.**  Number `i` is the one that stood at the reversal of `i`, and
the numbers behind the array are where they were. -/
theorem pair_bitrv2 {p : ℕ} (hp : 1 ≤ p) (ip : ℕ → ℕ) (a : ℕ → α) (i : ℕ) :
    pair (bitrv2 (2 ^ (p + 1)) ip a).2 i = pair a (reversal p i) := by
  have hfirst : TableOf 0 (2 ^ (p + 1)) (Function.update ip 0 0) := by
    intro j hj
    obtain rfl : j = 0 := Nat.lt_one_iff.mp hj
    rw [Function.update_self, reverseBits_zero, Nat.zero_mul]
  obtain ⟨s, d, ip', hcall, hsum, hshape, htable, -⟩ := indexTable_spec (p + 1) (by omega) hfirst
  rw [Nat.pow_zero] at hcall
  have hshift : 2 ^ s <<< 3 = 2 ^ (s + 3) := by rw [Nat.shiftLeft_eq, ← Nat.pow_add]
  rw [bitrv2, hcall]
  dsimp only
  rw [hshift]
  rcases hshape with rfl | rfl
  · -- one bit in the middle
    have hne : 2 ^ (s + 3) ≠ 2 ^ (s + 2) := by
      rw [Nat.pow_succ]
      have := Nat.two_pow_pos (s + 2)
      omega
    obtain rfl : p = s + (1 + s) := by omega
    have htable' : TableOf s (2 ^ (s + 1 + 1)) ip' := htable
    have hskip : countBy 1 (2 ^ s) 1 (fun k a => countUp k (swapTwo (2 * 2 ^ s) ip' k) a) a =
        countUp (2 ^ s) (fun k a => countUp k (swapTwo (2 * 2 ^ s) ip' k) a) a := by
      obtain ⟨m, hm⟩ := Nat.exists_eq_succ_of_ne_zero (Nat.two_pow_pos s).ne'
      rw [hm, Nat.succ_eq_add_one, countBy_eq_countUp Nat.one_pos (n := m) (by omega),
        countUp_succ_first]
      refine countUp_congr (fun k _ => ?_) a
      rw [Nat.mul_one, Nat.add_comm]
    have hreversed : exchangeAll (reversal (s + (1 + s))) (exchanged s 1 []) (pair a) i =
        pair a (reversal (s + (1 + s)) i) :=
      exchangeAll_exchanged (by decide) List.nodup_nil (by decide) (by decide) _ i
    rw [if_neg hne, ← hreversed, exchangeAll_eq_countUp]
    dsimp only
    rw [hskip]
    refine congrFun (countUp_hom pair (fun k hk a => ?_) a).symm i
    exact countUp_hom pair (fun j hj a => (pair_swapTwo htable' (hj.trans hk) hk a).symm) a
  · -- two bits in the middle
    obtain rfl : p = s + (2 + s) := by omega
    have htable' : TableOf s (2 ^ (s + 1 + 2)) ip' := htable
    have hreversed : exchangeAll (reversal (s + (2 + s))) (exchanged s 2 [1]) (pair a) i =
        pair a (reversal (s + (2 + s)) i) :=
      exchangeAll_exchanged (by decide) (List.nodup_singleton 1) (by decide) (by decide) _ i
    rw [if_pos rfl, ← hreversed, exchangeAll_eq_countUp]
    refine congrFun (countUp_hom pair (fun k hk a => ?_) a).symm i
    rw [pair_swapMiddle htable' hk]
    congr 1
    exact countUp_hom pair (fun j hj a => (pair_swapFour htable' (hj.trans hk) hk a).symm) a

/-- The table stays in the part of `mIp` that is left for it. -/
theorem bitrv2_ip_of_le {p : ℕ} (hp : 1 ≤ p) (ip : ℕ → ℕ) (a : ℕ → α) {k : ℕ}
    (hk : Nat.sqrt (2 ^ (p + 1)) ≤ k) : (bitrv2 (2 ^ (p + 1)) ip a).1 k = ip k := by
  have hfirst : TableOf 0 (2 ^ (p + 1)) (Function.update ip 0 0) := by
    intro j hj
    obtain rfl : j = 0 := Nat.lt_one_iff.mp hj
    rw [Function.update_self, reverseBits_zero, Nat.zero_mul]
  obtain ⟨s, d, ip', hcall, hsum, hshape, -, hkept⟩ := indexTable_spec (p + 1) (by omega) hfirst
  rw [Nat.pow_zero] at hcall
  have hsmall : 2 ^ s ≤ Nat.sqrt (2 ^ (p + 1)) := by
    rw [Nat.le_sqrt, ← Nat.pow_add]
    exact Nat.pow_le_pow_right Nat.two_pos (by omega)
  have hpos : k ≠ 0 := by
    have := Nat.two_pow_pos s
    omega
  have hresult : (bitrv2 (2 ^ (p + 1)) ip a).1 = ip' := by
    rw [bitrv2, hcall]
    dsimp only
    split <;> rfl
  rw [hresult, hkept k (hsmall.trans hk), Function.update_of_ne hpos]

/-- **`bitrv2` as a whole.**  Each number goes to the place with its bits reversed, nothing behind
the array or behind the table is written, and doing it again undoes it. -/
theorem bitrv2_reverses (p : ℕ) (ip ip' : ℕ → ℕ) (a : ℕ → α) :
    (∀ i < 2 ^ (p + 1), pair (bitrv2 (2 ^ (p + 2)) ip a).2 (reverseBits (p + 1) i) = pair a i) ∧
      (∀ i, 2 ^ (p + 2) ≤ i → (bitrv2 (2 ^ (p + 2)) ip a).2 i = a i) ∧
      (∀ k, Nat.sqrt (2 ^ (p + 2)) ≤ k → (bitrv2 (2 ^ (p + 2)) ip a).1 k = ip k) ∧
      (bitrv2 (2 ^ (p + 2)) ip' (bitrv2 (2 ^ (p + 2)) ip a).2).2 = a := by
  have hpair := pair_bitrv2 (Nat.succ_pos p) ip a
  refine ⟨fun i hi => ?_, fun i hi => ?_, fun k hk => bitrv2_ip_of_le (Nat.succ_pos p) ip a hk, ?_⟩
  · rw [hpair, reversal_of_lt (reverseBits_lt _ _), reverseBits_reverseBits hi]
  · have hbehind := hpair (i / 2)
    rw [Nat.pow_succ] at hi
    rw [reversal_of_le (by omega)] at hbehind
    have hcell := eq_of_pair hbehind (Nat.mod_lt i Nat.two_pos)
    rwa [Nat.div_add_mod] at hcell
  · funext i
    have hback := pair_bitrv2 (Nat.succ_pos p) ip' (bitrv2 (2 ^ (p + 2)) ip a).2 (i / 2)
    rw [hpair, reversal_reversal] at hback
    have hcell := eq_of_pair hback (Nat.mod_lt i Nat.two_pos)
    rwa [Nat.div_add_mod] at hcell

end Loops

end Ooura

end Tklb
