import Mathlib.Data.List.Nodup
import Mathlib.Data.List.Perm.Basic
import Mathlib.Data.List.Range

/-!
# Ledgers of issued tokens

Resources are named by the order in which they are issued: the blocks obtained
from an allocator, the objects constructed so far.  A ledger says that each token
issued so far is either settled (freed, destroyed) or held by somebody, **and
that exactly once**: the settled and the held tokens together are a permutation
of all issued ones.

One statement thus excludes leaks (a token that is neither), double frees (a
token settled twice), two owners (a token held twice) and use after free (a token
that is both).

### What is load-bearing

The statement is a permutation and not a set of conditions, since a permutation is kept by each
of the three things that happen to tokens: one is issued (`Ledger.issue`), some are settled
(`Ledger.settle`), or they change hands (`Ledger.perm`).  Nothing has to be said about tokens
that were never issued.
-/

namespace Tklb.Foundation

/-- The tokens `0, …, issued - 1` are settled or held, each exactly once. -/
def Ledger (issued : ℕ) (settled held : List ℕ) : Prop :=
  (settled ++ held).Perm (List.range issued)

namespace Ledger

variable {issued a : ℕ} {settled held held' settled' : List ℕ}

theorem empty : Ledger 0 [] [] := List.Perm.refl _

/-- The order in which tokens are listed does not matter. -/
theorem perm (h : Ledger issued settled held) (hs : settled'.Perm settled)
    (hh : held'.Perm held) : Ledger issued settled' held' :=
  (hs.append hh).trans h

theorem issue (h : Ledger issued settled held) (k : ℕ) :
    Ledger (issued + k) settled (held ++ List.range' issued k) := by
  have hrange : List.range (issued + k) = List.range issued ++ List.range' issued k := by
    have happend := List.range'_append_1 (s := 0) (m := issued) (n := k)
    rw [Nat.zero_add] at happend
    rw [List.range_eq_range', List.range_eq_range', happend]
  rw [Ledger, hrange, ← List.append_assoc]
  exact h.append_right _

theorem settle (h : Ledger issued settled (held' ++ held)) :
    Ledger issued (held' ++ settled) held := by
  refine List.Perm.trans ?_ h
  rw [← List.append_assoc]
  exact List.perm_append_comm.append_right _

theorem nodup (h : Ledger issued settled held) : (settled ++ held).Nodup :=
  h.nodup_iff.mpr List.nodup_range

theorem settled_nodup (h : Ledger issued settled held) : settled.Nodup :=
  h.nodup.of_append_left

theorem held_nodup (h : Ledger issued settled held) : held.Nodup :=
  h.nodup.of_append_right

theorem settled_lt (h : Ledger issued settled held) (ha : a ∈ settled) : a < issued :=
  List.mem_range.mp (h.mem_iff.mp (List.mem_append_left _ ha))

/-- Nothing is both settled and held. -/
theorem not_mem_settled (h : Ledger issued settled held) (ha : a ∈ held) :
    a ∉ settled :=
  fun hs => (List.disjoint_of_nodup_append h.nodup) hs ha

/-- **Closing the books.**  When nothing is held any more, every issued token was
settled exactly once. -/
theorem count_settled (h : Ledger issued settled []) (ha : a < issued) :
    settled.count a = 1 := by
  rw [Ledger, List.append_nil] at h
  rw [h.count_eq]
  exact List.count_eq_one_of_mem List.nodup_range (List.mem_range.mpr ha)

end Ledger

/-! ### Tokens held by named parties -/

section Parties

variable {ι : Type*} {κ : Type*} [DecidableEq ι] {f f' : ι → Option κ} {l : List ι} {i : ι}

/-- What all parties hold is what one of them holds and what the others hold. -/
theorem filterMap_perm_erase (f : ι → Option κ) (hi : i ∈ l) :
    (l.filterMap f).Perm ((f i).toList ++ (l.erase i).filterMap f) := by
  have hperm := (List.perm_cons_erase hi).filterMap f
  rw [List.filterMap_cons] at hperm
  cases hf : f i with
  | none => rw [hf] at hperm; exact hperm
  | some a => rw [hf] at hperm; exact hperm

/-- What the others hold does not depend on the one left out. -/
theorem filterMap_erase_congr (hl : l.Nodup) (h : ∀ j ∈ l, j ≠ i → f' j = f j) :
    (l.erase i).filterMap f' = (l.erase i).filterMap f := by
  refine List.filterMap_congr fun j hj => ?_
  rw [hl.mem_erase_iff] at hj
  exact h j hj.2 hj.1

end Parties

end Tklb.Foundation
