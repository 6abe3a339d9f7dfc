import Mathlib.Data.List.Infix

/-!
# Longest suffixes

The longest suffix of a list whose elements all meet a condition.  A suffix that is not the
whole list is it exactly when its elements meet the condition and the one in front of it does
not (`isLongestSuffix_drop_iff`).

### What is load-bearing

"Longest" is about all suffixes, and there are many; the criterion is about two elements.  It is
what a program can check that goes through the list from its front and remembers one position.
-/

namespace Tklb.Foundation

variable {α : Type} {p : α → Prop} {l t u : List α} {x : α} {d : ℕ}

/-- `t` is the longest suffix of `l` with elements that meet `p`.  There is exactly one, as the
suffixes of a list are ordered by their length. -/
structure IsLongestSuffix (p : α → Prop) (l t : List α) : Prop where
  suffix : t <:+ l
  all : ∀ x ∈ t, p x
  longest : ∀ u, u <:+ l → (∀ x ∈ u, p x) → u.length ≤ t.length

theorem IsLongestSuffix.unique (ht : IsLongestSuffix p l t) (hu : IsLongestSuffix p l u) :
    t = u := by
  have hle := hu.longest t ht.suffix ht.all
  have hge := ht.longest u hu.suffix hu.all
  exact (List.suffix_of_suffix_length_le ht.suffix hu.suffix hle).eq_of_length (hle.antisymm hge)

/-- It is the whole list if all elements meet the condition. -/
theorem isLongestSuffix_self (h : ∀ x ∈ l, p x) : IsLongestSuffix p l l :=
  ⟨List.suffix_refl l, h, fun _ hu _ => hu.length_le⟩

/-- The suffix behind an element is the longest one if that element does not meet the
condition and those behind it do. -/
theorem isLongestSuffix_drop_iff (hx : l[d]? = some x) :
    IsLongestSuffix p l (l.drop (d + 1)) ↔ ¬ p x ∧ ∀ y ∈ l.drop (d + 1), p y := by
  obtain ⟨hd, -⟩ := List.getElem?_eq_some_iff.mp hx
  have hcons : l.drop d = x :: l.drop (d + 1) := by
    rw [List.drop_eq_getElem?_toList_append, hx, Option.toList_some, List.singleton_append]
  constructor
  · intro h
    refine ⟨fun hp => ?_, h.all⟩
    -- otherwise the suffix that starts with `x` would do as well
    have hall : ∀ y ∈ l.drop d, p y := by
      rw [hcons]
      exact List.forall_mem_cons.mpr ⟨hp, h.all⟩
    have hle := h.longest _ (List.drop_suffix d l) hall
    rw [hcons, List.length_cons] at hle
    exact absurd hle (Nat.not_succ_le_self _)
  · rintro ⟨hp, hall⟩
    refine ⟨List.drop_suffix _ l, hall, fun u hu hmeet => ?_⟩
    by_contra hlonger
    have hsuffix : l.drop d <:+ u := by
      refine List.suffix_of_suffix_length_le (List.drop_suffix d l) hu ?_
      rw [hcons, List.length_cons]
      omega
    exact hp (hmeet x (hsuffix.subset (hcons ▸ List.mem_cons_self)))

end Tklb.Foundation
