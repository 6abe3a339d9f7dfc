import Tklb.TString.Contents

/-!
# Searching in a string

`contains` compares the characters of `b` with those of `a` from each position on, as long
as they agree, and takes it for a match if it stops at the terminator of `b`
(`matchFrom_spec`).  At the end of `a` it does not stop there: the terminators of both
strings agree, too, and the loop runs on to the end of `b`.

So `contains` finds the occurrences that are followed by another character
(`contains_spec`), and misses a text that is only at the end of `a`.

### What is load-bearing

The inner loop stops at a difference or at the end of `b`, and `matchFrom_spec` says where that
is.  The text is found if it stops at the terminator of `b`, which takes a character of `a` that is
no terminator.  So a text at the end is never found there, and `contains` is right about it only if
it stands somewhere else as well.
-/

namespace Tklb

open Foundation HeapBuffer BufferState

namespace TString

variable {B : BufferType} {a b : BufferState UInt8} {l m s t : List UInt8}

/-- A terminated string that was made from a C string. -/
structure FromCString (B : BufferType) (a : BufferState UInt8) (text : List UInt8) : Prop where
  terminated : Terminated a text
  short : text.length < maxLength B

/-- What a constructor that takes a C string leaves. -/
theorem FromCString.of_ofCString {h : Heap UInt8} {str : List UInt8} (hpos : 0 < maxLength B)
    (hcall : ofCString B h (some str) = some a) : FromCString B a (cText B str) :=
  ⟨(ofCString_spec hpos hcall).1.terminated, length_cText_lt hpos str⟩

/-- `t` stands in `s` from position `p` on, and not at the end.  In the text and not in the memory:
the terminators are not part of it. -/
def OccursAt (s t : List UInt8) (p : ℕ) : Prop :=
  p + t.length < s.length ∧ ∀ k < t.length, s[p + k]? = t[k]?

/-! ### The loops -/

/-- The inner loop stops where the characters differ, or at the end of `b`. -/
theorem matchFrom_spec (ha : Contents a l) (hb : Contents b m) {i n j : ℕ}
    (hfit : i + m.length ≤ l.length) (hlt : l.length < 2 ^ B.sizeBits) (hj : j + n = m.length) :
    ∃ q, matchFrom B a b i n j = some q ∧ j ≤ q ∧ q ≤ m.length ∧
      (∀ k, j ≤ k → k < q → l[i + k]? = m[k]?) ∧ (q < m.length → l[i + q]? ≠ m[q]?) := by
  induction n generalizing j with
  | zero => exact ⟨j, rfl, le_rfl, by omega, fun k hk hkj => by omega, fun hq => by omega⟩
  | succ n ih =>
      have hx : charAt a (wrap B.sizeBits (i + j)) = l[i + j]? := by
        rw [wrap_of_lt (by omega), ha.charAt]
      have hl : i + j < l.length := by omega
      have hm : j < m.length := by omega
      rw [matchFrom, hx, hb.charAt, List.getElem?_eq_getElem hl, List.getElem?_eq_getElem hm]
      simp only [Option.bind_eq_bind, Option.bind_some]
      split
      · rename_i hne
        refine ⟨j, rfl, le_rfl, hm.le, fun k hk hkj => by omega, fun _ heq => ?_⟩
        rw [List.getElem?_eq_getElem hl, List.getElem?_eq_getElem hm] at heq
        exact hne (Option.some.inj heq)
      · rename_i heq
        obtain ⟨q, hq, hjq, hqm, hagree, hdiffer⟩ := ih (j := j + 1) (by omega)
        refine ⟨q, hq, by omega, hqm, fun k hk hkq => ?_, hdiffer⟩
        rcases Nat.eq_or_lt_of_le hk with rfl | hlt
        · rw [List.getElem?_eq_getElem hl, List.getElem?_eq_getElem hm, not_not.mp heq]
        · exact hagree k hlt hkq

/-- The loop stops at the terminator of `b` exactly if `a` goes on there. -/
theorem stop_iff_occursAt (hs : terminator ∉ s) {i q : ℕ}
    (hfit : i + t.length ≤ s.length) (hq : q ≤ t.length + 1)
    (hagree : ∀ k < q, (s ++ [terminator])[i + k]? = (t ++ [terminator])[k]?)
    (hdiffer : q < t.length + 1 → (s ++ [terminator])[i + q]? ≠ (t ++ [terminator])[q]?) :
    q = t.length ↔ OccursAt s t i := by
  have hchars : ∀ k < t.length, (s ++ [terminator])[i + k]? = s[i + k]? ∧
      (t ++ [terminator])[k]? = t[k]? := fun k hk =>
    ⟨List.getElem?_append_left (by omega), List.getElem?_append_left hk⟩
  have hend : (t ++ [terminator])[t.length]? = some terminator := by simp
  constructor
  · rintro rfl
    refine ⟨Nat.lt_of_le_of_ne hfit fun heq => ?_, fun k hk => ?_⟩
    · -- both strings end here
      refine hdiffer (Nat.lt_succ_self _) ?_
      rw [hend, heq]
      simp
    · rw [← (hchars k hk).1, ← (hchars k hk).2]
      exact hagree k hk
  · rintro ⟨hlt, hoccurs⟩
    rcases Nat.lt_trichotomy q t.length with hless | heq | hmore
    · refine absurd ?_ (hdiffer (by omega))
      rw [(hchars q hless).1, (hchars q hless).2]
      exact hoccurs q hless
    · exact heq
    · have hnul := hagree t.length hmore
      rw [hend, List.getElem?_append_left hlt] at hnul
      exact absurd (List.mem_of_getElem? hnul) hs

/-- The outer loop finds the occurrences from `i` on. -/
theorem containsFrom_spec (ha : Terminated a s) (hb : Terminated b t)
    (hlt : s.length + t.length + 2 ≤ 2 ^ B.sizeBits) {n i : ℕ} (hi : i + n = s.length + 1) :
    ∃ r, containsFrom B a b n i = some r ∧ (r = true ↔ ∃ p, i ≤ p ∧ OccursAt s t p) := by
  have hsize := ha.contents.size
  have hsize' := hb.contents.size
  rw [List.length_append, List.length_singleton] at hsize hsize'
  induction n generalizing i with
  | zero =>
      refine ⟨false, rfl, iff_of_false Bool.false_ne_true ?_⟩
      rintro ⟨p, hp, hlen, -⟩
      omega
  | succ n ih =>
      rw [containsFrom, hsize, hsize', wrap_of_lt (by omega), wsub_of_le (by omega) (by omega)]
      split
      · refine ⟨false, rfl, iff_of_false Bool.false_ne_true ?_⟩
        rintro ⟨p, hp, hlen, -⟩
        omega
      · rename_i hfit
        obtain ⟨q, hq, -, hqt, hagree, hdiffer⟩ := matchFrom_spec (B := B) ha.contents hb.contents
          (i := i) (n := t.length + 1) (j := 0) (by simp; omega) (by simp; omega) (by simp)
        rw [List.length_append, List.length_singleton] at hqt hdiffer
        have hstop := stop_iff_occursAt ha.noNul (by omega) hqt
          (fun k hk => hagree k (Nat.zero_le k) hk) hdiffer
        rw [hq]
        simp only [Option.bind_eq_bind, Option.bind_some, Nat.add_sub_cancel]
        split
        · rename_i hmatch
          exact ⟨true, rfl, iff_of_true rfl ⟨i, le_rfl, hstop.mp hmatch⟩⟩
        · rename_i hmiss
          obtain ⟨r, hr, hfound⟩ := ih (i := i + 1) (by omega)
          refine ⟨r, hr, hfound.trans ⟨?_, ?_⟩⟩
          · rintro ⟨p, hp, hoccurs⟩
            exact ⟨p, by omega, hoccurs⟩
          · rintro ⟨p, hp, hoccurs⟩
            refine ⟨p, Nat.lt_of_le_of_ne hp ?_, hoccurs⟩
            rintro rfl
            exact hmiss (hstop.mpr hoccurs)

/-- **`contains`** finds the occurrences that are not at the end.  Both strings are terminated, and
the positions fit into `Size`; then no character behind either of them is read, and the answer is
the one about occurrences in front of another character. -/
theorem contains_spec (ha : Terminated a s) (hb : Terminated b t)
    (hlt : s.length + t.length + 2 ≤ 2 ^ B.sizeBits) :
    ∃ r, contains B a b = some r ∧ (r = true ↔ ∃ p, OccursAt s t p) := by
  have hsize := ha.contents.size
  rw [List.length_append, List.length_singleton] at hsize
  rw [contains, hsize]
  simpa using containsFrom_spec ha hb hlt (Nat.zero_add (s.length + 1))

/-! ### Which texts are found -/

/-- An occurrence that is not at the end is one with something behind it. -/
theorem exists_occursAt_iff : (∃ p, OccursAt s t p) ↔ ∃ u v, v ≠ [] ∧ u ++ t ++ v = s := by
  constructor
  · rintro ⟨p, hlen, hoccurs⟩
    have hmid : (s.drop p).take t.length = t := by
      refine List.ext_getElem? fun k => ?_
      rcases Nat.lt_or_ge k t.length with hk | hk
      · rw [List.getElem?_take_of_lt hk, List.getElem?_drop, hoccurs k hk]
      · rw [List.getElem?_eq_none (by simp; omega), List.getElem?_eq_none hk]
    refine ⟨s.take p, (s.drop p).drop t.length, ?_, ?_⟩
    · rw [Ne, List.drop_drop, List.drop_eq_nil_iff]
      omega
    · calc s.take p ++ t ++ (s.drop p).drop t.length
          = s.take p ++ ((s.drop p).take t.length ++ (s.drop p).drop t.length) := by
            rw [hmid, List.append_assoc]
        _ = s := by rw [List.take_append_drop, List.take_append_drop]
  · rintro ⟨u, v, hv, rfl⟩
    have hpos := List.length_pos_of_ne_nil hv
    refine ⟨u.length, by simp only [List.length_append]; omega, fun k hk => ?_⟩
    rw [List.append_assoc, List.getElem?_append_right (by omega), Nat.add_sub_cancel_left,
      List.getElem?_append_left hk]

theorem infix_iff_occursAt : t <:+: s ↔ t <:+ s ∨ ∃ p, OccursAt s t p := by
  rw [exists_occursAt_iff]
  constructor
  · rintro ⟨u, v, h⟩
    by_cases hv : v = []
    · exact Or.inl ⟨u, by rw [← h, hv, List.append_nil]⟩
    · exact Or.inr ⟨u, v, hv, h⟩
  · rintro (hsuffix | ⟨u, v, -, h⟩)
    · exact hsuffix.isInfix
    · exact ⟨u, v, h⟩

/-- `a.contains(b)` returns whether `t` occurs in `s`, and reads no other memory.  No character
behind a terminator is read, whether the answer is yes or no. -/
def ContainsRight (B : BufferType) (a b : BufferState UInt8) (s t : List UInt8) : Prop :=
  ∃ r, contains B a b = some r ∧ (r = true ↔ t <:+: s)

/-- **`contains` is right unless the text is at the end and nowhere else.** -/
theorem contains_right_iff (ha : FromCString B a s) (hb : FromCString B b t) :
    ContainsRight B a b s t ↔ ¬ t <:+ s ∨ ∃ u v, v ≠ [] ∧ u ++ t ++ v = s := by
  have hshort := ha.short
  have hshort' := hb.short
  obtain ⟨hmax, hbits⟩ := maxLength_eq (B := B) (by omega)
  obtain ⟨r, hr, hfound⟩ := contains_spec (B := B) ha.terminated hb.terminated (by omega)
  rw [← exists_occursAt_iff]
  have hresult : ContainsRight B a b s t ↔ (r = true ↔ t <:+: s) := by
    refine ⟨?_, fun h => ⟨r, hr, h⟩⟩
    rintro ⟨r', hr', h⟩
    obtain rfl : r = r' := Option.some.inj (hr.symm.trans hr')
    exact h
  rw [hresult, hfound, infix_iff_occursAt]
  tauto

/-- `"ab"` contains `"a"`. -/
theorem contains_right_iff_front :
    ∃ a b, ofCString defaultStorage (.initial fun _ => true) (some [97, 98, 0]) = some a ∧
      ofCString defaultStorage a.heap (some [97, 0]) = some b ∧
      ContainsRight defaultStorage a b [97, 98] [97] := by
  have hcalls : ((ofCString defaultStorage (.initial fun _ => true) (some [97, 98, 0])).bind
      fun a => ofCString defaultStorage a.heap (some [97, 0])).isSome := by decide
  obtain ⟨b, hb⟩ := Option.isSome_iff_exists.mp hcalls
  obtain ⟨a, ha, hb⟩ := Option.bind_eq_some_iff.mp hb
  refine ⟨a, b, ha, hb, ?_⟩
  exact (contains_right_iff (.of_ofCString (by decide) ha) (.of_ofCString (by decide) hb)).mpr
    (Or.inl (by decide))

/-- `"ab"` does not contain `"b"`. -/
theorem contains_misses_suffix :
    ∃ a b, ofCString defaultStorage (.initial fun _ => true) (some [97, 98, 0]) = some a ∧
      ofCString defaultStorage a.heap (some [98, 0]) = some b ∧
      contains defaultStorage a b = some false ∧
      ¬ ContainsRight defaultStorage a b [97, 98] [98] := by
  have hcalls : ((ofCString defaultStorage (.initial fun _ => true) (some [97, 98, 0])).bind
      fun a => (ofCString defaultStorage a.heap (some [98, 0])).bind
        fun b => contains defaultStorage a b) = some false := by decide
  obtain ⟨a, ha, hcalls⟩ := Option.bind_eq_some_iff.mp hcalls
  obtain ⟨b, hb, hfalse⟩ := Option.bind_eq_some_iff.mp hcalls
  refine ⟨a, b, ha, hb, hfalse, ?_⟩
  rintro ⟨r, hr, hfound⟩
  obtain rfl : false = r := Option.some.inj (hfalse.symm.trans hr)
  exact Bool.false_ne_true (hfound.mpr ⟨[97], [], rfl⟩)

end TString

end Tklb
