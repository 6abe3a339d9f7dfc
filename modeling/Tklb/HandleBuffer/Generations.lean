import Tklb.HandleBuffer.Liveness

/-!
# How often a slot of a `HandleBuffer` can be used

`at` takes the all-ones generation for the mark of an uninitialized slot, and
`remove` means to skip it: it sets the generation back to `0` "because it signals a
uninitialzed element".  But it compares the generation, shifted down, with
`MaskGeneration`, which is not shifted; no generation is that large, so the reserved
one is written like any other.

`Counted` says so for every state that can be reached: the generation in a slot is the
number of times the slot was removed, without exception.  A slot is therefore stuck
after `2 ^ GenerationBits - 1` removals: `create` still hands it out, but nothing
resolves the handle (`created_resolves_iff`).

### Main result

`created_resolves_iff` is about every format and every run of a client.  It has both halves of
the matter: the generation is the number of removals, and a handle that `create` returns
resolves exactly if that number is not the reserved generation.

### What is load-bearing

The invariant counts without a bound on the number of removals, so it must not wrap.  It does
not, since a slot with the reserved generation cannot be removed any more: `at` finds nothing
there, and `remove` begins with `at`.  With few bits a program reaches this quickly; `byte2`,
with two of them, is stuck after three removals.
-/

namespace Tklb

open Foundation HandleFormat

namespace HandleSession

variable {F : HandleFormat} {T : Type} {n : ℕ} {s : HandleSession F T}

/-- The generation in a slot is the number of its removals.  As numbers, without a remainder: it is
part of the statement that there are never more removals than generations. -/
structure Counted (n : ℕ) (s : HandleSession F T) : Prop where
  length : s.buffer.mElements.length = n
  generation : ∀ i < n, ∃ e, s.buffer.mElements[i]? = some e ∧
    F.generation e.next = s.removals i

theorem Tracked.counted (h : s.Tracked n) : s.Counted n := ⟨h.length, h.generation⟩

/-- **When a created handle resolves.**  For every handle format, every buffer of
`1 ≤ n < MaskIndex` slots and every sequence of calls: the generation in each slot is
the number of its removals; and the handle a successful `create` returns names the slot
it was created in, is accepted by `has` and can be removed, if and only if that slot
was not removed exactly `2 ^ GenerationBits - 1` times before. -/
theorem created_resolves_iff [Inhabited T] {n : F.Handle} (hpos : 0 < n.toNat)
    (hn : n.toNat < F.maskIndex.toNat) {s₀ s : HandleSession F T}
    (hstart : start n = some s₀) {calls : List (HandleCall F)}
    (hrun : Run (StepOf exec) s₀ calls s) {h : F.Handle} {b : HandleBuffer F T}
    (hcreate : s.buffer.create = some (h, b)) (hsuccess : h ≠ F.invalidHandle) :
    (∀ i < n.toNat, ∃ e, s.buffer.mElements[i]? = some e ∧
      F.generation e.next = s.removals i) ∧
    ((b.atHandle h = some (some s.buffer.mStart.toNat) ∧
        ∃ after, b.remove h = some (true, after)) ↔
      s.removals s.buffer.mStart.toNat ≠ 2 ^ F.generationBits - 1) := by
  have hmask := F.maskIndex_toNat_lt
  have htracked := tracked_of_run hpos hn hstart hrun
  refine ⟨htracked.counted.generation, ?_⟩
  rcases HandleBuffer.create_cases hcreate with ⟨-, rfl, -⟩ | ⟨-, e, he, rfl, rfl⟩
  · exact absurd rfl hsuccess
  obtain ⟨hlt, hgen⟩ := htracked.slot he
  have hindex := F.index_handle (x := e.next) (show s.buffer.mStart.toNat < _ by omega)
  have hslot : (s.buffer.mElements.set s.buffer.mStart.toNat
      { e with value := some default })[F.index
        (s.buffer.mStart ||| (e.next &&& F.maskGeneration))]? =
      some { e with value := some default } := by
    rw [hindex, List.getElem?_set_self (by rw [htracked.length]; exact hlt)]
  have hat := HandleBuffer.atHandle_eq hsuccess (s := ⟨_, e.next &&& F.maskIndex,
    s.buffer.mFree - 1#F.handleBits⟩) hslot
  rw [F.generation_handle (show s.buffer.mStart.toNat < _ by omega), hindex, hgen] at hat
  by_cases hres : s.removals s.buffer.mStart.toNat = 2 ^ F.generationBits - 1
  · rw [if_pos (Or.inl hres)] at hat
    refine ⟨fun hresolves => ?_, fun hne => absurd hres hne⟩
    have := hat.symm.trans hresolves.1
    simp at this
  · rw [if_neg (by rintro (h | h); exacts [hres h, h rfl])] at hat
    refine ⟨fun _ => hres, fun _ => ⟨hat, ?_⟩⟩
    exact HandleBuffer.remove_of_has (HandleBuffer.has_of_atHandle hat)

/-- Handles of one byte with two generation bits. -/
abbrev byte2 : HandleFormat := ⟨8, 2, by decide⟩

/-- The second use of a slot, with two generation bits. -/
theorem created_resolves_second_use :
    ∃ (s₀ s : HandleSession byte2 Unit) (b : HandleBuffer byte2 Unit),
      start 4#8 = some s₀ ∧ Run (StepOf exec) s₀ [.create, .remove 0#8] s ∧
      s.buffer.create = some (64#8, b) ∧ b.atHandle 64#8 = some (some 0) ∧
      ∃ after, b.remove 64#8 = some (true, after) := by
  obtain ⟨s₀, s, b, hstart, hrun, hcreate, hslot, hcount⟩ :
      ∃ (s₀ s : HandleSession byte2 Unit) (b : HandleBuffer byte2 Unit),
        start 4#8 = some s₀ ∧ Run (StepOf exec) s₀ [.create, .remove 0#8] s ∧
        s.buffer.create = some (64#8, b) ∧ s.buffer.mStart.toNat = 0 ∧ s.removals 0 = 1 :=
    ⟨_, _, _, rfl, Run.of_foldlM rfl, rfl, rfl, rfl⟩
  have hiff := (created_resolves_iff (by decide) (by decide) hstart hrun hcreate (by decide)).2
  rw [hslot, hcount] at hiff
  obtain ⟨hat, hremove⟩ := hiff.mpr (by decide)
  exact ⟨s₀, s, b, hstart, hrun, hcreate, hat, hremove⟩

/-- The fourth use: the slot was removed three times, its generation is the reserved
one, and the handle just created resolves to nothing. -/
theorem not_resolved_fourth_use :
    ∃ (s₀ s : HandleSession byte2 Unit) (b : HandleBuffer byte2 Unit),
      start 4#8 = some s₀ ∧
      Run (StepOf exec) s₀
        [.create, .remove 0#8, .create, .remove 64#8, .create, .remove 128#8] s ∧
      s.buffer.create = some (192#8, b) ∧ b.atHandle 192#8 = some none ∧
      b.remove 192#8 = some (false, b) :=
  ⟨_, _, _, rfl, Run.cons rfl (Run.cons rfl (Run.cons rfl (Run.cons rfl (Run.cons rfl
    (Run.cons rfl (Run.nil _)))))), rfl, rfl, rfl⟩

end HandleSession

end Tklb
