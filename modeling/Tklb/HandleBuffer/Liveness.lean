import Tklb.HandleBuffer

/-!
# Which handles a `HandleBuffer` resolves

Nothing in a `HandleBuffer` records that a slot is in use.  `at` accepts a
handle when its generation is the one in the slot's word, and the only handles
it rejects out of hand are those whose slot carries the reserved generation,
which the source calls *uninitialized*.  No operation ever writes the reserved
generation into a slot (`resize` starts every slot at generation `0`), so a slot
that was never created, or was removed, is as resolvable as a live one.

The invariant is `Tracked`: the generation of a slot is the number of times it
was removed, and every live handle carries its slot's generation.  From it,
`has_iff_live_iff` reads off exactly when `has` tells the truth about a handle:
when its slot is occupied, or when the handle is not the one the slot will be
created with next.

### Main results

* `Tracked.step` — every call with a known handle keeps the invariant, whether it finds
  something or not.
* `has_iff_live_iff` — for every run, and for every handle a client could hold or make up: when
  the answer of `has` is that its element lives.  The same condition decides what `at` returns
  and whether `remove` does anything.

The condition is exact, so it says where the answer is wrong: `has` takes the handle that a free
slot will be created with for one that exists already. No call of this buffer has returned it; a
handle of another buffer may well be the same number.
-/

namespace Tklb

open Foundation HandleFormat

namespace HandleSession

variable {F : HandleFormat} {T : Type}

/-- How often the slot `i` was removed. -/
def removals (s : HandleSession F T) (i : ℕ) : ℕ := (s.removed.map F.index).count i

/-- No slot was removed so often that its generation runs out.  Beyond that the slot cannot be
resolved any more, whoever holds it; see `HandleBuffer.Generations`. -/
def Unexhausted (n : ℕ) (s : HandleSession F T) : Prop :=
  ∀ i < n, s.removals i < 2 ^ F.generationBits - 1

/-- The generations are the removal counts, and live handles carry them.  A handle that is not live
may have the generation of its slot all the same: nothing here forbids it, and that is where `has`
is wrong. -/
structure Tracked (n : ℕ) (s : HandleSession F T) : Prop where
  length : s.buffer.mElements.length = n
  generation : ∀ i < n, ∃ e, s.buffer.mElements[i]? = some e ∧
    F.generation e.next = s.removals i
  live : ∀ h ∈ s.live, F.index h < n ∧ F.generation h = s.removals (F.index h)

theorem Tracked.of_start {n : F.Handle} (hpos : 0 < n.toNat)
    (hn : n.toNat < F.maskIndex.toNat) {s : HandleSession F T}
    (hstart : start n = some s) : s.Tracked n.toNat := by
  have hmask := F.maskIndex_toNat_lt
  obtain ⟨b, hb, hlen, -, -, hwords⟩ := HandleBuffer.construct_spec (T := T) hpos
  rw [start, hb, Option.map_some, Option.some.injEq] at hstart
  subst hstart
  refine ⟨hlen, fun i hi => ⟨_, hwords i hi, ?_⟩, by simp⟩
  change F.generation (if i + 1 = n.toNat then _ else _) = 0
  rw [HandleFormat.generation, Nat.div_eq_zero_iff_lt (Nat.two_pow_pos _)]
  split
  · exact hmask
  · rw [BitVec.toNat_ofNat, Nat.mod_eq_of_lt (by have := n.isLt; omega)]
    omega

section Tracked

variable {n : ℕ} {s t : HandleSession F T}

/-- The word in a slot of a tracked buffer. -/
theorem Tracked.slot (hs : s.Tracked n) {i : ℕ} {e : Element F T}
    (he : s.buffer.mElements[i]? = some e) : i < n ∧ F.generation e.next = s.removals i := by
  obtain ⟨hlt, -⟩ := List.getElem?_eq_some_iff.mp he
  rw [hs.length] at hlt
  obtain ⟨e', he', hgen⟩ := hs.generation i hlt
  obtain rfl := Option.some.inj (he.symm.trans he')
  exact ⟨hlt, hgen⟩

/-- A handle its slot resolves is the only one of that slot that can be live. -/
theorem Tracked.eq_of_resolved (hs : s.Tracked n) {h h' : F.Handle} {e : Element F T}
    (he : s.buffer.mElements[F.index h]? = some e)
    (hgen : F.generation h = F.generation e.next) (hlive : h' ∈ s.live)
    (hindex : F.index h' = F.index h) : h' = h := by
  refine F.ext_fields hindex ?_
  rw [hgen, (hs.slot he).2, (hs.live h' hlive).2, hindex]

/-- A word in the place of another one. -/
theorem Tracked.generation_set (hs : s.Tracked n) {k : ℕ} (hk : k < n) {e : Element F T}
    {r : ℕ → ℕ} (hself : F.generation e.next = r k) (hother : ∀ i, k ≠ i → r i = s.removals i) :
    ∀ i < n, ∃ w, (s.buffer.mElements.set k e)[i]? = some w ∧ F.generation w.next = r i := by
  intro i hi
  by_cases hki : k = i
  · subst hki
    exact ⟨e, List.getElem?_set_self (by rw [hs.length]; exact hk), hself⟩
  · obtain ⟨w, hw, hgen⟩ := hs.generation i hi
    exact ⟨w, by rw [List.getElem?_set_ne hki, hw], by rw [hgen, hother i hki]⟩

/-- `create` keeps every word and hands out the slot's own generation. -/
theorem Tracked.create [Inhabited T] (hs : s.Tracked n) (hn : n < F.maskIndex.toNat)
    (hstep : s.exec .create = some t) : t.Tracked n := by
  have hmask := F.maskIndex_toNat_lt
  simp only [exec, Option.map_eq_some_iff, Prod.exists] at hstep
  obtain ⟨h, b, hc, rfl⟩ := hstep
  rcases HandleBuffer.create_cases hc with ⟨-, rfl, rfl⟩ | ⟨-, e, he, rfl, rfl⟩
  · exact ⟨hs.length, hs.generation, fun h' hh' => hs.live h' (by simpa using hh')⟩
  · obtain ⟨hlt, hgen⟩ := hs.slot he
    have hindex := F.index_handle (x := e.next) (show s.buffer.mStart.toNat < _ by omega)
    refine ⟨by rw [List.length_set, hs.length], ?_, fun h' hh' => ?_⟩
    · exact hs.generation_set hlt hgen fun _ _ => rfl
    · rw [if_neg (F.ne_invalidHandle (by rw [hindex]; omega)), List.mem_cons] at hh'
      rcases hh' with rfl | hold
      · rw [hindex, F.generation_handle (by omega)]
        exact ⟨hlt, hgen⟩
      · exact hs.live h' hold

/-- `remove` gives the slot a generation no live handle carries. -/
theorem Tracked.remove [Inhabited T] {h : F.Handle} (hs : s.Tracked n)
    (hn : n < F.maskIndex.toNat) (hstep : s.exec (.remove h) = some t) : t.Tracked n := by
  simp only [exec, Option.map_eq_some_iff, Prod.exists] at hstep
  obtain ⟨ok, b, hr, rfl⟩ := hstep
  rcases HandleBuffer.remove_cases hr with ⟨rfl, -, rfl⟩ | ⟨rfl, -, e, he, hgen, hres, rfl⟩
  · exact ⟨hs.length, hs.generation, hs.live⟩
  · obtain ⟨hlt, hcount⟩ := hs.slot he
    have hself : ((h :: s.removed).map F.index).count (F.index h)
        = s.removals (F.index h) + 1 := by
      rw [List.map_cons, List.count_cons_self, removals]
    have hother : ∀ i, F.index h ≠ i →
        ((h :: s.removed).map F.index).count i = s.removals i := by
      intro i hne
      rw [List.map_cons, List.count_cons_of_ne hne, removals]
    refine ⟨by rw [List.length_set, hs.length], ?_, fun h' hh' => ?_⟩
    · refine hs.generation_set hlt ?_ fun i hne => hother i hne
      refine (F.generation_or (F.index_lt h)
        (HandleBuffer.bumpGeneration_toNat (F.maskBits_pos hn) hres)).trans ?_
      rw [hcount]
      exact hself.symm
    · simp only [if_true, List.mem_filter, decide_eq_true_eq] at hh'
      obtain ⟨hmem, hne⟩ := hh'
      obtain ⟨hindex, hgen'⟩ := hs.live h' hmem
      have hik : F.index h ≠ F.index h' := fun heq =>
        hne (hs.eq_of_resolved he hgen hmem heq.symm)
      refine ⟨hindex, ?_⟩
      simp only [removals, if_true]
      rw [hother _ hik, hgen', removals]

/-- **One call** keeps track.  Only a removal that finds its handle changes a generation, and then
both the word of the slot and the number of its removals go up by one; the handles of the other
slots keep theirs. -/
theorem Tracked.step [Inhabited T] (hs : s.Tracked n) (hn : n < F.maskIndex.toNat)
    {call : HandleCall F} (hstep : s.exec call = some t) : t.Tracked n := by
  cases call with
  | create => exact hs.create hn hstep
  | remove h => exact hs.remove hn hstep

end Tracked

/-- Every state that can be reached is tracked. -/
theorem tracked_of_run [Inhabited T] {n : F.Handle} (hpos : 0 < n.toNat)
    (hn : n.toNat < F.maskIndex.toNat) {s₀ s : HandleSession F T}
    (hstart : start n = some s₀) {calls : List (HandleCall F)}
    (hrun : Run (StepOf exec) s₀ calls s) : s.Tracked n.toNat :=
  hrun.invariant (I := Tracked n.toNat) (fun _ _ _ hs hstep => hs.step hn hstep)
    (Tracked.of_start hpos hn hstart)

/-- What `has` answers for an index inside the buffer: whether the handle's
generation is the slot's removal count. -/
theorem Tracked.atHandle_eq {n : ℕ} {s : HandleSession F T} (hs : s.Tracked n)
    (hroom : s.Unexhausted n) (hn : n < F.maskIndex.toNat) {h : F.Handle}
    (hi : F.index h < n) :
    s.buffer.atHandle h = some (if F.generation h = s.removals (F.index h)
      then some (F.index h) else none) := by
  obtain ⟨e, he, hgen⟩ := hs.generation _ hi
  have := hroom _ hi
  rw [HandleBuffer.atHandle_eq (F.ne_invalidHandle (by omega)) he, hgen]
  by_cases hcur : F.generation h = s.removals (F.index h)
  · rw [if_neg (by omega), if_pos hcur]
  · rw [if_pos (Or.inr hcur), if_neg hcur]

/-- **When `has` tells the truth.**  For every buffer of `1 ≤ n < MaskIndex`
slots, every sequence of `create` and `remove` calls in which no slot was removed
`2 ^ GenerationBits - 1` times, and every handle with an index below `n`: `at`,
`has` and `remove` agree, and they accept the handle precisely when it is live
if and only if its slot is occupied or its generation is not the number of
removals of the slot. -/
theorem has_iff_live_iff [Inhabited T] {n : F.Handle} (hpos : 0 < n.toNat)
    (hn : n.toNat < F.maskIndex.toNat) {s₀ s : HandleSession F T}
    (hstart : start n = some s₀) {calls : List (HandleCall F)}
    (hrun : Run (StepOf exec) s₀ calls s) (hroom : s.Unexhausted n.toNat)
    {h : F.Handle} (hi : F.index h < n.toNat) :
    ∃ found after, s.buffer.atHandle h = some found ∧
      s.buffer.has h = some found.isSome ∧
      s.buffer.remove h = some (found.isSome, after) ∧
      ((found.isSome = true ↔ h ∈ s.live) ↔
        s.Occupied (F.index h) ∨ F.generation h ≠ s.removals (F.index h)) := by
  have htracked := tracked_of_run hpos hn hstart hrun
  have hat := htracked.atHandle_eq hroom hn hi
  have hhas := HandleBuffer.has_of_atHandle hat
  obtain ⟨after, hremove⟩ := HandleBuffer.remove_of_has hhas
  refine ⟨_, after, hat, hhas, hremove, ?_⟩
  by_cases hgen : F.generation h = s.removals (F.index h)
  · -- the handle the slot carries: live exactly when the slot is occupied
    rw [if_pos hgen]
    have hslot : s.Occupied (F.index h) ↔ h ∈ s.live := by
      constructor
      · rintro ⟨h', hlive, hindex⟩
        have := (htracked.live h' hlive).2
        rwa [← F.ext_fields hindex (by rw [this, hindex, hgen])]
      · exact fun hlive => ⟨h, hlive, rfl⟩
    simp [hslot, hgen]
  · have hdead : h ∉ s.live := fun hlive => hgen (htracked.live h hlive).2
    simp [hgen, hdead]

/-- The handle just created is live and its slot occupied. -/
theorem has_iff_live_iff_created :
    ∃ s₀ s : HandleSession default32 Unit, start 4#32 = some s₀ ∧
      Run (StepOf exec) s₀ [.create] s ∧
      ∃ found after, s.buffer.atHandle 0#32 = some found ∧
        s.buffer.has 0#32 = some found.isSome ∧
        s.buffer.remove 0#32 = some (found.isSome, after) ∧
        ((found.isSome = true ↔ 0#32 ∈ s.live) ↔
          s.Occupied (index default32 0#32) ∨
            generation default32 0#32 ≠ s.removals (index default32 0#32)) := by
  have hrun : ∃ s₀ s : HandleSession default32 Unit, start 4#32 = some s₀ ∧
      Run (StepOf exec) s₀ [.create] s ∧ s.removed = [] :=
    ⟨_, _, rfl, Run.cons rfl (Run.nil _), rfl⟩
  obtain ⟨s₀, s, hstart, hcalls, hnone⟩ := hrun
  refine ⟨s₀, s, hstart, hcalls,
    has_iff_live_iff (by decide) (by decide) hstart hcalls ?_ (by decide)⟩
  intro i _
  simp [removals, hnone]

/-- On a new buffer of four slots `has` accepts a handle nobody was given. -/
theorem has_of_never_created :
    ∃ s₀ : HandleSession default32 Unit, start 4#32 = some s₀ ∧
      ¬ (s₀.buffer.has 0#32 = some true ↔ 0#32 ∈ s₀.live) :=
  ⟨_, rfl, by decide⟩

end HandleSession

end Tklb
