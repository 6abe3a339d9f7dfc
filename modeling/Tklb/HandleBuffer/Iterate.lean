import Tklb.HandleBuffer.Liveness
import Tklb.Foundation.FirstFew

/-!
# What `iterate` visits

`iterate` has two ways of telling which slots hold an element: it skips the slots that
carry the reserved generation, and it stops after `size() - mFree` calls.  The first test
is meant for slots that are not in use, but only a slot whose generations have run out
carries the reserved one (`Retired`); a slot that was never used, or was freed, passes.
So `iterate` visits the first few slots that are not retired, whether they hold an element
or not (`Tracked.mem_iterate`).

These are the right ones if the occupied slots come first, without a gap, if none of them
is retired, and if `mFree` counts them (`Gapless`).

### Main results

* `Tracked.mem_iterate` — what `iterate` visits in a state of which only the generations are
  known: the slots that are not retired, up to a number of them.
* `Stocked.step` — a live handle has an element in its slot.
* `iterates_iff_gapless` — the two sets agree, in order and with their handles, if and only if
  the state is `Gapless`.

The condition is about what a client can see: which of its elements are alive, and in which
slots.  A client that never removes meets it; the first removal of an element that is not the
last one does not.
-/

namespace Tklb

open Foundation HandleFormat

namespace HandleBuffer

variable {F : HandleFormat} {T : Type}

/-! ### The loop -/

/-- The call of `func` for the element of slot `i`. -/
def visitAt (i : ℕ) (e : Element F T) : Visit F T :=
  ⟨i, e.value, BitVec.ofNat _ i ||| (e.next &&& F.maskGeneration)⟩

/-- The loop visits slots from its first one on, in increasing order. -/
theorem iterateFrom_increasing {i : ℕ} {left : F.Handle} {es : List (Element F T)} :
    (∀ v ∈ iterateFrom i left es, i ≤ v.slot) ∧
      ((iterateFrom i left es).map Visit.slot).Pairwise (· < ·) := by
  induction es generalizing i left with
  | nil => exact ⟨by simp [iterateFrom], List.Pairwise.nil⟩
  | cons e es ih =>
      rw [iterateFrom]
      split
      · exact ⟨by simp, List.Pairwise.nil⟩
      · split
        · obtain ⟨hfrom, hpairs⟩ := @ih (i + 1) (left - 1#F.handleBits)
          refine ⟨fun v hv => ?_, ?_⟩
          · rcases List.mem_cons.mp hv with rfl | hv
            · exact le_rfl
            · exact (Nat.le_succ i).trans (hfrom v hv)
          · refine List.pairwise_cons.mpr ⟨fun j hj => ?_, hpairs⟩
            obtain ⟨v, hv, rfl⟩ := List.mem_map.mp hj
            exact hfrom v hv
        · obtain ⟨hfrom, hpairs⟩ := @ih (i + 1) left
          exact ⟨fun v hv => (Nat.le_succ i).trans (hfrom v hv), hpairs⟩

/-- A slot is the first one or one of the rest. -/
theorem exists_slot_cons {e : Element F T} {es : List (Element F T)}
    {Q : ℕ → Element F T → Prop} :
    (∃ j e', (e :: es)[j]? = some e' ∧ Q j e') ↔
      Q 0 e ∨ ∃ j e', es[j]? = some e' ∧ Q (j + 1) e' := by
  constructor
  · rintro ⟨j, e', he', hQ⟩
    cases j with
    | zero =>
        obtain rfl : e = e' := by simpa using he'
        exact Or.inl hQ
    | succ j => exact Or.inr ⟨j, e', by simpa using he', hQ⟩
  · rintro (hQ | ⟨j, e', he', hQ⟩)
    · exact ⟨0, e, rfl, hQ⟩
    · exact ⟨j + 1, e', by simpa using he', hQ⟩

/-- The loop visits the first few slots whose generation is not the reserved one. -/
theorem mem_iterateFrom {p : ℕ → Prop} [DecidablePred p] {i : ℕ} {left : F.Handle}
    {es : List (Element F T)}
    (hp : ∀ j e, es[j]? = some e → (e.next &&& F.maskGeneration ≠ F.maskGeneration ↔ p (i + j)))
    {v : Visit F T} :
    v ∈ iterateFrom i left es ↔ ∃ j e, es[j]? = some e ∧
      FirstFew p (Nat.count p i + left.toNat) (i + j) ∧ v = visitAt (i + j) e := by
  induction es generalizing i left with
  | nil => simp [iterateFrom]
  | cons e es ih =>
      have hshift : ∀ j, i + 1 + j = i + (j + 1) := fun j => by omega
      have hrest : ∀ left' : F.Handle, v ∈ iterateFrom (i + 1) left' es ↔
          ∃ j e', es[j]? = some e' ∧ FirstFew p (Nat.count p (i + 1) + left'.toNat)
            (i + (j + 1)) ∧ v = visitAt (i + (j + 1)) e' := by
        intro left'
        rw [ih fun j e' he' => ?_]
        · simp only [hshift]
        · rw [hshift]
          exact hp (j + 1) e' (by simpa using he')
      have hcount := Nat.count_succ p i
      rw [iterateFrom, exists_slot_cons, Nat.add_zero]
      split
      · -- no calls are left
        rename_i hzero
        have hleft : left.toNat = 0 := by rw [hzero]; exact BitVec.toNat_zero
        have hnone : ∀ j, i ≤ j → ¬ FirstFew p (Nat.count p i + left.toNat) j := by
          rintro j hj ⟨-, hfew⟩
          have := Nat.count_monotone p hj
          omega
        refine iff_of_false List.not_mem_nil ?_
        rintro (⟨hfew, -⟩ | ⟨j, e', -, hfew, -⟩)
        · exact hnone i le_rfl hfew
        · exact hnone (i + (j + 1)) (by omega) hfew
      · rename_i hleft
        have hpos : 0 < left.toNat := Nat.pos_of_ne_zero fun hzero =>
          hleft (BitVec.eq_of_toNat_eq hzero)
        split
        · -- the slot is visited
          rename_i hcall
          have hpi : p i := (hp 0 e rfl).mp hcall
          rw [if_pos hpi] at hcount
          have hfew : FirstFew p (Nat.count p i + left.toNat) i := ⟨hpi, by omega⟩
          rw [List.mem_cons, hrest, toNat_sub_one hpos, hcount,
            show Nat.count p i + 1 + (left.toNat - 1) = Nat.count p i + left.toNat by omega]
          exact or_congr (and_iff_right hfew).symm Iff.rfl
        · rename_i hskip
          have hpi : ¬ p i := fun hpi => hskip ((hp 0 e rfl).mpr hpi)
          rw [if_neg hpi, Nat.add_zero] at hcount
          rw [hrest, hcount]
          exact (or_iff_right fun hhead => hpi hhead.1.1).symm

end HandleBuffer

namespace HandleSession

variable {F : HandleFormat} {T : Type} {n : ℕ} {s t : HandleSession F T}

/-- **`iterate` visits the live elements and nothing else**: in increasing order of their
slots, each with what is stored there and with the handle `create` returned for it. -/
structure Iterates (s : HandleSession F T) : Prop where
  increasing : (s.buffer.iterate.map HandleBuffer.Visit.slot).Pairwise (· < ·)
  live : ∀ v ∈ s.buffer.iterate, v.handle ∈ s.live ∧ v.slot = F.index v.handle ∧
    v.value.isSome
  all : ∀ h ∈ s.live, ∃ v ∈ s.buffer.iterate, v.handle = h

/-- The generations of the slot have run out.  Its word has the reserved generation now, no handle
to it resolves, and `iterate` passes it over. -/
def Retired (s : HandleSession F T) (i : ℕ) : Prop :=
  s.removals i = 2 ^ F.generationBits - 1

instance : DecidablePred s.Retired := fun _ => inferInstanceAs (Decidable (_ = _))

instance : DecidablePred s.Occupied :=
  fun i => inferInstanceAs (Decidable (∃ h ∈ s.live, F.index h = i))

/-- The slots that hold an element can be told from the outside: none of them is retired,
all slots in front of one are occupied or retired, and there are `size() - mFree` of them
or nothing but retired slots besides. -/
structure Gapless (n : ℕ) (s : HandleSession F T) : Prop where
  resolvable : ∀ i < n, s.Occupied i → ¬ s.Retired i
  front : ∀ i j, i < j → j < n → s.Occupied j → ¬ s.Occupied i → s.Retired i
  counted : s.buffer.itemsLeft.toNat = Nat.count s.Occupied n ∨
    Nat.count s.Occupied n < s.buffer.itemsLeft.toNat ∧
      ∀ i < n, ¬ s.Occupied i → s.Retired i

/-! ### The slots of live handles -/

/-- An element is stored in the slot of every live handle.  So where a live handle is visited, there
is something to call the function with. -/
def Stocked (s : HandleSession F T) : Prop :=
  ∀ h ∈ s.live, ∃ e, s.buffer.mElements[F.index h]? = some e ∧ e.value.isSome

/-- **One call** leaves an element in the slot of every live handle. -/
theorem Stocked.step [Inhabited T] (h : s.Stocked) (hs : s.Tracked n)
    (hn : n < F.maskIndex.toNat) {call : HandleCall F} (hstep : s.exec call = some t) :
    t.Stocked := by
  have hmask := F.maskIndex_toNat_lt
  cases call with
  | create =>
      simp only [exec, Option.map_eq_some_iff, Prod.exists] at hstep
      obtain ⟨handle, b, hc, rfl⟩ := hstep
      rcases HandleBuffer.create_cases hc with ⟨-, rfl, rfl⟩ | ⟨-, e, he, rfl, rfl⟩
      · exact fun h' hh' => h h' (by simpa using hh')
      · obtain ⟨hlt, -⟩ := hs.slot he
        have hindex := F.index_handle (x := e.next) (show s.buffer.mStart.toNat < _ by omega)
        intro h' hh'
        dsimp only at hh' ⊢
        by_cases hslot : s.buffer.mStart.toNat = F.index h'
        · rw [← hslot, List.getElem?_set_self (by rw [hs.length]; exact hlt)]
          exact ⟨_, rfl, rfl⟩
        · rw [List.getElem?_set_ne hslot]
          rw [if_neg (F.ne_invalidHandle (by rw [hindex]; omega)), List.mem_cons] at hh'
          rcases hh' with rfl | hold
          · exact absurd hindex.symm hslot
          · exact h h' hold
  | remove handle =>
      simp only [exec, Option.map_eq_some_iff, Prod.exists] at hstep
      obtain ⟨ok, b, hr, rfl⟩ := hstep
      rcases HandleBuffer.remove_cases hr with ⟨rfl, -, rfl⟩ | ⟨rfl, -, e, he, hgen, -, rfl⟩
      · exact h
      · -- the handles that stay live belong to other slots
        intro h' hh'
        simp only [if_true, List.mem_filter, decide_eq_true_eq] at hh' ⊢
        rw [List.getElem?_set_ne fun heq => hh'.2 (hs.eq_of_resolved he hgen hh'.1 heq.symm)]
        exact h h' hh'.1

/-- Every state that can be reached is tracked and stocked. -/
theorem stocked_of_run [Inhabited T] {n : F.Handle} (hpos : 0 < n.toNat)
    (hn : n.toNat < F.maskIndex.toNat) {s₀ s : HandleSession F T}
    (hstart : start n = some s₀) {calls : List (HandleCall F)}
    (hrun : Run (StepOf exec) s₀ calls s) : s.Tracked n.toNat ∧ s.Stocked := by
  refine hrun.invariant (I := fun s => s.Tracked n.toNat ∧ s.Stocked) ?_ ⟨?_, ?_⟩
  · rintro s call t ⟨hs, h⟩ hstep
    exact ⟨hs.step hn hstep, h.step hs hn hstep⟩
  · exact Tracked.of_start hpos hn hstart
  · rw [start, Option.map_eq_some_iff] at hstart
    obtain ⟨b, -, rfl⟩ := hstart
    exact fun h hh => absurd hh List.not_mem_nil

/-! ### The visits -/

/-- What is visited: the first few slots that are not retired, each with the handle of its
index and its generation. -/
theorem Tracked.mem_iterate (hs : s.Tracked n) {v : HandleBuffer.Visit F T} :
    v ∈ s.buffer.iterate ↔ ∃ i e, s.buffer.mElements[i]? = some e ∧
      FirstFew (fun i => ¬ s.Retired i) s.buffer.itemsLeft.toNat i ∧
      v = HandleBuffer.visitAt i e := by
  have hp : ∀ j e, s.buffer.mElements[j]? = some e →
      (e.next &&& F.maskGeneration ≠ F.maskGeneration ↔ ¬ s.Retired (0 + j)) := by
    intro j e he
    rw [ne_eq, F.and_maskGeneration_eq_iff, (hs.slot he).2, Nat.zero_add]
    rfl
  rw [HandleBuffer.iterate, HandleBuffer.mem_iterateFrom (p := fun i => ¬ s.Retired i) hp]
  simp only [Nat.count_zero, Nat.zero_add]

/-- The handle a slot is visited with. -/
theorem Tracked.visitAt_handle (hs : s.Tracked n) (hn : n < F.maskIndex.toNat) {i : ℕ}
    {e : Element F T} (he : s.buffer.mElements[i]? = some e) :
    F.index (HandleBuffer.visitAt i e).handle = i ∧
      F.generation (HandleBuffer.visitAt i e).handle = F.generation e.next := by
  have hmask := F.maskIndex_toNat_lt
  have hlt := (hs.slot he).1
  have hi : (BitVec.ofNat F.handleBits i).toNat = i := by
    rw [BitVec.toNat_ofNat]
    exact Nat.mod_eq_of_lt (lt_trans (lt_trans hlt hn) F.maskIndex.isLt)
  refine ⟨?_, F.generation_handle (by omega)⟩
  exact (F.index_handle (by omega)).trans hi

/-- The handle the slot of a live handle is visited with is that handle. -/
theorem Tracked.visitAt_live (hs : s.Tracked n) (hn : n < F.maskIndex.toNat) {h : F.Handle}
    (hlive : h ∈ s.live) {e : Element F T}
    (he : s.buffer.mElements[F.index h]? = some e) :
    (HandleBuffer.visitAt (F.index h) e).handle = h := by
  obtain ⟨hindex, hgen⟩ := hs.visitAt_handle hn he
  rw [← hindex] at he
  exact (hs.eq_of_resolved he hgen hlive hindex.symm).symm

/-- `iterate` visits the live elements if the occupied slots are the first few that are
not retired. -/
theorem Tracked.iterates_iff (hs : s.Tracked n) (hstocked : s.Stocked)
    (hn : n < F.maskIndex.toNat) :
    s.Iterates ↔ ∀ i < n, s.Occupied i ↔
      FirstFew (fun i => ¬ s.Retired i) s.buffer.itemsLeft.toNat i := by
  constructor
  · intro h i hi
    constructor
    · rintro ⟨handle, hlive, rfl⟩
      obtain ⟨v, hv, rfl⟩ := h.all handle hlive
      obtain ⟨i, e, he, hfew, rfl⟩ := hs.mem_iterate.mp hv
      rwa [(hs.visitAt_handle hn he).1]
    · intro hfew
      obtain ⟨e, he, -⟩ := hs.generation i hi
      obtain ⟨hlive, -⟩ := h.live _ (hs.mem_iterate.mpr ⟨i, e, he, hfew, rfl⟩)
      exact ⟨_, hlive, (hs.visitAt_handle hn he).1⟩
  · intro h
    refine ⟨HandleBuffer.iterateFrom_increasing.2, fun v hv => ?_, fun handle hlive => ?_⟩
    · obtain ⟨i, e, he, hfew, rfl⟩ := hs.mem_iterate.mp hv
      obtain ⟨handle, hlive, rfl⟩ := (h i (hs.slot he).1).mpr hfew
      obtain ⟨e', he', hvalue⟩ := hstocked handle hlive
      obtain rfl : e = e' := Option.some.inj (he.symm.trans he')
      rw [hs.visitAt_live hn hlive he]
      exact ⟨hlive, rfl, hvalue⟩
    · obtain ⟨e, he, -⟩ := hs.generation _ (hs.live handle hlive).1
      have hfew := (h _ (hs.slot he).1).mp ⟨handle, hlive, rfl⟩
      exact ⟨_, hs.mem_iterate.mpr ⟨_, e, he, hfew, rfl⟩, hs.visitAt_live hn hlive he⟩

/-- **When `iterate` visits the live elements.**  For every handle format, every buffer of
`1 ≤ n < MaskIndex` slots and every sequence of `create` and `remove` calls: `iterate`
calls its function exactly once for each live element, in increasing slot order and with
the handle `create` returned, and for nothing else, if and only if the occupied slots are
gapless. -/
theorem iterates_iff_gapless [Inhabited T] {n : F.Handle} (hpos : 0 < n.toNat)
    (hn : n.toNat < F.maskIndex.toNat) {s₀ s : HandleSession F T}
    (hstart : start n = some s₀) {calls : List (HandleCall F)}
    (hrun : Run (StepOf exec) s₀ calls s) : s.Iterates ↔ s.Gapless n.toNat := by
  obtain ⟨hs, hstocked⟩ := stocked_of_run hpos hn hstart hrun
  rw [hs.iterates_iff hstocked hn, eq_firstFew_iff]
  simp only [not_not]
  constructor
  · rintro ⟨hresolvable, hfront, hcounted⟩
    exact ⟨hresolvable, hfront, hcounted⟩
  · rintro ⟨hresolvable, hfront, hcounted⟩
    exact ⟨hresolvable, hfront, hcounted⟩

/-- Two of four slots are in use, from the first one on. -/
theorem iterates_two_creates :
    ∃ s₀ s : HandleSession default32 Unit, start 4#32 = some s₀ ∧
      Run (StepOf exec) s₀ [.create, .create] s ∧ s.Iterates := by
  obtain ⟨s₀, s, hstart, hrun, hlive, hremoved, hleft⟩ : ∃ s₀ s : HandleSession default32 Unit,
      start 4#32 = some s₀ ∧ Run (StepOf exec) s₀ [.create, .create] s ∧
      s.live = [1#32, 0#32] ∧ s.removed = [] ∧ s.buffer.itemsLeft = 2#32 :=
    ⟨_, _, rfl, Run.of_foldlM rfl, rfl, rfl, rfl⟩
  have hoccupied : ∀ i, s.Occupied i ↔ 1 = i ∨ 0 = i := by
    simp [Occupied, hlive, index, maskIndex, maskBits]
  have hretired : ∀ i, ¬ s.Retired i := by simp [Retired, removals, hremoved]
  refine ⟨s₀, s, hstart, hrun, (iterates_iff_gapless (by decide) (by decide) hstart hrun).mpr
    ⟨fun i _ _ => hretired i, fun i j hij _ hj hi => ?_, Or.inl ?_⟩⟩
  · rw [hoccupied] at hi hj
    omega
  · simp [hleft, Nat.count_succ, hoccupied]

/-- Two elements are created and the first one is removed: `iterate` is called for the
slot that was freed, and not for the element that is left. -/
theorem not_iterates_after_remove :
    ∃ s₀ s : HandleSession default32 Unit, start 4#32 = some s₀ ∧
      Run (StepOf exec) s₀ [.create, .create, .remove 0#32] s ∧ s.live = [1#32] ∧
      s.buffer.iterate = [⟨0, none, 0x01000000#32⟩] ∧ ¬ s.Iterates := by
  obtain ⟨s₀, s, hstart, hrun, hlive, hcalls⟩ : ∃ s₀ s : HandleSession default32 Unit,
      start 4#32 = some s₀ ∧ Run (StepOf exec) s₀ [.create, .create, .remove 0#32] s ∧
      s.live = [1#32] ∧ s.buffer.iterate = [⟨0, none, 0x01000000#32⟩] :=
    ⟨_, _, rfl, Run.of_foldlM rfl, rfl, rfl⟩
  refine ⟨s₀, s, hstart, hrun, hlive, hcalls, fun h => ?_⟩
  obtain ⟨v, hv, hhandle⟩ := h.all 1#32 (by simp [hlive])
  rw [hcalls, List.mem_singleton] at hv
  rw [hv] at hhandle
  cases hhandle

end HandleSession

end Tklb
