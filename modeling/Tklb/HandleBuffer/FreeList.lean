import Tklb.HandleBuffer

/-!
# The free list of a `HandleBuffer`

`create` takes the slot at `mStart` and moves `mStart` to that slot's link;
`remove` puts a slot back in front.  For the list to stay a list, `remove` has
to link the slot to the *old* `mStart`.  It links the slot to itself instead
(`or_bumpGeneration_index`).

`Sound` is what the free list is for: walking it from `mStart` meets every slot
without a live element exactly once, `create` never hands out an occupied slot,
and it is exhausted exactly when all slots are occupied.  `sound_iff_misses`
says for which runs that holds: exactly for those in which no `remove` finds its
handle.

* Along such a run the buffer only ever **fills up** (`Filling`): after `k`
  successful creations the list is `k, k + 1, …, n - 1`.
* After a successful removal `mStart` sits on a **self-loop** (`SelfLoop`), and
  no later call leads out of one.

### What is load-bearing

Soundness is a statement about walks of any length, and no such walk can be inspected in a
proof.  Both invariants above avoid that: `Filling` gives the list in closed form, so the walk
is known, and `SelfLoop` gives a walk that never ends, so the list is not one.  A run is in one
of the two at every moment, and it changes from the first to the second with the first removal
that finds its handle (`Misses`).  That is why the condition is exact.
-/

namespace Tklb

open Foundation HandleFormat

namespace HandleSession

variable {F : HandleFormat} {T : Type} [Inhabited T]

/-- The free list is well formed, with what follows from it for `create`.  The list has the slots
without an element, each once, and ends; a handle that is created is new and names a free slot; and
it is not created exactly if there is none. -/
structure Sound (s : HandleSession F T) : Prop where
  /-- Walking the list meets the `mFree` unoccupied slots, each once, and ends
  at `MaskIndex`. -/
  walk : ∃ slots, Visits s.buffer.link s.buffer.mStart slots F.maskIndex ∧
    slots.Nodup ∧ slots.length = s.buffer.mFree.toNat ∧
    ∀ i : F.Handle, i ∈ slots ↔
      i.toNat < s.buffer.mElements.length ∧ ¬ s.Occupied i.toNat
  /-- A slot that is handed out is not occupied. -/
  fresh : ∀ h b, s.buffer.create = some (h, b) →
    h ≠ F.invalidHandle → ¬ s.Occupied (F.index h)
  /-- `create` answers, and refuses exactly when every slot is occupied. -/
  exhausted : ∃ h b, s.buffer.create = some (h, b) ∧
    (h = F.invalidHandle ↔ ∀ i < s.buffer.mElements.length, s.Occupied i)

/-- `remove` is not called with a handle the buffer currently resolves.  The reply of `has` in the
state before the call decides, so the condition can be checked by the program itself. -/
def Misses (s : HandleSession F T) : HandleCall F → Prop
  | .create => True
  | .remove h => s.buffer.has h ≠ some true

/-! ### Filling up -/

/-- The state after `k` creations and no successful removal.  The free list is known in full: from
`mStart` each slot is linked to the next one, and the last to `MaskIndex`. -/
structure Filling (n k : ℕ) (s : HandleSession F T) : Prop where
  le : k ≤ n
  length : s.buffer.mElements.length = n
  words : ∀ i < n, ∃ e, s.buffer.mElements[i]? = some e ∧
    e.next = if i + 1 = n then F.maskIndex else BitVec.ofNat _ (i + 1)
  start : s.buffer.mStart = if k = n then F.maskIndex else BitVec.ofNat _ k
  free : s.buffer.mFree.toNat = n - k
  occupied : ∀ i, s.Occupied i ↔ i < k

section Filling

omit [Inhabited T]

variable {n k : ℕ} {s : HandleSession F T}

/-- Indices up to `n` are below `MaskIndex`, so they are their own words. -/
theorem ofNat_toNat_of_lt {i : ℕ} (hi : i < F.maskIndex.toNat) :
    (BitVec.ofNat F.handleBits i).toNat = i := by
  rw [BitVec.toNat_ofNat]
  exact Nat.mod_eq_of_lt (lt_trans hi F.maskIndex.isLt)

theorem Filling.link_eq (hf : s.Filling n k) {i : ℕ} (hi : i < n)
    (hn : n < F.maskIndex.toNat) :
    s.buffer.link (BitVec.ofNat _ i) =
      if i + 1 = n then F.maskIndex else BitVec.ofNat _ (i + 1) := by
  obtain ⟨e, he, hnext⟩ := hf.words i hi
  rw [HandleBuffer.link, ofNat_toNat_of_lt (by omega), he, Option.elim_some, hnext]
  split
  · exact BitVec.and_self
  · have hmask := F.maskIndex_toNat
    exact F.and_maskIndex_of_lt (by rw [ofNat_toNat_of_lt (by omega)]; omega)

/-- From slot `k` the list runs through all later slots. -/
theorem Filling.visits (hf : s.Filling n k) (hn : n < F.maskIndex.toNat) :
    ∀ m j, j + m = n → Visits s.buffer.link
      (if j = n then F.maskIndex else BitVec.ofNat _ j)
      ((List.range' j m).map (BitVec.ofNat F.handleBits)) F.maskIndex := by
  intro m
  induction m with
  | zero =>
      intro j hj
      rw [if_pos (by omega)]
      rfl
  | succ m ih =>
      intro j hj
      rw [if_neg (by omega), List.range'_succ, List.map_cons]
      refine ⟨rfl, ?_⟩
      rw [hf.link_eq (by omega) hn]
      exact ih (j + 1) (by omega)

theorem Filling.mem_slots (hn : n < F.maskIndex.toNat) (hk : k ≤ n) (i : F.Handle) :
    i ∈ (List.range' k (n - k)).map (BitVec.ofNat F.handleBits) ↔
      k ≤ i.toNat ∧ i.toNat < n := by
  rw [List.mem_map]
  constructor
  · rintro ⟨j, hj, rfl⟩
    rw [List.mem_range'_1] at hj
    rw [ofNat_toNat_of_lt (by omega)]
    omega
  · rintro ⟨hki, hin⟩
    refine ⟨i.toNat, ?_, by simp⟩
    rw [List.mem_range'_1]
    omega

/-- The list of a filling buffer is well formed. -/
theorem Filling.walk (hf : s.Filling n k) (hn : n < F.maskIndex.toNat) :
    ∃ slots, Visits s.buffer.link s.buffer.mStart slots F.maskIndex ∧
      slots.Nodup ∧ slots.length = s.buffer.mFree.toNat ∧
      ∀ i : F.Handle, i ∈ slots ↔
        i.toNat < s.buffer.mElements.length ∧ ¬ s.Occupied i.toNat := by
  have hle := hf.le
  refine ⟨(List.range' k (n - k)).map (BitVec.ofNat F.handleBits), ?_, ?_, ?_, ?_⟩
  · rw [hf.start]
    exact hf.visits hn (n - k) k (by omega)
  · refine List.Nodup.map_on ?_ List.nodup_range'
    intro i hi j hj hij
    rw [List.mem_range'_1] at hi hj
    have := congrArg BitVec.toNat hij
    rwa [ofNat_toNat_of_lt (by omega), ofNat_toNat_of_lt (by omega)] at this
  · rw [List.length_map, List.length_range', hf.free]
  · intro i
    rw [Filling.mem_slots hn hle, hf.length, hf.occupied]
    omega

end Filling

/-- What the walk means for `create`: the list is empty when and only when every
slot is occupied, and otherwise starts at an unoccupied one. -/
theorem sound_of_walk {s : HandleSession F T}
    (hlen : s.buffer.mElements.length < F.maskIndex.toNat)
    (hwalk : ∃ slots, Visits s.buffer.link s.buffer.mStart slots F.maskIndex ∧
      slots.Nodup ∧ slots.length = s.buffer.mFree.toNat ∧
      ∀ i : F.Handle, i ∈ slots ↔
        i.toNat < s.buffer.mElements.length ∧ ¬ s.Occupied i.toNat) :
    s.Sound := by
  have hmask := F.maskIndex_toNat_lt
  obtain ⟨slots, hvisits, hnodup, hcount, hmem⟩ := hwalk
  refine ⟨⟨slots, hvisits, hnodup, hcount, hmem⟩, ?_, ?_⟩
  · intro h b hc hne
    rcases HandleBuffer.create_cases hc with ⟨-, hinv, -⟩ | ⟨hstart, e, -, rfl, -⟩
    · exact absurd hinv hne
    · cases slots with
      | nil => exact absurd hvisits hstart
      | cons x rest =>
          obtain ⟨hlt, hfree⟩ := (hmem x).mp List.mem_cons_self
          obtain rfl := hvisits.1
          rwa [F.index_handle (by omega)]
  · cases slots with
    | nil =>
        refine ⟨F.invalidHandle, s.buffer, HandleBuffer.create_of_full hvisits, ?_⟩
        simp only [true_iff]
        intro i hi
        by_contra hfree
        have hnat := ofNat_toNat_of_lt (F := F) (i := i) (by omega)
        exact List.not_mem_nil ((hmem (BitVec.ofNat _ i)).mpr (by rw [hnat]; exact ⟨hi, hfree⟩))
    | cons x rest =>
        obtain ⟨hlt, hfree⟩ := (hmem x).mp List.mem_cons_self
        obtain rfl := hvisits.1
        have hstart : s.buffer.mStart ≠ F.maskIndex := by
          intro heq
          rw [heq] at hlt
          omega
        have hsome := List.getElem?_eq_getElem hlt
        refine ⟨_, _, HandleBuffer.create_of_slot hstart hsome, ?_⟩
        constructor
        · intro hinv
          refine absurd hinv (F.ne_invalidHandle ?_)
          rw [F.index_handle (by omega)]
          omega
        · exact fun hall => absurd (hall _ hlt) hfree

/-! ### One call -/

/-- A `create` takes a filling buffer one slot further, or is refused once it is
full. -/
theorem Filling.create {n k : ℕ} {s t : HandleSession F T} (hf : s.Filling n k)
    (hn : n < F.maskIndex.toNat) (hstep : s.exec .create = some t) :
    ∃ k', t.Filling n k' := by
  have hmask := F.maskIndex_toNat_lt
  have hle := hf.le
  simp only [exec, Option.map_eq_some_iff, Prod.exists] at hstep
  obtain ⟨h, b, hc, rfl⟩ := hstep
  rcases HandleBuffer.create_cases hc with ⟨-, rfl, rfl⟩ | ⟨hstart, e, he, rfl, rfl⟩
  · -- refused: nothing changes
    refine ⟨k, hle, hf.length, hf.words, hf.start, hf.free, fun i => ?_⟩
    rw [← hf.occupied]
    simp [Occupied]
  · -- slot `k` is taken, and its link is `k + 1`
    have hkn : k ≠ n := by
      rintro rfl
      exact hstart (by rw [hf.start, if_pos rfl])
    have hk : s.buffer.mStart = BitVec.ofNat _ k := by rw [hf.start, if_neg hkn]
    have hkv : s.buffer.mStart.toNat = k := by rw [hk, ofNat_toNat_of_lt (by omega)]
    obtain ⟨e', he', hnext⟩ := hf.words k (by omega)
    obtain rfl : e = e' := by
      rw [hkv] at he
      exact Option.some.inj (he.symm.trans he')
    have hindex : F.index (s.buffer.mStart ||| (e.next &&& F.maskGeneration)) = k := by
      rw [F.index_handle (by omega), hkv]
    refine ⟨k + 1, by omega, ?_, ?_, ?_, ?_, ?_⟩
    · rw [List.length_set, hf.length]
    · intro i hi
      obtain ⟨w, hw, hwnext⟩ := hf.words i hi
      by_cases hik : k = i
      · subst hik
        refine ⟨{ e with value := some default }, ?_, hnext⟩
        rw [hkv, List.getElem?_set_self (by rw [hf.length]; omega)]
      · exact ⟨w, by rw [hkv, List.getElem?_set_ne hik, hw], hwnext⟩
    · rw [← hf.link_eq (by omega) hn, HandleBuffer.link, ofNat_toNat_of_lt (by omega), he',
        Option.elim_some]
    · have hfree := hf.free
      rw [HandleBuffer.toNat_sub_one (by omega)]
      omega
    · intro i
      rw [if_neg (F.ne_invalidHandle (by rw [hindex]; omega))]
      simp only [Occupied, List.mem_cons, exists_eq_or_imp, hindex]
      have := hf.occupied i
      simp only [Occupied] at this
      rw [this]
      omega

/-- A removal that misses changes nothing. -/
theorem exec_remove_of_misses {s t : HandleSession F T} {h : F.Handle}
    (hmiss : s.Misses (.remove h)) (hstep : s.exec (.remove h) = some t) : t = s := by
  simp only [exec, Option.map_eq_some_iff, Prod.exists] at hstep
  obtain ⟨ok, b, hr, rfl⟩ := hstep
  rcases HandleBuffer.remove_cases hr with ⟨rfl, -, rfl⟩ | ⟨rfl, hhas, -⟩
  · rfl
  · exact absurd hhas hmiss

omit [Inhabited T] in
/-- A new buffer is filling, from slot `0`. -/
theorem Filling.of_start {n : F.Handle} (hpos : 0 < n.toNat) {s : HandleSession F T}
    (hstart : HandleSession.start n = some s) : s.Filling n.toNat 0 := by
  obtain ⟨b, hb, hlen, hfirst, hfree, hwords⟩ :=
    HandleBuffer.construct_spec (T := T) hpos
  rw [HandleSession.start, hb, Option.map_some, Option.some.injEq] at hstart
  subst hstart
  refine ⟨Nat.zero_le _, hlen, fun i hi => ⟨_, hwords i hi, rfl⟩, ?_, ?_, ?_⟩
  · rw [if_neg (by omega)]
    exact hfirst
  · rw [hfree]
    rfl
  · simp [Occupied]

/-! ### Self-loops -/

/-- `mStart` designates a slot that is linked to itself.  A walk from there meets this slot again
and again, and no other. -/
structure SelfLoop (n : ℕ) (s : HandleSession F T) : Prop where
  length : s.buffer.mElements.length = n
  start_lt : s.buffer.mStart.toNat < n
  fixed : s.buffer.link s.buffer.mStart = s.buffer.mStart

/-- A successful removal leaves a self-loop. -/
theorem SelfLoop.of_remove {n : ℕ} {s t : HandleSession F T} {h : F.Handle}
    (hlen : s.buffer.mElements.length = n) (hhit : s.buffer.has h = some true)
    (hstep : s.exec (.remove h) = some t) : t.SelfLoop n := by
  simp only [exec, Option.map_eq_some_iff, Prod.exists] at hstep
  obtain ⟨ok, b, hr, rfl⟩ := hstep
  rcases HandleBuffer.remove_cases hr with ⟨-, hmiss, -⟩ | ⟨rfl, -, e, he, -, -, rfl⟩
  · simp [hhit] at hmiss
  · have hlt := (List.getElem?_eq_some_iff.mp he).1
    refine ⟨by rw [List.length_set, hlen], by rw [← hlen]; exact hlt, ?_⟩
    rw [HandleBuffer.link]
    change ((s.buffer.mElements.set (F.index h) _)[F.index h]?).elim _ _ = _
    rw [List.getElem?_set_self hlt, Option.elim_some]
    exact HandleBuffer.or_bumpGeneration_index _ _

/-- No call leads out of a self-loop. -/
theorem SelfLoop.step {n : ℕ} {s t : HandleSession F T} {call : HandleCall F}
    (hloop : s.SelfLoop n) (hstep : s.exec call = some t) : t.SelfLoop n := by
  cases call with
  | create =>
      simp only [exec, Option.map_eq_some_iff, Prod.exists] at hstep
      obtain ⟨h, b, hc, rfl⟩ := hstep
      rcases HandleBuffer.create_cases hc with ⟨-, -, rfl⟩ | ⟨-, e, he, -, rfl⟩
      · exact ⟨hloop.length, hloop.start_lt, hloop.fixed⟩
      · have hlt := (List.getElem?_eq_some_iff.mp he).1
        have hfix : e.next &&& F.maskIndex = s.buffer.mStart := by
          rw [← hloop.fixed, HandleBuffer.link, he, Option.elim_some]
        refine ⟨by rw [List.length_set, hloop.length], ?_, ?_⟩
        · rw [hfix]
          exact hloop.start_lt
        · rw [HandleBuffer.link, hfix, List.getElem?_set_self hlt, Option.elim_some, hfix]
  | remove h =>
      by_cases hhit : s.buffer.has h = some true
      · exact SelfLoop.of_remove hloop.length hhit hstep
      · rw [exec_remove_of_misses hhit hstep]
        exact hloop

/-- On a self-loop the walk never reaches the end of the list. -/
theorem SelfLoop.not_sound {n : ℕ} {s : HandleSession F T} (hloop : s.SelfLoop n)
    (hn : n < F.maskIndex.toNat) : ¬ s.Sound := by
  intro hsound
  obtain ⟨slots, hvisits, -⟩ := hsound.walk
  have hend := hvisits.eq_of_fixed hloop.fixed
  have := hloop.start_lt
  rw [← hend] at this
  omega

/-! ### The runs for which the free list is sound -/

/-- The step relation of a client that only removes what it was given. -/
def KnownStep : HandleSession F T → HandleCall F → HandleSession F T → Prop :=
  Guarded (StepOf exec) Known

theorem filling_of_run {n : F.Handle} (hpos : 0 < n.toNat)
    (hn : n.toNat < F.maskIndex.toNat) {s₀ s : HandleSession F T}
    (hstart : start n = some s₀) {calls : List (HandleCall F)}
    (hrun : Run (Guarded KnownStep Misses) s₀ calls s) :
    ∃ k, s.Filling n.toNat k := by
  refine hrun.invariant (I := fun s => ∃ k, s.Filling n.toNat k) ?_
    ⟨0, Filling.of_start hpos hstart⟩
  rintro s call t ⟨k, hf⟩ ⟨hmiss, -, hstep⟩
  cases call with
  | create => exact hf.create hn hstep
  | remove h =>
      rw [exec_remove_of_misses hmiss hstep]
      exact ⟨k, hf⟩

/-- **The free list is sound exactly while no removal succeeds.**  For every
buffer of `1 ≤ n < MaskIndex` slots and every sequence of `create` and `remove`
calls with handles that were returned earlier, the state reached is sound if and
only if no `remove` of the sequence was called with a handle that `has`
accepted. -/
theorem sound_iff_misses {n : F.Handle} (hpos : 0 < n.toNat)
    (hn : n.toNat < F.maskIndex.toNat) {s₀ s : HandleSession F T}
    (hstart : start n = some s₀) {calls : List (HandleCall F)}
    (hrun : Run KnownStep s₀ calls s) :
    s.Sound ↔ Run (Guarded KnownStep Misses) s₀ calls s := by
  constructor
  · intro hsound
    rcases hrun.guarded_or_exists Misses with
      hall | ⟨before, call, after, m, m', -, hbefore, hbad, ⟨-, hstep⟩, hafter⟩
    · exact hall
    · exfalso
      -- the first removal that hits leaves a self-loop, and nothing undoes it
      obtain ⟨k, hf⟩ := filling_of_run hpos hn hstart hbefore
      have hloop : m'.SelfLoop n.toNat := by
        cases call with
        | create => exact absurd trivial hbad
        | remove h => exact SelfLoop.of_remove hf.length (not_not.mp hbad) hstep
      have hlast : s.SelfLoop n.toNat :=
        hafter.invariant (fun _ _ _ hl hs => hl.step hs.2) hloop
      exact hlast.not_sound hn hsound
  · intro hmisses
    obtain ⟨k, hf⟩ := filling_of_run hpos hn hstart hmisses
    exact sound_of_walk (by rw [hf.length]; exact hn) (hf.walk hn)

/-- Two creations on two slots: the hypotheses are met, and the buffer is full. -/
theorem sound_iff_misses_two_creates :
    ∃ s₀ s : HandleSession default32 Unit, start 2#32 = some s₀ ∧
      Run KnownStep s₀ [.create, .create] s ∧ s.Sound := by
  have hrun : ∃ s₀ s : HandleSession default32 Unit, start 2#32 = some s₀ ∧
      Run (Guarded KnownStep Misses) s₀ [.create, .create] s :=
    ⟨_, _, rfl, Run.cons ⟨trivial, trivial, rfl⟩
      (Run.cons ⟨trivial, trivial, rfl⟩ (Run.nil _))⟩
  obtain ⟨s₀, s, hstart, hguarded⟩ := hrun
  exact ⟨s₀, s, hstart, hguarded.of_guarded,
    (sound_iff_misses (by decide) (by decide) hstart hguarded.of_guarded).mpr hguarded⟩

/-- One slot, created, removed and created again: the next `create` hands the
occupied slot out a second time. -/
theorem not_sound_after_remove :
    ∃ s₀ s : HandleSession default32 Unit, start 1#32 = some s₀ ∧
      Run KnownStep s₀ [.create, .remove 0#32, .create] s ∧
      (∃ h b, s.buffer.create = some (h, b) ∧ h ≠ invalidHandle default32 ∧
        s.Occupied (index default32 h)) ∧ ¬ s.Sound := by
  have hrun : ∃ s₀ s : HandleSession default32 Unit, start 1#32 = some s₀ ∧
      Run KnownStep s₀ [.create, .remove 0#32, .create] s ∧
      ∃ h b, s.buffer.create = some (h, b) ∧ h ≠ invalidHandle default32 ∧
        s.Occupied (index default32 h) := by
    refine ⟨_, _, rfl, Run.cons ⟨trivial, rfl⟩ (Run.cons ⟨List.mem_cons_self, rfl⟩
      (Run.cons ⟨trivial, rfl⟩ (Run.nil _))), 0x01000000#32, _, rfl, by decide,
      0x01000000#32, List.mem_cons_self, rfl⟩
  obtain ⟨s₀, s, hstart, hcalls, h, b, hcreate, hvalid, hoccupied⟩ := hrun
  exact ⟨s₀, s, hstart, hcalls, ⟨h, b, hcreate, hvalid, hoccupied⟩,
    fun hsound => hsound.fresh h b hcreate hvalid hoccupied⟩

end HandleSession

end Tklb
