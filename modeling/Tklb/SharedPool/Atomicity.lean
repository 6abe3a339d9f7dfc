import Tklb.SharedPool.Simulation

/-!
# The calls of a shared pool are atomic

Every step of a thread is matched by the atomic call with which it takes effect, or by none
(`Simulates.step`): the steps of the lock and the accesses that prepare a call leave the pool of
the single thread alone, and `counting`, `unmarking`, `resizing` and `resting` make the call.  So
every run of the threads is a run of a single thread (`run_atomic`).

The code does not see to it that nobody is at the headers when `reallocate` cuts a block.  In a run
without this condition the same bytes are handed out twice (`not_apart_half_cut`).

### Main results

* `Simulates.step` — one atomic step of one thread, in any state that simulates.
* `run_atomic` — every run of any number of threads, in any interleaving that meets the
  condition, has the same effect as its atomic calls in the order in which they take effect.
* `not_apart_half_cut` — without the condition this is wrong.

With `run_atomic` what is known about the pool of a single thread is known about a shared one,
wherever `Agrees` says that both hold the same.
-/

namespace Tklb

open Foundation FixedPool

namespace SharedPool

variable {A : Target} {ι : Type} [DecidableEq ι] {s s' : SharedPool A ι} {S : PoolSession A}
  {L : List Block} {i : ι} {t : PoolThread} {frame : Option (ℕ × ℕ)}

/-- The shared pool has gone on to `s'`, and the pool of a single thread with it. -/
def Matched (effect : Option AtomicCall) (s' : SharedPool A ι) (S : PoolSession A) : Prop :=
  ∃ S' L', Run PoolSession.AtomicStep S effect.toList S' ∧
    S'.pool.poolSize = S.pool.poolSize ∧ Simulates s' S' L'

omit [DecidableEq ι] in
theorem Matched.none (h : Simulates s' S L) : Matched none s' S := ⟨S, L, Run.nil S, rfl, h⟩

omit [DecidableEq ι] in
theorem Matched.some {c : AtomicCall} {S' : PoolSession A} {L' : List Block}
    (hstep : S.AtomicStep c S') (hsize : S'.pool.poolSize = S.pool.poolSize)
    (h : Simulates s' S' L') : Matched (some c) s' S :=
  ⟨S', L', Run.cons hstep (Run.nil S'), hsize, h⟩

/-! ### The steps of the lock -/

/-- A thread leaves `allocate` to its caller, or to the copy of `reallocate`. -/
theorem afterAllocate_eq (result : Option ℕ) (frame : Option (ℕ × ℕ)) :
    afterAllocate result frame = ⟨.outside, none⟩ ∨
      ∃ newPtr, afterAllocate result frame = ⟨.copying newPtr 0, frame⟩ := by
  cases result with
  | none => exact Or.inl rfl
  | some newPtr =>
      cases frame with
      | none => exact Or.inl rfl
      | some x => exact Or.inr ⟨newPtr, rfl⟩

/-- A step of the lock is one of `SpinLock`, and leaves the pool alone. -/
theorem onMutex_eq_some {a : LockStep} (h : s.onMutex i a t = some s') :
    ∃ mutex, SpinLock.Step s.mutex (i, a) mutex ∧
      s' = ⟨s.pool, mutex, Function.update s.thread i t, s.live⟩ := by
  obtain ⟨mutex, hmutex, rfl⟩ := Option.map_eq_some_iff.mp h
  exact ⟨mutex, hmutex, rfl⟩

namespace Simulates

/-- A thread that is not at the headers takes a step of the lock and does not get there. -/
theorem onMutex_aside (h : Simulates s S L) {a : LockStep}
    (hstep : s.onMutex i a t = some s') (ha : a ≠ .store)
    (hbefore : (s.thread i).phase.Busy = false) (hafter : t.phase.Busy = false)
    (hknow : Knows A L t)
    (hframe : ∀ ptr oldSize, t.frame = some (ptr, oldSize) → HasLength A L ptr oldSize)
    (huses : ∀ ptr, t.uses = some ptr →
      (∃ r, (ptr, r) ∈ s.live) ∧ ∀ j, j ≠ i → (s.thread j).uses ≠ some ptr) :
    Simulates s' S L := by
  obtain ⟨mutex, hmutex, rfl⟩ := onMutex_eq_some hstep
  exact h.aside (h.sound.step_of_ne hmutex ha)
    (fun j hne => (SpinLock.inside_iff_of_ne hmutex hne).mpr) hbefore hafter hknow hframe huses

omit [DecidableEq ι] in
/-- A pointer that is in no call may be used. -/
theorem uses_of_owned {ptr r : ℕ} (howned : s.Owned ptr r) (huses : t.uses = some ptr) :
    ∀ own, t.uses = some own →
      (∃ r, (own, r) ∈ s.live) ∧ ∀ j, j ≠ i → (s.thread j).uses ≠ some own := by
  intro own hown
  obtain rfl := Option.some.inj (huses.symm.trans hown)
  exact ⟨⟨r, howned.1⟩, fun j _ => howned.2 j⟩

/-- **The call.**  A thread that enters a call has written nothing yet; only `allocate(0)` is over
at once, and that is an atomic call of its own. -/
theorem call (h : Simulates s S L) {request : PoolRequest}
    (hdisciplined : s.Disciplined (i, .call request)) (hphase : (s.thread i).phase = .outside)
    (hstep : s.enter i request = some s') : Matched (s.effect (i, .call request)) s' S := by
  have hbefore : (s.thread i).phase.Busy = false := by rw [hphase]; rfl
  cases request with
  | allocate n =>
      cases n with
      | zero =>
          obtain rfl := Option.some.inj hstep
          exact .some (.call (.allocate_null rfl)) rfl h
      | succ n =>
          rw [enter, if_neg n.succ_ne_zero] at hstep
          exact .none (h.onMutex_aside hstep (by decide) hbefore rfl ⟨n.succ_pos, hdisciplined⟩
            no_frame (fun _ h => by cases h))
  | deallocate ptr =>
      obtain ⟨r, howned⟩ := hdisciplined
      have hlock : s.onMutex i .lock ⟨.freeing ptr, none⟩ = some s' := hstep
      exact .none (h.onMutex_aside hlock (by decide) hbefore rfl rfl no_frame
        (uses_of_owned howned rfl))
  | reallocate ptr n =>
      obtain ⟨⟨r, howned⟩, hn⟩ := hdisciplined
      obtain rfl := Option.some.inj hstep
      exact .none (h.aside h.sound (fun _ _ => id) hbefore rfl ⟨rfl, hn⟩ no_frame
        (uses_of_owned howned rfl))

/-- A step of the lock that is not one of the pool. -/
theorem load (h : Simulates s S L) (hstep : s.onMutex i .load (s.thread i) = some s') :
    Simulates s' S L := by
  obtain ⟨mutex, hmutex, rfl⟩ := onMutex_eq_some hstep
  have hinside : ∀ j, s.mutex.Inside j → mutex.Inside j := by
    intro j hj
    by_cases hne : j = i
    · rw [hne] at hj ⊢
      rwa [SpinLock.Inside, SpinLock.held_of_step hmutex (by decide) (by decide)]
    · exact (SpinLock.inside_iff_of_ne hmutex hne).mpr hj
  rw [Function.update_eq_self]
  exact { h with
    sound := h.sound.step_of_ne hmutex (by decide)
    locked := fun j hj => hinside j (h.locked j hj) }

/-- **The claim.**  The lock is free and no block is half cut, so the bytes are those of the pool of
the single thread, and the thread that claims is the only one at the headers from now on. -/
theorem claim (h : Simulates s S L) (hflag : s.mutex.mSpinLock = false)
    (hcuts : ∀ j, (s.thread j).phase.Cuts = false) (hstep : s.exec (i, .store) = some s') :
    Simulates s' S L := by
  have hquiet := h.not_busy hflag hcuts
  have hpool := h.quiet hquiet
  have hknows := h.knows i
  have hframed := h.framed i
  have huses := h.keeps_uses (i := i) (t := s.thread i) fun _ => id
  have hmatch := hstep
  simp only [exec] at hmatch
  split at hmatch
  · rename_i n hphase
    obtain ⟨mutex, hmutex, rfl⟩ := onMutex_eq_some hmatch
    rw [Knows, hphase] at hknows
    refine h.work (fun j _ => hquiet j) (h.sound.step (fun _ => hflag) hmutex)
      (fun j hne => (SpinLock.inside_iff_of_ne hmutex hne).mpr)
      (fun _ => SpinLock.inside_of_store hmutex) hpool
      ⟨hknows, [], L, rfl, rfl, fun _ he => by cases he⟩ hframed fun ptr hptr => ?_
    rw [PoolThread.uses, hphase]
    exact hptr
  · rename_i ptr hphase
    obtain ⟨mutex, hmutex, rfl⟩ := onMutex_eq_some hmatch
    refine h.work (fun j _ => hquiet j) (h.sound.step (fun _ => hflag) hmutex)
      (fun j hne => (SpinLock.inside_iff_of_ne hmutex hne).mpr)
      (fun _ => SpinLock.inside_of_store hmutex) hpool rfl no_frame fun own hown => ?_
    rw [PoolThread.uses, hphase]
    exact hown
  · cases hmatch

/-- **The release.**  What the thread has done is done, so the bytes are those of the pool of the
single thread again. -/
theorem release (h : Simulates s S L) (hstep : s.exec (i, .unlock) = some s') :
    Simulates s' S L := by
  have hframed := h.framed i
  simp only [exec] at hstep
  split at hstep
  · rename_i result hphase
    obtain ⟨mutex, hmutex, rfl⟩ := onMutex_eq_some hstep
    have hbusy : (s.thread i).phase.Busy = true := by rw [hphase]; rfl
    have hpool : s.pool = S.pool := by
      rw [h.busy i hbusy, midway, pending, hphase]
      rfl
    have hinside : ∀ j, j ≠ i → s.mutex.Inside j → mutex.Inside j := fun j hne =>
      (SpinLock.inside_iff_of_ne hmutex hne).mpr
    have hsound := h.sound.step_of_ne hmutex (by decide)
    rcases afterAllocate_eq result (s.thread i).frame with hout | ⟨newPtr, hcopy⟩
    · rw [hout]
      exact h.work (h.others hbusy) hsound hinside (fun h => by cases h) hpool trivial no_frame
        outside_uses
    · rw [hcopy]
      refine h.work (h.others hbusy) hsound hinside (fun h => by cases h) hpool trivial hframed
        fun ptr hptr => ?_
      rw [PoolThread.uses, hphase]
      exact hptr
  · rename_i hphase
    obtain ⟨mutex, hmutex, rfl⟩ := onMutex_eq_some hstep
    have hbusy : (s.thread i).phase.Busy = true := by rw [hphase]; rfl
    have hpool : s.pool = S.pool := by
      rw [h.busy i hbusy, midway, pending, hphase]
      rfl
    exact h.work (h.others hbusy) (h.sound.step_of_ne hmutex (by decide))
      (fun j hne => (SpinLock.inside_iff_of_ne hmutex hne).mpr) (fun h => by cases h) hpool trivial
      no_frame outside_uses
  · cases hstep

end Simulates

/-! ### The steps of `allocate` -/

theorem goto_eq {phase phase' : PoolPhase} (ht : s.thread i = ⟨phase, frame⟩) :
    s.goto i phase' =
      ⟨s.pool, s.mutex, Function.update s.thread i ⟨phase', frame⟩, s.live⟩ := by
  rw [goto, ht]
  rfl

namespace Simulates

/-- A thread that is at the headers goes on with its call. -/
theorem goOn {P : FixedPool A} {t' : PoolThread} (h : Simulates s S L) (ht : s.thread i = t)
    (hbusy : t.phase.Busy = true) (hlocked : t'.phase.Locked = true → t.phase.Locked = true)
    (hpool : P = midway S.pool t') (hknow : Knows A L t') (hframe : t'.frame = t.frame)
    (huses : t'.uses = t.uses) :
    Simulates ⟨P, s.mutex, Function.update s.thread i t', s.live⟩ S L := by
  subst ht
  refine h.work (h.others hbusy) h.sound (fun _ _ => id) (fun hphase => h.locked i (hlocked hphase))
    hpool hknow (fun ptr oldSize hptr => h.framed i ptr oldSize (hframe ▸ hptr)) fun ptr hptr => ?_
  rw [← huses]
  exact hptr

/-- `i < poolSize` and `block.size`. -/
theorem scanning {n j : ℕ} (h : Simulates s S L) (ht : s.thread i = ⟨.scanning n j, frame⟩)
    (hstep : s.allocateStep i (.scanning n j) = some s') : Matched (s.advanceEffect i) s' S := by
  have hpool := h.pool_of_unwritten ht rfl rfl
  obtain ⟨hn, hsearched⟩ : Requested A n ∧ Searched L (realAllocation A n) j := by
    have hknow := h.knows i
    rwa [ht] at hknow
  have hintact := h.tiled.intact
  simp only [allocateStep, goto_eq ht, hpool] at hstep
  simp only [advanceEffect, ht, hpool]
  by_cases hend : j < S.pool.poolSize
  · rw [if_pos hend] at hstep ⊢
    obtain ⟨L₁, ⟨len, tag⟩, L₂, rfl, rfl, hshort⟩ := hsearched.block hintact hend
    have hlarge := hintact.block_wellSized.large
    have hin := hintact.block_le
    have hlt := hintact.poolSize_lt
    dsimp only at hlarge hin
    cases tag with
    | none =>
        rw [if_pos (sizeAt_of_free hintact.block_header).1] at hstep
        obtain rfl := Option.some.inj hstep
        exact .none (h.goOn ht rfl id rfl ⟨hn, len, L₁, L₂, rfl, rfl, hshort⟩ rfl rfl)
    | some r =>
        have hused := sizeAt_of_used hintact.block_header
        rw [hused, if_neg (by omega), wrap_of_lt (by omega)] at hstep
        obtain rfl := Option.some.inj hstep
        refine .none (h.goOn ht rfl id rfl ⟨hn, L₁ ++ [⟨len, some r⟩], L₂, by simp, by simp, ?_⟩
          rfl rfl)
        intro e he hfree
        rcases List.mem_append.mp he with he | he
        · exact hshort e he hfree
        · obtain rfl := List.mem_singleton.mp he
          cases hfree
  · -- no memory left
    rw [if_neg hend] at hstep ⊢
    obtain rfl := Option.some.inj hstep
    have hscan := hsearched.scan hintact (not_lt.mp hend)
    exact .some (.call (.allocate_null (Intact.allocate_of_none hn.1 hscan))) rfl
      (h.goOn ht rfl id rfl trivial rfl rfl)

/-- `block.space`. -/
theorem measuring {n j : ℕ} (h : Simulates s S L) (ht : s.thread i = ⟨.measuring n j, frame⟩)
    (hstep : s.allocateStep i (.measuring n j) = some s') : Matched (s.advanceEffect i) s' S := by
  have hpool := h.pool_of_unwritten ht rfl rfl
  obtain ⟨hn, len, hfound⟩ :
      Requested A n ∧ ∃ len, Found L (realAllocation A n) j len := by
    have hknow := h.knows i
    rwa [ht] at hknow
  obtain ⟨L₁, L₂, rfl, rfl, hshort⟩ := hfound
  have hintact := h.tiled.intact
  obtain ⟨-, hspace⟩ := sizeAt_of_free hintact.block_header
  have hlarge := hintact.block_wellSized.large
  have hin := hintact.block_le
  have hlt := hintact.poolSize_lt
  dsimp only at hlarge hin
  have hfound : Found (L₁ ++ ⟨len, none⟩ :: L₂) (realAllocation A n) (total L₁) len :=
    ⟨L₁, L₂, rfl, rfl, hshort⟩
  simp only [allocateStep, goto_eq ht, hpool, hspace, hn.no_wrap] at hstep
  have heffect : s.advanceEffect i = none := by
    simp only [advanceEffect, ht, hpool, hspace]
    exact if_neg (by omega)
  rw [heffect]
  by_cases hfits : realAllocation A n ≤ len
  · rw [if_pos hfits] at hstep
    by_cases hwhole : len ≤ realAllocation A n + A.ptrBytes
    · rw [if_pos hwhole] at hstep
      obtain rfl := Option.some.inj hstep
      refine .none (h.goOn ht rfl id ?_ ⟨hn, hfound, hfits⟩ rfl rfl)
      simp only [midway, pending, hn.split_of_le hwhole]
      rfl
    · rw [if_neg hwhole] at hstep
      obtain rfl := Option.some.inj hstep
      exact .none (h.goOn ht rfl id rfl ⟨hn, hfound, not_le.mp hwhole⟩ rfl rfl)
  · rw [if_neg hfits, if_neg (by omega), wrap_of_lt (by omega)] at hstep
    obtain rfl := Option.some.inj hstep
    refine .none (h.goOn ht rfl id rfl ⟨hn, L₁ ++ [⟨len, none⟩], L₂, by simp, by simp, ?_⟩ rfl rfl)
    intro e he hfree
    rcases List.mem_append.mp he with he | he
    · exact hshort e he hfree
    · obtain rfl := List.mem_singleton.mp he
      exact not_le.mp hfits

/-- The header of the rest. -/
theorem splitting {n j oldSize : ℕ} (h : Simulates s S L)
    (ht : s.thread i = ⟨.splitting n j oldSize, frame⟩)
    (hstep : s.allocateStep i (.splitting n j oldSize) = some s') :
    Matched (s.advanceEffect i) s' S := by
  have hpool := h.pool_of_unwritten ht rfl rfl
  have hknow := h.knows i
  rw [ht] at hknow
  have heffect : s.advanceEffect i = none := by simp only [advanceEffect, ht]
  rw [heffect]
  rw [allocateStep, goto_eq (s := s.writeWord _ _) ht] at hstep
  obtain rfl := Option.some.inj hstep
  refine .none (h.goOn ht rfl id ?_ hknow rfl rfl)
  rw [writeWord, hpool]
  rfl

theorem spacing {n j oldSize : ℕ} (h : Simulates s S L)
    (ht : s.thread i = ⟨.spacing n j oldSize, frame⟩)
    (hstep : s.allocateStep i (.spacing n j oldSize) = some s') :
    Matched (s.advanceEffect i) s' S := by
  have hpool := h.busy i (by rw [ht]; rfl)
  obtain ⟨hn, hfound, hrest⟩ : Requested A n ∧ Found L (realAllocation A n) j oldSize ∧
      realAllocation A n + A.ptrBytes < oldSize := by
    have hknow := h.knows i
    rwa [ht] at hknow
  have heffect : s.advanceEffect i = none := by simp only [advanceEffect, ht]
  rw [heffect]
  rw [allocateStep, goto_eq (s := s.writeWord _ _) ht] at hstep
  obtain rfl := Option.some.inj hstep
  refine .none (h.goOn ht rfl id ?_ ⟨hn, hfound, by omega⟩ rfl rfl)
  simp only [midway, pending, hn.split_of_lt hrest, writeWord, hpool, ht]
  rfl

/-- `block.size`. -/
theorem marking {n j oldSize : ℕ} (h : Simulates s S L)
    (ht : s.thread i = ⟨.marking n j oldSize, frame⟩)
    (hstep : s.allocateStep i (.marking n j oldSize) = some s') :
    Matched (s.advanceEffect i) s' S := by
  have hpool := h.busy i (by rw [ht]; rfl)
  have hknow := h.knows i
  rw [ht] at hknow
  have heffect : s.advanceEffect i = none := by simp only [advanceEffect, ht]
  rw [heffect]
  rw [allocateStep, goto_eq (s := s.writeWord _ _) ht] at hstep
  obtain rfl := Option.some.inj hstep
  refine .none (h.goOn ht rfl id ?_ hknow rfl rfl)
  rw [midway, pending, ByteMemory.writeAll_append_one, writeWord, hpool, ht]
  rfl

/-- **`allocate` takes effect** when it counts the block.  Before that the block is marked but not
counted, which nobody can see who does not hold the lock; with the count the words that were pending
become those of the call. -/
theorem counting {n j oldSize : ℕ} (h : Simulates s S L)
    (ht : s.thread i = ⟨.counting n j oldSize, frame⟩)
    (hstep : s.allocateStep i (.counting n j oldSize) = some s') :
    Matched (s.advanceEffect i) s' S := by
  have hbusy : (s.thread i).phase.Busy = true := by rw [ht]; rfl
  have hpool := h.busy i hbusy
  obtain ⟨hn, hfound, hle⟩ : Requested A n ∧ Found L (realAllocation A n) j oldSize ∧
      realAllocation A n ≤ oldSize := by
    have hknow := h.knows i
    rwa [ht] at hknow
  have hintact := h.tiled.intact
  have hcall := Intact.allocate_of_some hn.1 (hfound.scan hintact hle)
  have heffect : s.advanceEffect i = some (.call (.allocate n)) := by
    simp only [advanceEffect, ht]
  rw [heffect]
  simp only [allocateStep, goto, setThread, handOut, ht] at hstep
  obtain rfl := Option.some.inj hstep
  obtain ⟨L₁, L₂, rfl, rfl, -⟩ := hfound
  obtain ⟨hdvd, hlarge, hfits, hlt⟩ := realAllocation_spec hn.1 hn.2
  obtain ⟨hintact', hsize, -⟩ := hintact.take hdvd hlarge hfits hlt hle
  have htotal := total_taken (A := A) hle n
  refine .some (.call (.allocate hcall)) hsize (h.commit (h.others hbusy) ⟨hintact', ?_⟩ ?_
    h.sound (fun _ _ => id) (fun _ => h.locked i (by rw [ht]; rfl)) ?_ trivial
    (fun j hne ptr len hptr => ?_) (fun ptr len hptr => ?_) (fun j hne ptr hptr => ?_)
    fun ptr hptr => ?_)
  · rw [payloads_replace htotal, payloads_taken]
    have hlive := h.tiled.live
    rw [payloads_split] at hlive
    refine (hlive.cons _).trans (List.Perm.symm ?_)
    simp
  · rw [h.live]
  · have hspace := (sizeAt_of_free hintact.block_header).2
    simp only [hpool, ht, midway, pending, ByteMemory.writeAll_append_one, chosen,
      FixedPool.take, hspace, hn.no_wrap]
    by_cases hwhole : oldSize ≤ realAllocation A n + A.ptrBytes
    · rw [hn.split_of_le hwhole, if_pos hwhole, if_pos hwhole]
      rfl
    · rw [hn.split_of_lt (not_le.mp hwhole), if_neg hwhole, if_neg hwhole]
      rfl
  · exact (h.framed j ptr len hptr).replace htotal (Or.inl rfl)
  · exact (h.framed i ptr len (by rw [ht]; exact hptr)).replace htotal (Or.inl rfl)
  · obtain ⟨r, hlive⟩ := h.used j ptr hptr
    exact ⟨r, List.mem_cons_of_mem _ hlive⟩
  · obtain ⟨⟨r, hlive⟩, hothers⟩ := h.keeps_uses (i := i) (t := s.thread i) (fun _ => id) ptr
      (by rw [ht]; exact hptr)
    exact ⟨⟨r, List.mem_cons_of_mem _ hlive⟩, hothers⟩

/-! ### The steps of `deallocate` -/

/-- `block.space`. -/
theorem releasing {ptr : ℕ} (h : Simulates s S L) (ht : s.thread i = ⟨.releasing ptr, frame⟩)
    (hstep : s.deallocateStep i (.releasing ptr) = some s') : Matched (s.advanceEffect i) s' S := by
  have hpool := h.pool_of_unwritten ht rfl rfl
  have hknow := h.knows i
  rw [ht] at hknow
  have heffect : s.advanceEffect i = none := by simp only [advanceEffect, ht]
  rw [heffect]
  simp only [deallocateStep, goto, setThread, writeWord, ht, hpool] at hstep
  obtain rfl := Option.some.inj hstep
  exact .none (h.goOn ht rfl id rfl hknow rfl rfl)

/-- `allocatedSpace`. -/
theorem discounting {ptr : ℕ} (h : Simulates s S L)
    (ht : s.thread i = ⟨.discounting ptr, frame⟩)
    (hstep : s.deallocateStep i (.discounting ptr) = some s') :
    Matched (s.advanceEffect i) s' S := by
  have hpool := h.busy i (by rw [ht]; rfl)
  have hknow := h.knows i
  rw [ht] at hpool hknow
  have hsize : s.pool.sizeAt (ptr - A.ptrBytes) = S.pool.sizeAt (ptr - A.ptrBytes) := by
    rw [hpool]
    exact ByteMemory.read_write_of_disjoint (by omega)
  have heffect : s.advanceEffect i = none := by simp only [advanceEffect, ht]
  rw [heffect]
  simp only [deallocateStep, goto, setThread, ht, hsize] at hstep
  obtain rfl := Option.some.inj hstep
  refine .none (h.goOn ht rfl id ?_ hknow rfl rfl)
  rw [hpool]
  rfl

/-- **`deallocate` takes effect** when it marks the block free.  The length has been written behind
it and the count is lower already; with this write the block is free, and the pointer is taken back.
-/
theorem unmarking {ptr : ℕ} (h : Simulates s S L) (ht : s.thread i = ⟨.unmarking ptr, frame⟩)
    (hstep : s.deallocateStep i (.unmarking ptr) = some s') : Matched (s.advanceEffect i) s' S := by
  have hbusy : (s.thread i).phase.Busy = true := by rw [ht]; rfl
  have hpool := h.busy i hbusy
  have hnone : frame = none := by
    have hknow := h.knows i
    rwa [ht] at hknow
  have huses : (s.thread i).uses = some ptr := by rw [ht]; rfl
  have heffect : s.advanceEffect i = some (.call (.deallocate ptr)) := by
    simp only [advanceEffect, ht]
  rw [ht] at hpool
  rw [heffect]
  simp only [deallocateStep, goto, setThread, takeBack, writeWord, ht] at hstep
  obtain rfl := Option.some.inj hstep
  subst hnone
  obtain ⟨r, hlive⟩ := h.used i ptr huses
  have hlive' : (ptr, r) ∈ S.live := by rwa [h.live]
  obtain ⟨L₁, len, L₂, rfl, rfl⟩ := mem_payloads (h.tiled.live.mem_iff.mp hlive')
  rw [Nat.zero_add] at *
  obtain ⟨hintact, -, -⟩ := h.tiled.intact.deallocate
  have htotal : total [(⟨len, none⟩ : Block)] = len := by simp
  refine .some (.call (.deallocate hlive')) rfl (h.commit (h.others hbusy) ⟨hintact, ?_⟩
    (h.takeBack_live hlive) h.sound (fun _ _ => id) (fun _ => h.locked i (by rw [ht]; rfl)) ?_
    trivial (h.others_framed huses htotal) no_frame (h.others_used huses) (fun _ h => by cases h))
  · exact (h.tiled.live.erase _).trans (payloads_replace_used htotal).symm
  · rw [hpool]
    rfl

/-! ### The steps of `reallocate` -/

/-- `block.size`, and what follows from it. -/
theorem resizing {ptr n : ℕ} (h : Simulates s S L) (ht : s.thread i = ⟨.resizing ptr n, frame⟩)
    (hstep : s.reallocateStep i (.resizing ptr n) frame = some s') :
    Matched (s.advanceEffect i) s' S := by
  have hbefore : (s.thread i).phase.Busy = false := by rw [ht]; rfl
  have huses : (s.thread i).uses = some ptr := by rw [ht]; rfl
  obtain ⟨-, hn⟩ : frame = none ∧ n + 3 * A.ptrBytes < 2 ^ A.bits := by
    have hknow := h.knows i
    rwa [ht] at hknow
  obtain ⟨r, hlive⟩ := h.used i ptr huses
  obtain ⟨len, hlen, hsize, hfits, hlarge⟩ := h.hasLength hlive
  -- nobody at the headers writes to the header of the block
  have hread : s.pool.sizeAt (ptr - A.ptrBytes) = len := by
    rw [← hsize]
    exact ((h.agreeOn hlen (h.not_uses_of_busy hbefore huses)).mono le_rfl (by omega)).read
  obtain ⟨-, -, hroom, hupper⟩ := reallocSize_spec hn
  have hnowrap : wrap A.bits (reallocSize A n + A.ptrBytes) = reallocSize A n + A.ptrBytes :=
    wrap_of_lt (by omega)
  have hframe : ∀ own oldSize, some (ptr, len) = some (own, oldSize) →
      HasLength A L own oldSize := by
    rintro _ _ ⟨⟩
    exact hlen
  simp only [reallocateStep, hread, hnowrap] at hstep
  simp only [advanceEffect, ht, hread, hnowrap]
  by_cases hle : reallocSize A n ≤ len
  · rw [if_pos hle] at hstep
    by_cases hkeep : len ≤ reallocSize A n + A.ptrBytes
    · -- the block stays as it is
      rw [if_pos hkeep] at hstep
      rw [if_pos ⟨hle, hkeep⟩]
      obtain rfl := Option.some.inj hstep
      have hlive' : (ptr, r) ∈ S.live := by rwa [h.live]
      obtain ⟨L₁, blockLen, L₂, rfl, rfl⟩ := mem_payloads (h.tiled.live.mem_iff.mp hlive')
      have hblock := sizeAt_of_used h.tiled.intact.block_header
      rw [Nat.zero_add] at *
      rw [Nat.add_sub_cancel, hblock] at hsize
      subst hsize
      have hcall : S.pool.reallocate (some (total L₁ + A.ptrBytes)) n =
          some (some (total L₁ + A.ptrBytes), S.pool) := by
        simp only [reallocate, Nat.add_sub_cancel, hblock, hnowrap, if_pos hle, if_pos hkeep]
      refine .some (.call (.reallocate hlive' hcall)) rfl
        (h.next ⟨h.tiled.intact.retag (n := n) (by omega), ?_⟩ ?_ h.sound (fun _ _ => id)
          (fun h => by cases h) (fun h => by cases h) (fun j _ => h.busy j)
          (fun _ hall => h.quiet fun j => ?_)
          (fun j _ => (h.knows j).congr retag_shape) trivial
          (fun j _ own oldSize hown => (h.framed j own oldSize hown).congr retag_shape) no_frame
          (fun j hne own hown => ?_) outside_uses)
      · have htotal : total [(⟨blockLen, some n⟩ : Block)] = blockLen := by simp
        exact ((h.tiled.live.erase _).cons _).trans (payloads_replace_used htotal).symm
      · rw [h.takeBack_live hlive]
        rfl
      · by_cases hne : j = i
        · rwa [hne]
        · exact hall j hne
      · obtain ⟨r', hother⟩ := h.others_used huses j hne own hown
        exact ⟨r', List.mem_cons_of_mem _ hother⟩
    · rw [if_neg hkeep] at hstep
      rw [if_neg fun hboth => hkeep hboth.2]
      obtain rfl := Option.some.inj hstep
      exact .none (h.aside h.sound (fun _ _ => id) hbefore rfl
        ⟨hn, ptr, len, rfl, not_le.mp hkeep⟩ hframe (h.keeps_used huses rfl))
  · rw [if_neg hle] at hstep
    rw [if_neg fun hboth => hle hboth.1]
    by_cases hzero : n = 0
    · rw [if_pos hzero] at hstep
      obtain rfl := Option.some.inj hstep
      exact .none (h.aside h.sound (fun _ _ => id) hbefore rfl trivial no_frame outside_uses)
    · rw [if_neg hzero] at hstep
      exact .none (h.onMutex_aside hstep (by decide) hbefore rfl ⟨Nat.pos_of_ne_zero hzero, hn.le⟩
        hframe (h.keeps_used huses rfl))

/-- `block.size`, when nobody is at the headers. -/
theorem shrinking {n : ℕ} (h : Simulates s S L) (ht : s.thread i = ⟨.shrinking n, frame⟩)
    (hquiet : ∀ j, (s.thread j).phase.Busy = false)
    (hstep : s.reallocateStep i (.shrinking n) frame = some s') :
    Matched (s.advanceEffect i) s' S := by
  have hknow := h.knows i
  rw [ht] at hknow
  obtain ⟨hn, ptr, oldSize, rfl, hrest⟩ := hknow
  have huses : (s.thread i).uses = some ptr := by rw [ht]; rfl
  have heffect : s.advanceEffect i = none := by simp only [advanceEffect, ht]
  rw [heffect]
  simp only [reallocateStep, goto, setThread, writeWord, ht, h.quiet hquiet] at hstep
  obtain rfl := Option.some.inj hstep
  exact .none (h.work (fun j _ => hquiet j) h.sound (fun _ _ => id) (fun h => by cases h) rfl
    ⟨hn, ptr, oldSize, rfl, hrest⟩ (fun own len hown => h.framed i own len (by rw [ht]; exact hown))
    fun own hown => by rw [huses]; exact hown)

/-- The header of the rest. -/
theorem cutting {n : ℕ} (h : Simulates s S L) (ht : s.thread i = ⟨.cutting n, frame⟩)
    (hstep : s.reallocateStep i (.cutting n) frame = some s') :
    Matched (s.advanceEffect i) s' S := by
  have hpool := h.busy i (by rw [ht]; rfl)
  have hknow := h.knows i
  rw [ht] at hpool hknow
  obtain ⟨hn, ptr, oldSize, rfl, hrest⟩ := hknow
  have heffect : s.advanceEffect i = none := by simp only [advanceEffect, ht]
  rw [heffect]
  simp only [reallocateStep, goto, setThread, writeWord, ht, hpool] at hstep
  obtain rfl := Option.some.inj hstep
  exact .none (h.goOn ht rfl (fun h => by cases h) rfl ⟨hn, ptr, oldSize, rfl, hrest⟩ rfl rfl)

/-- **`reallocate` takes effect** when it has written the last word of the rest. -/
theorem resting {n : ℕ} (h : Simulates s S L) (ht : s.thread i = ⟨.resting n, frame⟩)
    (hstep : s.reallocateStep i (.resting n) frame = some s') :
    Matched (s.advanceEffect i) s' S := by
  have hbusy : (s.thread i).phase.Busy = true := by rw [ht]; rfl
  have hpool := h.busy i hbusy
  have hknow := h.knows i
  have hframed := h.framed i
  rw [ht] at hpool hknow hframed
  obtain ⟨hn, ptr, oldSize, rfl, hrest⟩ := hknow
  have huses : (s.thread i).uses = some ptr := by rw [ht]; rfl
  have heffect : s.advanceEffect i = some (.call (.reallocate ptr n)) := by
    simp only [advanceEffect, ht]
  rw [heffect]
  simp only [reallocateStep, setThread, takeBack, handOut, writeWord] at hstep
  obtain rfl := Option.some.inj hstep
  obtain ⟨r, hlive⟩ := h.used i ptr huses
  have hlive' : (ptr, r) ∈ S.live := by rwa [h.live]
  have hsize := ((hframed ptr oldSize rfl).sizeAt h.tiled.intact)
  obtain ⟨L₁, len, L₂, rfl, rfl⟩ := mem_payloads (h.tiled.live.mem_iff.mp hlive')
  have hblock := sizeAt_of_used h.tiled.intact.block_header
  rw [Nat.zero_add] at *
  rw [Nat.add_sub_cancel, hblock] at hsize
  subst hsize
  obtain ⟨hdvd, hlarge, hfits, hupper⟩ := reallocSize_spec hn
  have hnowrap : wrap A.bits (reallocSize A n + A.ptrBytes) = reallocSize A n + A.ptrBytes :=
    wrap_of_lt (by omega)
  have hcall : S.pool.reallocate (some (total L₁ + A.ptrBytes)) n =
      some (some (total L₁ + A.ptrBytes), S.pool.shrink (total L₁) (reallocSize A n)) := by
    simp only [reallocate, Nat.add_sub_cancel, hblock, hnowrap]
    rw [if_pos (by omega), if_neg (by omega)]
  have htotal : total [(⟨reallocSize A n, some n⟩ : Block), ⟨len - reallocSize A n, none⟩] =
      len := by
    simp only [total_cons, total_nil]
    omega
  refine .some (.call (.reallocate hlive' hcall)) rfl (h.commit (h.others hbusy)
    ⟨h.tiled.intact.shrink hdvd hlarge (by omega) hrest, ?_⟩ ?_ h.sound (fun _ _ => id)
    (fun h => by cases h) ?_ trivial (h.others_framed huses htotal) no_frame
    (fun j hne own hown => ?_) outside_uses)
  · exact ((h.tiled.live.erase _).cons _).trans (payloads_replace_used htotal).symm
  · rw [h.takeBack_live hlive]
    rfl
  · rw [hpool, FixedPool.shrink]
    dsimp only
    rw [hblock, Nat.add_sub_cancel]
    simp only [midway, pending, Nat.add_sub_cancel]
    rfl
  · obtain ⟨r', hother⟩ := h.others_used huses j hne own hown
    exact ⟨r', List.mem_cons_of_mem _ hother⟩

/-- A byte of the copy, and the call of `deallocate` behind the last one. -/
theorem copying {newPtr k : ℕ} (h : Simulates s S L)
    (ht : s.thread i = ⟨.copying newPtr k, frame⟩)
    (hstep : s.reallocateStep i (.copying newPtr k) frame = some s') :
    Matched (s.advanceEffect i) s' S := by
  have hbefore : (s.thread i).phase.Busy = false := by rw [ht]; rfl
  have hframed := h.framed i
  rw [ht] at hframed
  obtain _ | ⟨ptr, oldSize⟩ := frame
  · cases hstep
  have hlen := hframed ptr oldSize rfl
  have huses : (s.thread i).uses = some ptr := by rw [ht]; rfl
  obtain ⟨r, hlive⟩ := h.used i ptr huses
  have hsize := hlen.sizeAt h.tiled.intact
  obtain ⟨hptr, hend⟩ := hlen.bounds h.tiled.intact
  have hbytes : wsub A.bits oldSize A.ptrBytes = oldSize - A.ptrBytes := by
    obtain ⟨len, -, hlen, -, hlarge⟩ := h.hasLength hlive
    have hlt := h.tiled.intact.poolSize_lt
    rw [hsize] at hlen
    exact wsub_of_le (by omega) (by omega)
  simp only [reallocateStep, hbytes] at hstep
  simp only [advanceEffect, ht, hbytes]
  by_cases hk : k < oldSize - A.ptrBytes
  · rw [if_pos hk] at hstep ⊢
    simp only [goto, setThread, ht] at hstep
    obtain rfl := Option.some.inj hstep
    have hstored := h.store (a := ptr + k) hlen (by omega) (by omega)
      (h.not_uses_of_busy hbefore huses) (s.pool.memory (newPtr + k))
    refine .some (.copy (h.live ▸ hlive) ?_) rfl (hstored.aside hstored.sound (fun _ _ => id)
      hbefore rfl trivial hframed (h.keeps_used huses rfl))
    rw [PoolSession.payloadEnd, hsize]
    omega
  · rw [if_neg hk] at hstep ⊢
    exact .none (h.onMutex_aside hstep (by decide) hbefore rfl rfl no_frame
      (h.keeps_used huses rfl))

/-- A byte that a thread stores to its own payload. -/
theorem write {ptr offset : ℕ} {byte : UInt8} (h : Simulates s S L)
    (hdisciplined : s.Disciplined (i, .write ptr offset byte))
    (hstep : s.exec (i, .write ptr offset byte) = some s') :
    Matched (s.effect (i, .write ptr offset byte)) s' S := by
  obtain ⟨r, ⟨hlive, hfree⟩, hin⟩ := hdisciplined
  obtain ⟨len, hlen, -, hfits, -⟩ := h.hasLength hlive
  obtain ⟨hptr, -⟩ := hlen.bounds h.tiled.intact
  simp only [exec, Option.ite_none_right_eq_some, Option.some.injEq] at hstep
  obtain ⟨-, rfl⟩ := hstep
  exact .some (.call (.store (h.live ▸ hlive) hin)) rfl
    (h.store hlen (by omega) (by omega) (fun j _ => hfree j) byte)

/-! ### Every step -/

/-- The next access of a call. -/
theorem advance (h : Simulates s S L) (hundisturbed : s.Undisturbed (i, .advance))
    (hstep : s.advance i = some s') : Matched (s.advanceEffect i) s' S := by
  cases ht : s.thread i with
  | mk phase frame =>
      simp only [SharedPool.advance, ht] at hstep
      cases phase with
      | scanning n j => exact h.scanning ht hstep
      | measuring n j => exact h.measuring ht hstep
      | splitting n j oldSize => exact h.splitting ht hstep
      | spacing n j oldSize => exact h.spacing ht hstep
      | marking n j oldSize => exact h.marking ht hstep
      | counting n j oldSize => exact h.counting ht hstep
      | releasing ptr => exact h.releasing ht hstep
      | discounting ptr => exact h.discounting ht hstep
      | unmarking ptr => exact h.unmarking ht hstep
      | resizing ptr n => exact h.resizing ht hstep
      | shrinking n => exact h.shrinking ht (hundisturbed n (by rw [ht])) hstep
      | cutting n => exact h.cutting ht hstep
      | resting n => exact h.resting ht hstep
      | copying newPtr k => exact h.copying ht hstep
      | _ => cases hstep

/-- **One step** of a thread is an atomic call, or none.  One case for each place where a thread can
be, and each is one of the lemmas above; the condition on the scheduling is used for the claim and
for the cut alone. -/
theorem step {l : ι × SharedStep} (h : Simulates s S L) (hstep : Guarded Step Orderly s l s') :
    Matched (s.effect l) s' S := by
  obtain ⟨i, a⟩ := l
  obtain ⟨⟨hdisciplined, hundisturbed⟩, hexec⟩ := hstep
  rw [Step, StepOf] at hexec
  cases a with
  | call request =>
      simp only [exec, Option.ite_none_right_eq_some] at hexec
      exact h.call hdisciplined hexec.1 hexec.2
  | load => exact .none (h.load hexec)
  | store => exact .none (h.claim hundisturbed.1 hundisturbed.2 hexec)
  | advance => exact h.advance hundisturbed hexec
  | unlock => exact .none (h.release hexec)
  | write ptr offset byte => exact h.write hdisciplined hexec

end Simulates

/-! ### Every run -/

/-- A thread waits for another one, and claims the lock when that one has cut a block. -/
def waiting : List (Bool × SharedStep) :=
  [(true, .call (.allocate 40)), (true, .load), (true, .store), (false, .call (.allocate 8)),
   (true, .advance), (true, .advance), (false, .load), (true, .advance), (true, .advance),
   (true, .advance), (true, .advance), (true, .unlock), (true, .call (.reallocate 8 8)),
   (true, .advance), (true, .advance), (false, .load), (true, .advance), (true, .advance),
   (false, .store), (false, .advance), (true, .write 8 7 255), (false, .advance),
   (false, .advance), (false, .advance), (false, .advance), (false, .unlock)]

/-- A thread claims the lock and allocates behind a block that is half cut. -/
def halfCut : List (Bool × SharedStep) :=
  [(true, .call (.allocate 40)), (true, .load), (true, .store), (true, .advance),
   (true, .advance), (true, .advance), (true, .advance), (true, .advance), (true, .advance),
   (true, .unlock), (true, .write 8 24 24), (true, .call (.reallocate 8 8)), (true, .advance),
   (true, .advance), (false, .call (.allocate 8)), (false, .load), (false, .store),
   (false, .advance), (false, .advance), (false, .advance), (false, .advance), (false, .advance),
   (false, .unlock), (true, .advance), (true, .advance), (false, .call (.allocate 8)),
   (false, .load), (false, .store), (false, .advance), (false, .advance), (false, .advance),
   (false, .advance), (false, .advance)]

/-- **`reallocate` does not take the lock.**  When another thread allocates behind the block that is
half cut, the rest is handed out twice. -/
theorem not_apart_half_cut : ∃ s : SharedPool ⟨3⟩ Bool,
    Run (Guarded Step Disciplined) (start (fun _ => 0) 64) halfCut s ∧
    ¬ s.live.Pairwise fun x y => x.1 + x.2 ≤ y.1 ∨ y.1 + y.2 ≤ x.1 :=
  ⟨_, .cons ⟨(by decide : 40 + 3 * 8 ≤ 2 ^ 64), rfl⟩ (.cons ⟨trivial, rfl⟩ (.cons ⟨trivial, rfl⟩
    (.cons ⟨trivial, rfl⟩ (.cons ⟨trivial, rfl⟩ (.cons ⟨trivial, rfl⟩ (.cons ⟨trivial, rfl⟩
    (.cons ⟨trivial, rfl⟩ (.cons ⟨trivial, rfl⟩ (.cons ⟨trivial, rfl⟩
    (.cons ⟨⟨40, ⟨List.mem_cons_self, by decide⟩, by decide⟩, rfl⟩
    (.cons ⟨⟨⟨40, List.mem_cons_self, by decide⟩, (by decide : 8 + 3 * 8 < 2 ^ 64)⟩, rfl⟩
    (.cons ⟨trivial, rfl⟩ (.cons ⟨trivial, rfl⟩ (.cons ⟨(by decide : 8 + 3 * 8 ≤ 2 ^ 64), rfl⟩
    (.cons ⟨trivial, rfl⟩ (.cons ⟨trivial, rfl⟩ (.cons ⟨trivial, rfl⟩ (.cons ⟨trivial, rfl⟩
    (.cons ⟨trivial, rfl⟩ (.cons ⟨trivial, rfl⟩ (.cons ⟨trivial, rfl⟩ (.cons ⟨trivial, rfl⟩
    (.cons ⟨trivial, rfl⟩ (.cons ⟨trivial, rfl⟩ (.cons ⟨(by decide : 8 + 3 * 8 ≤ 2 ^ 64), rfl⟩
    (.cons ⟨trivial, rfl⟩ (.cons ⟨trivial, rfl⟩ (.cons ⟨trivial, rfl⟩ (.cons ⟨trivial, rfl⟩
    (.cons ⟨trivial, rfl⟩ (.cons ⟨trivial, rfl⟩ (.cons ⟨trivial, rfl⟩
    (.nil _))))))))))))))))))))))))))))))))), by decide⟩

end SharedPool

end Tklb
