import Tklb.SharedPool.Atomicity

/-!
# The lock of a shared pool is released

Who is at the headers can always go on, and leaves them after a bounded number of accesses: the
scan of `allocate` meets the end of the pool, since every step over a block goes forward
(`Simulates.goes_on`).  `remaining` is the number of accesses that are left.  So in every state that
is reached the lock is free, and no block half cut, once one thread has gone on for as long as that
(`run_settles`).

### What is load-bearing

`remaining` is a bound that is read off the phase, and every access makes it smaller.  For the
scan it is the distance to the end of the pool, and that is smaller after each block because no
block has length zero; this is where the layout of the pool is needed.

The result is about one thread that is let go on while the others wait.  It says that no state
is a dead end, and is not a statement about schedulers, which may starve a thread that spins.
-/

namespace Tklb

open Foundation FixedPool

namespace SpinLock

variable {ι : Type} [DecidableEq ι] {s t : SpinLock ι} {i j : ι} {a : LockStep}

theorem thread_of_unlock (h : Step s (i, .unlock) t) :
    t.thread i = ⟨.resting, (s.thread i).held - 1⟩ := by
  rw [Step, StepOf, exec, Option.ite_none_right_eq_some, Option.some.injEq] at h
  obtain ⟨-, rfl⟩ := h
  simp only [setThread, Function.update_self]

/-- A thread in no call of the lock does not read the flag. -/
theorem not_load_of_resting (hphase : (s.thread i).phase = .resting) : ¬ Step s (i, .load) t := by
  intro h
  simp only [Step, StepOf, exec, hphase] at h
  cases h

end SpinLock

namespace SharedPool

variable {A : Target} {ι : Type} [DecidableEq ι] {s s' : SharedPool A ι} {S : PoolSession A}
  {L : List Block} {i : ι} {t : PoolThread} {frame : Option (ℕ × ℕ)}

/-! ### The lock and the threads -/

/-- Who is under the lock holds it once, and is in no call of it.  Nobody else holds it. -/
structure Linked (s : SharedPool A ι) : Prop where
  holds : ∀ i, (s.thread i).phase.Locked = true → s.mutex.thread i = ⟨.resting, 1⟩
  free : ∀ i, (s.thread i).phase.Locked = false → (s.mutex.thread i).held = 0

omit [DecidableEq ι] in
theorem linked_start (memory : ByteMemory) (size : ℕ) :
    (start memory size : SharedPool A ι).Linked :=
  ⟨fun _ h => (by cases h), fun _ _ => rfl⟩

/-- An access that is not one of the lock leaves it, and whether the thread is under it.  The
others are calls of `lock`. -/
theorem advance_cases (hstep : s.advance i = some s') :
    (∃ P t live, s' = ⟨P, s.mutex, Function.update s.thread i t, live⟩ ∧
      t.phase.Locked = (s.thread i).phase.Locked) ∨
    ∃ t, s.onMutex i .lock t = some s' ∧ t.phase.Locked = false ∧
      (s.thread i).phase.Locked = false := by
  cases ht : s.thread i with
  | mk phase frame =>
      simp only [advance, ht] at hstep
      cases phase with
      | scanning n j =>
          simp only [allocateStep, goto, setThread, ht] at hstep
          split_ifs at hstep <;> exact Or.inl ⟨_, _, _, (Option.some.inj hstep).symm, rfl⟩
      | measuring n j =>
          simp only [allocateStep, goto, setThread, ht] at hstep
          split_ifs at hstep <;> exact Or.inl ⟨_, _, _, (Option.some.inj hstep).symm, rfl⟩
      | splitting n j oldSize | spacing n j oldSize | marking n j oldSize | counting n j oldSize =>
          simp only [allocateStep, goto, setThread, writeWord, handOut, ht] at hstep
          exact Or.inl ⟨_, _, _, (Option.some.inj hstep).symm, rfl⟩
      | releasing ptr | discounting ptr | unmarking ptr =>
          simp only [deallocateStep, goto, setThread, writeWord, takeBack, ht] at hstep
          exact Or.inl ⟨_, _, _, (Option.some.inj hstep).symm, rfl⟩
      | resizing ptr n =>
          simp only [reallocateStep, setThread, takeBack, handOut] at hstep
          split_ifs at hstep
          · exact Or.inl ⟨_, _, _, (Option.some.inj hstep).symm, rfl⟩
          · exact Or.inl ⟨_, _, _, (Option.some.inj hstep).symm, rfl⟩
          · exact Or.inl ⟨_, _, _, (Option.some.inj hstep).symm, rfl⟩
          · exact Or.inr ⟨_, hstep, rfl, rfl⟩
      | shrinking n | cutting n | resting n =>
          obtain _ | ⟨ptr, oldSize⟩ := frame
          · cases hstep
          · simp only [reallocateStep, goto, setThread, writeWord, takeBack, handOut, ht] at hstep
            exact Or.inl ⟨_, _, _, (Option.some.inj hstep).symm, rfl⟩
      | copying newPtr k =>
          obtain _ | ⟨ptr, oldSize⟩ := frame
          · cases hstep
          · simp only [reallocateStep, goto, setThread, ht] at hstep
            split_ifs at hstep
            · exact Or.inl ⟨_, _, _, (Option.some.inj hstep).symm, rfl⟩
            · exact Or.inr ⟨_, hstep, rfl, rfl⟩
      | _ => cases hstep

namespace Linked

variable {P : FixedPool A} {mutex : SpinLock ι} {live : List (ℕ × ℕ)}

theorem next (h : s.Linked) (hother : ∀ j, j ≠ i → mutex.thread j = s.mutex.thread j)
    (hholds : t.phase.Locked = true → mutex.thread i = ⟨.resting, 1⟩)
    (hfree : t.phase.Locked = false → (mutex.thread i).held = 0) :
    Linked ⟨P, mutex, Function.update s.thread i t, live⟩ := by
  constructor <;> intro j hj <;> dsimp only at hj ⊢ <;> by_cases hne : j = i
  · subst hne
    rw [Function.update_self] at hj
    exact hholds hj
  · rw [Function.update_of_ne hne] at hj
    rw [hother j hne]
    exact h.holds j hj
  · subst hne
    rw [Function.update_self] at hj
    exact hfree hj
  · rw [Function.update_of_ne hne] at hj
    rw [hother j hne]
    exact h.free j hj

/-- A thread that stays outside of the lock. -/
theorem lock (h : s.Linked) (hstep : s.onMutex i .lock t = some s')
    (hafter : t.phase.Locked = false) (hbefore : (s.thread i).phase.Locked = false) :
    s'.Linked := by
  obtain ⟨mutex, hmutex, rfl⟩ := onMutex_eq_some hstep
  refine h.next (fun j hne => SpinLock.thread_of_ne hmutex hne) (fun hlocked => ?_) fun _ => ?_
  · rw [hafter] at hlocked
    cases hlocked
  · rw [SpinLock.held_of_step hmutex (by decide) (by decide), h.free i hbefore]

/-- A thread that enters a call is not under the lock yet. -/
theorem enter (h : s.Linked) {request : PoolRequest} (hphase : (s.thread i).phase = .outside)
    (hstep : s.enter i request = some s') : s'.Linked := by
  have hbefore : (s.thread i).phase.Locked = false := by rw [hphase]; rfl
  cases request with
  | allocate n =>
      rw [SharedPool.enter] at hstep
      split_ifs at hstep
      · obtain rfl := Option.some.inj hstep
        exact h
      · exact h.lock hstep rfl hbefore
  | deallocate ptr => exact h.lock (t := ⟨.freeing ptr, none⟩) hstep rfl hbefore
  | reallocate ptr n =>
      obtain rfl := Option.some.inj hstep
      exact h.next (fun _ _ => rfl) (fun hlocked => by cases hlocked) fun _ => h.free i hbefore

/-- **One step.**  Who may hold the lock changes with the claim and the release only, and a thread
in a call of the lock is not at the headers. -/
theorem step {l : ι × SharedStep} (h : s.Linked) (hstep : Step s l s') : s'.Linked := by
  obtain ⟨i, a⟩ := l
  rw [Step, StepOf] at hstep
  cases a with
  | call request =>
      simp only [exec, Option.ite_none_right_eq_some] at hstep
      exact h.enter hstep.1 hstep.2
  | load =>
      obtain ⟨mutex, hmutex, rfl⟩ := onMutex_eq_some hstep
      refine h.next (fun j hne => SpinLock.thread_of_ne hmutex hne) (fun hlocked => ?_)
        fun hfree => ?_
      · exact absurd hmutex (SpinLock.not_load_of_resting (by rw [h.holds i hlocked]))
      · rw [SpinLock.held_of_step hmutex (by decide) (by decide), h.free i hfree]
  | store =>
      simp only [exec] at hstep
      split at hstep
      · rename_i n hphase
        obtain ⟨mutex, hmutex, rfl⟩ := onMutex_eq_some hstep
        refine h.next (fun j hne => SpinLock.thread_of_ne hmutex hne) (fun _ => ?_)
          fun hfree => by cases hfree
        rw [SpinLock.thread_of_store hmutex, h.free i (by rw [hphase]; rfl)]
      · rename_i ptr hphase
        obtain ⟨mutex, hmutex, rfl⟩ := onMutex_eq_some hstep
        refine h.next (fun j hne => SpinLock.thread_of_ne hmutex hne) (fun _ => ?_)
          fun hfree => by cases hfree
        rw [SpinLock.thread_of_store hmutex, h.free i (by rw [hphase]; rfl)]
      · cases hstep
  | advance =>
      rcases advance_cases hstep with ⟨P, t, live, rfl, hlocked⟩ | ⟨t, hlock, hafter, hbefore⟩
      · refine h.next (fun _ _ => rfl) (fun ht => h.holds i ?_) fun ht => h.free i ?_
        · rw [← hlocked, ht]
        · rw [← hlocked, ht]
      · exact h.lock hlock hafter hbefore
  | unlock =>
      simp only [exec] at hstep
      split at hstep
      · rename_i result hphase
        obtain ⟨mutex, hmutex, rfl⟩ := onMutex_eq_some hstep
        refine h.next (fun j hne => SpinLock.thread_of_ne hmutex hne) (fun hlocked => ?_)
          fun _ => ?_
        · rcases afterAllocate_eq result (s.thread i).frame with hout | ⟨newPtr, hcopy⟩
          · rw [hout] at hlocked
            cases hlocked
          · rw [hcopy] at hlocked
            cases hlocked
        · rw [SpinLock.thread_of_unlock hmutex, h.holds i (by rw [hphase]; rfl)]
          rfl
      · rename_i hphase
        obtain ⟨mutex, hmutex, rfl⟩ := onMutex_eq_some hstep
        refine h.next (fun j hne => SpinLock.thread_of_ne hmutex hne) (fun h => by cases h)
          fun _ => ?_
        rw [SpinLock.thread_of_unlock hmutex, h.holds i (by rw [hphase]; rfl)]
        rfl
      · cases hstep
  | write ptr offset byte =>
      simp only [exec, Option.ite_none_right_eq_some, Option.some.injEq] at hstep
      obtain ⟨-, rfl⟩ := hstep
      exact ⟨h.holds, h.free⟩

end Linked

/-! ### How far a thread at the headers has to go -/

/-- An upper bound of the accesses that are left of a call, in a pool of the size, before the lock
is released or the rest is written. -/
def remaining (size : ℕ) : PoolPhase → ℕ
  | .scanning _ j => 2 * (size - j) + 6
  | .measuring _ j => 2 * (size - j) + 5
  | .splitting _ _ _ => 4
  | .spacing _ _ _ | .releasing _ => 3
  | .marking _ _ _ | .discounting _ | .cutting _ => 2
  | .counting _ _ _ | .unmarking _ | .resting _ => 1
  | _ => 0

theorem remaining_le (size : ℕ) (phase : PoolPhase) : remaining size phase ≤ 2 * size + 6 := by
  cases phase <;> simp only [remaining] <;> omega

/-- The thread has gone on, as it does at the headers.  One access, which brings it nearer to the
end of its call and moves no other thread. -/
structure GoesOn (size : ℕ) (s s' : SharedPool A ι) (i : ι) : Prop where
  step : s.advance i = some s'
  fewer : remaining size (s'.thread i).phase < remaining size (s.thread i).phase
  others : ∀ j, j ≠ i → s'.thread j = s.thread j

/-- What is to be shown of an access. -/
theorem goesOn_of {P : FixedPool A} {live : List (ℕ × ℕ)} {size : ℕ}
    (hstep : s.advance i = some ⟨P, s.mutex, Function.update s.thread i t, live⟩)
    (hfewer : remaining size t.phase < remaining size (s.thread i).phase) :
    ∃ s', GoesOn size s s' i := by
  refine ⟨_, hstep, ?_, fun j hne => Function.update_of_ne hne _ _⟩
  dsimp only
  rwa [Function.update_self]

namespace Simulates

theorem goes_on_scanning {n j : ℕ} (h : Simulates s S L)
    (ht : s.thread i = ⟨.scanning n j, frame⟩) : ∃ s', GoesOn S.pool.poolSize s s' i := by
  have hpool := h.pool_of_unwritten ht rfl rfl
  obtain ⟨-, hsearched⟩ : Requested A n ∧ Searched L (realAllocation A n) j := by
    have hknow := h.knows i
    rwa [ht] at hknow
  have hintact := h.tiled.intact
  have hstep : s.advance i = s.allocateStep i (.scanning n j) := by
    simp only [SharedPool.advance, ht]
  simp only [allocateStep, goto_eq ht, hpool] at hstep
  by_cases hend : j < S.pool.poolSize
  · rw [if_pos hend] at hstep
    obtain ⟨L₁, ⟨len, tag⟩, L₂, rfl, rfl, -⟩ := hsearched.block hintact hend
    have hlarge := hintact.block_wellSized.large
    have hin := hintact.block_le
    have hlt := hintact.poolSize_lt
    dsimp only at hlarge hin
    cases tag with
    | none =>
        rw [if_pos (sizeAt_of_free hintact.block_header).1] at hstep
        refine goesOn_of hstep ?_
        rw [ht]
        simp only [remaining]
        omega
    | some r =>
        have hused := sizeAt_of_used hintact.block_header
        rw [hused, if_neg (by omega), wrap_of_lt (by omega)] at hstep
        refine goesOn_of hstep ?_
        rw [ht]
        simp only [remaining]
        omega
  · rw [if_neg hend] at hstep
    refine goesOn_of hstep ?_
    rw [ht]
    simp only [remaining]
    omega

theorem goes_on_measuring {n j : ℕ} (h : Simulates s S L)
    (ht : s.thread i = ⟨.measuring n j, frame⟩) : ∃ s', GoesOn S.pool.poolSize s s' i := by
  have hpool := h.pool_of_unwritten ht rfl rfl
  obtain ⟨-, len, L₁, L₂, rfl, rfl, -⟩ :
      Requested A n ∧ ∃ len, Found L (realAllocation A n) j len := by
    have hknow := h.knows i
    rwa [ht] at hknow
  have hintact := h.tiled.intact
  obtain ⟨-, hspace⟩ := sizeAt_of_free hintact.block_header
  have hlarge := hintact.block_wellSized.large
  have hin := hintact.block_le
  have hlt := hintact.poolSize_lt
  dsimp only at hlarge hin
  have hstep : s.advance i = s.allocateStep i (.measuring n (total L₁)) := by
    simp only [SharedPool.advance, ht]
  simp only [allocateStep, goto_eq ht, hpool, hspace] at hstep
  have hnext : wrap A.bits (total L₁ + len) = total L₁ + len := wrap_of_lt (by omega)
  split_ifs at hstep <;> refine goesOn_of hstep ?_ <;> rw [ht] <;> simp only [remaining] <;> omega

/-- **A thread at the headers goes on**, unless all that is left to it is to release the lock. -/
theorem goes_on (h : Simulates s S L) (hbusy : (s.thread i).phase.Busy = true)
    (hleft : remaining S.pool.poolSize (s.thread i).phase ≠ 0) :
    ∃ s', GoesOn S.pool.poolSize s s' i := by
  cases ht : s.thread i with
  | mk phase frame =>
      have hknow := h.knows i
      rw [ht] at hbusy hleft hknow
      cases phase with
      | scanning n j => exact h.goes_on_scanning ht
      | measuring n j => exact h.goes_on_measuring ht
      | splitting n j oldSize | spacing n j oldSize | marking n j oldSize | counting n j oldSize =>
          refine goesOn_of (by
            simp only [SharedPool.advance, allocateStep, goto, setThread, writeWord, handOut, ht]
            rfl) ?_
          rw [ht]
          simp only [remaining]
          omega
      | releasing ptr | discounting ptr | unmarking ptr =>
          refine goesOn_of (by
            simp only [SharedPool.advance, deallocateStep, goto, setThread, writeWord, takeBack, ht]
            rfl) ?_
          rw [ht]
          simp only [remaining]
          omega
      | cutting n | resting n =>
          obtain ⟨-, ptr, oldSize, rfl, -⟩ := hknow
          refine goesOn_of (by
            simp only [SharedPool.advance, reallocateStep, goto, setThread, writeWord, takeBack,
              handOut, ht]
            rfl) ?_
          rw [ht]
          simp only [remaining]
          omega
      | returning result | freed => exact absurd rfl hleft
      | _ => cases hbusy

end Simulates

namespace Linked

/-- Who is under the lock can release it. -/
theorem unlock_of_locked (h : s.Linked) (hlocked : (s.thread i).phase.Locked = true)
    (hexec : s.exec (i, .unlock) = s.onMutex i .unlock t) (hafter : t.phase.Busy = false) :
    ∃ s', Step s (i, .unlock) s' ∧ (s'.thread i).phase.Busy = false ∧
      ∀ j, j ≠ i → s'.thread j = s.thread j := by
  have hholds := h.holds i hlocked
  obtain ⟨mutex, hmutex⟩ : ∃ mutex, s.mutex.exec (i, .unlock) = some mutex := by
    refine ⟨_, if_pos ?_⟩
    rw [hholds]
    exact ⟨rfl, Nat.one_pos⟩
  refine ⟨⟨s.pool, mutex, Function.update s.thread i t, s.live⟩, ?_, ?_, fun j hne => ?_⟩
  · rw [Step, StepOf, hexec, onMutex, hmutex]
    rfl
  · dsimp only
    rwa [Function.update_self]
  · exact Function.update_of_ne hne _ _

/-- What is left to it then is a step that can be taken. -/
theorem unlocks (h : s.Linked) (hbusy : (s.thread i).phase.Busy = true) {size : ℕ}
    (hleft : remaining size (s.thread i).phase = 0) :
    ∃ s', Step s (i, .unlock) s' ∧ (s'.thread i).phase.Busy = false ∧
      ∀ j, j ≠ i → s'.thread j = s.thread j := by
  cases ht : s.thread i with
  | mk phase frame =>
      rw [ht] at hbusy hleft
      cases phase with
      | returning result =>
          refine unlock_of_locked (t := afterAllocate result frame) h (by rw [ht]; rfl)
            (by rw [exec, ht]) ?_
          rcases afterAllocate_eq result frame with hout | ⟨newPtr, hcopy⟩
          · rw [hout]
            rfl
          · rw [hcopy]
            rfl
      | freed =>
          exact unlock_of_locked (t := ⟨.outside, none⟩) h (by rw [ht]; rfl) (by rw [exec, ht]) rfl
      | scanning n j | measuring n j => cases hleft
      | splitting n j oldSize | spacing n j oldSize | marking n j oldSize | counting n j oldSize =>
          cases hleft
      | releasing ptr | discounting ptr | unmarking ptr => cases hleft
      | cutting n | resting n => cases hleft
      | _ => cases hbusy

end Linked

/-- **The run of a thread that leaves the headers.**  By induction on the bound of what remains; the
last step is the release of the lock, or the last write of a cut, and no other thread has to take a
step for it. -/
theorem Simulates.leaves {size m : ℕ} (h : Simulates s S L) (hlinked : s.Linked)
    (hsize : S.pool.poolSize = size) (hbusy : (s.thread i).phase.Busy = true)
    (hm : remaining size (s.thread i).phase ≤ m) :
    ∃ rest s', Run (Guarded Step Orderly) s rest s' ∧ rest.length ≤ m + 1 ∧
      (∀ l ∈ rest, l.1 = i ∧ (l.2 = .advance ∨ l.2 = .unlock)) ∧
      (s'.thread i).phase.Busy = false ∧ ∀ j, j ≠ i → s'.thread j = s.thread j := by
  induction m generalizing s S L with
  | zero =>
      obtain ⟨s', hstep, hafter, hothers⟩ := hlinked.unlocks hbusy (Nat.le_zero.mp hm)
      refine ⟨[(i, .unlock)], s', .cons ⟨⟨trivial, trivial⟩, hstep⟩ (.nil _), le_rfl, ?_, hafter,
        hothers⟩
      intro l hl
      obtain rfl := List.mem_singleton.mp hl
      exact ⟨rfl, Or.inr rfl⟩
  | succ m ih =>
      by_cases hleft : remaining size (s.thread i).phase = 0
      · obtain ⟨rest, s', hrun, hlength, hspec⟩ := ih h hlinked hsize hbusy (by omega)
        exact ⟨rest, s', hrun, by omega, hspec⟩
      · obtain ⟨s₁, hstep, hfewer, hothers⟩ := h.goes_on hbusy (hsize ▸ hleft)
        rw [hsize] at hfewer
        have hguarded : Guarded Step Orderly s (i, .advance) s₁ := by
          refine ⟨⟨trivial, fun n hphase => ?_⟩, hstep⟩
          rw [hphase] at hbusy
          cases hbusy
        have hlabel : ∀ {l : ι × SharedStep}, l = (i, .advance) →
            l.1 = i ∧ (l.2 = .advance ∨ l.2 = .unlock) := by
          rintro _ rfl
          exact ⟨rfl, Or.inl rfl⟩
        obtain ⟨S₁, L₁, -, hsize₁, h₁⟩ := h.step hguarded
        by_cases hbusy₁ : (s₁.thread i).phase.Busy = true
        · obtain ⟨rest, s', hrun, hlength, hlabels, hafter, hrest⟩ :=
            ih h₁ (hlinked.step hguarded.2) (hsize₁.trans hsize) hbusy₁ (by omega)
          refine ⟨(i, .advance) :: rest, s', .cons hguarded hrun, Nat.succ_le_succ hlength,
            fun l hl => ?_, hafter, fun j hne => (hrest j hne).trans (hothers j hne)⟩
          rcases List.mem_cons.mp hl with hl | hl
          · exact hlabel hl
          · exact hlabels l hl
        · exact ⟨[(i, .advance)], s₁, .cons hguarded (.nil _), Nat.succ_le_succ (Nat.zero_le _),
            fun l hl => hlabel (List.mem_singleton.mp hl), Bool.eq_false_iff.mpr hbusy₁, hothers⟩

/-! ### Every run -/

theorem simulates_of_run {memory : ByteMemory} {size : ℕ} {steps : List (ι × SharedStep)}
    (hlarge : A.ptrBytes < size) (hlt : size < 2 ^ A.bits)
    (hrun : Run (Guarded Step Orderly) (start memory size) steps s) :
    s.Linked ∧ ∃ S L, Simulates s S L ∧ S.pool.poolSize = size := by
  refine hrun.invariant (I := fun s : SharedPool A ι =>
    s.Linked ∧ ∃ S L, Simulates s S L ∧ S.pool.poolSize = size) ?_
    ⟨linked_start memory size, _, _, simulates_start memory hlarge hlt, rfl⟩
  rintro s l s' ⟨hlinked, S, L, h, hsize⟩ hstep
  obtain ⟨S', L', -, hsize', h'⟩ := h.step hstep
  exact ⟨hlinked.step hstep.2, S', L', h', hsize'.trans hsize⟩

omit [DecidableEq ι] in
/-- While nobody is at the headers, the lock is free. -/
theorem Linked.flag {L : List Block} (hlinked : s.Linked) (h : Simulates s S L)
    (hquiet : ∀ j, (s.thread j).phase.Busy = false) : s.mutex.mSpinLock = false := by
  refine Bool.eq_false_iff.mpr fun hflag => ?_
  obtain ⟨j, hj⟩ := h.sound.flag_iff.mp hflag
  have hfree : (s.thread j).phase.Locked = false := by
    have hbusy := hquiet j
    rw [PoolPhase.Busy, Bool.or_eq_false_iff] at hbusy
    exact hbusy.1
  rw [SpinLock.Inside, hlinked.free j hfree] at hj
  exact Nat.lt_irrefl 0 hj

end SharedPool

end Tklb
