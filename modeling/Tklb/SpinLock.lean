import Tklb.Foundation.Runs
import Mathlib.Logic.Function.Basic

/-!
# `SpinLock`

A flag that threads set while they are in a critical section.  `lock` waits until it
reads `false` and then stores `true`; `try_lock` reads once and stores if it read
`false`.  Reading and storing are two atomic steps, and another thread may run between
them.  `LockGuard` and `LockGuardTry` acquire in the constructor and, if they acquired,
release in the destructor.

The model is the transition system of any number of threads that do this in any order,
with blocking and non-blocking acquisition mixed and guards possibly nested.  A thread
is **inside** while it holds a guard that acquired.

`Sound` is the invariant of the runs in which every thread that stores `true` finds the
flag still `false`: the flag says whether a thread is inside.  The first store that
overwrites a `true` puts a second thread inside (`exclusive_iff`).

### Main results

* `step_cases` — what a step can do, for all threads and phases at once.
* `Sound.step` — the invariant, for steps that claim a lock which is still free.
* `exclusive_iff` — for every number of threads and every interleaving: there is never more than
  one thread inside if and only if no thread stores its claim over that of another.

The condition is on the steps of a run and not on the program.  The code does nothing to ensure
it, since reading and storing are separate; two threads that both read `false` are enough.
-/

namespace Tklb

open Foundation

/-- Where a thread is in the code of the lock. -/
inductive LockPhase
  /-- In no call of the lock. -/
  | resting
  /-- In `lock`, in front of `while (mSpinLock) { }`. -/
  | locking
  /-- In `try_lock`, in front of `if (mSpinLock)`. -/
  | trying
  /-- In `lock` or `try_lock`, having read `false`, in front of `mSpinLock = true`. -/
  | claiming
  deriving DecidableEq

/-- A thread: where it is, and how many of its guards hold the lock.  A guard that did not acquire
is not counted, and releases nothing. -/
structure LockThread where
  phase : LockPhase
  held : ℕ
  deriving DecidableEq

/-- The lock and the threads that use it. -/
structure SpinLock (ι : Type) where
  mSpinLock : Bool
  thread : ι → LockThread

/-- An atomic step of a thread. -/
inductive LockStep
  /-- The constructor of a `LockGuard` calls `lock`. -/
  | lock
  /-- The constructor of a `LockGuardTry` calls `try_lock`. -/
  | tryLock
  | load
  | store
  /-- The destructor of a guard that holds the lock calls `unlock`. -/
  | unlock
  deriving DecidableEq

namespace SpinLock

variable {ι : Type} [DecidableEq ι]

/-- A new lock, no thread near it. -/
def start : SpinLock ι := ⟨false, fun _ => ⟨.resting, 0⟩⟩

/-- Replace the state of one thread. -/
def setThread (s : SpinLock ι) (i : ι) (thread : LockThread) : SpinLock ι :=
  { s with thread := Function.update s.thread i thread }

/-- One atomic step of thread `i`. -/
def exec (s : SpinLock ι) : ι × LockStep → Option (SpinLock ι)
  | (i, .lock) =>
      if (s.thread i).phase = .resting then
        some (s.setThread i { s.thread i with phase := .locking })
      else none
  | (i, .tryLock) =>
      if (s.thread i).phase = .resting then
        some (s.setThread i { s.thread i with phase := .trying })
      else none
  | (i, .load) =>
      match (s.thread i).phase with
      | .locking =>
          if s.mSpinLock then some s
          else some (s.setThread i { s.thread i with phase := .claiming })
      | .trying =>
          -- `try_lock` returns `false`
          if s.mSpinLock then some (s.setThread i { s.thread i with phase := .resting })
          else some (s.setThread i { s.thread i with phase := .claiming })
      | _ => none
  | (i, .store) =>
      if (s.thread i).phase = .claiming then
        some { s.setThread i ⟨.resting, (s.thread i).held + 1⟩ with mSpinLock := true }
      else none
  | (i, .unlock) =>
      if (s.thread i).phase = .resting ∧ 0 < (s.thread i).held then
        some { s.setThread i ⟨.resting, (s.thread i).held - 1⟩ with mSpinLock := false }
      else none

/-- The steps of the threads, in any interleaving. -/
abbrev Step : SpinLock ι → ι × LockStep → SpinLock ι → Prop := StepOf exec

/-- The thread is between a successful `lock` or `try_lock` and its `unlock`.  It is counted by
guards, as a thread may hold several. -/
def Inside (s : SpinLock ι) (i : ι) : Prop := 0 < (s.thread i).held

/-- **Mutual exclusion.**  Two threads that are inside are the same thread. -/
def Exclusive (s : SpinLock ι) : Prop := ∀ i j, s.Inside i → s.Inside j → i = j

/-- **The side condition.**  A thread that is about to store `true` finds the flag as it
read it. -/
def ClaimsFree (s : SpinLock ι) (l : ι × LockStep) : Prop :=
  l.2 = .store → s.mSpinLock = false

section SetThread

variable (s : SpinLock ι) {i j : ι}

@[simp] theorem setThread_self (thread : LockThread) :
    (s.setThread i thread).thread i = thread := by
  simp only [setThread, Function.update_self]

theorem setThread_of_ne (hji : j ≠ i) (thread : LockThread) :
    (s.setThread i thread).thread j = s.thread j := by
  simp only [setThread, Function.update_of_ne hji]

theorem held_setThread (i j : ι) (phase : LockPhase) (held : ℕ) :
    ((s.setThread i ⟨phase, held⟩).thread j).held = if j = i then held else (s.thread j).held := by
  by_cases hji : j = i
  · rw [if_pos hji, hji, setThread_self]
  · rw [if_neg hji, setThread_of_ne s hji]

end SetThread

/-! ### What a step can do -/

/-- **Inversion.**  A step moves a thread outside of its claim, or claims, or
releases. -/
theorem step_cases {s t : SpinLock ι} {i : ι} {a : LockStep} (h : Step s (i, a) t) :
    (a ≠ .store ∧ t.mSpinLock = s.mSpinLock ∧
      ∃ phase, t = s.setThread i ⟨phase, (s.thread i).held⟩ ∧
      (phase = .claiming → (s.thread i).phase = .claiming ∨ s.mSpinLock = false)) ∨
    (a = .store ∧ (s.thread i).phase = .claiming ∧
      t = { s.setThread i ⟨.resting, (s.thread i).held + 1⟩ with mSpinLock := true }) ∨
    (a = .unlock ∧ 0 < (s.thread i).held ∧
      t = { s.setThread i ⟨.resting, (s.thread i).held - 1⟩ with mSpinLock := false }) := by
  unfold Step StepOf at h
  cases a with
  | lock =>
      simp only [exec, Option.ite_none_right_eq_some, Option.some.injEq] at h
      obtain ⟨-, rfl⟩ := h
      exact Or.inl ⟨nofun, rfl, .locking, rfl, nofun⟩
  | tryLock =>
      simp only [exec, Option.ite_none_right_eq_some, Option.some.injEq] at h
      obtain ⟨-, rfl⟩ := h
      exact Or.inl ⟨nofun, rfl, .trying, rfl, nofun⟩
  | load =>
      simp only [exec] at h
      split at h
      · rename_i hphase
        split at h
        · -- the loop of `lock` goes round
          obtain rfl := Option.some.inj h
          refine Or.inl ⟨nofun, rfl, .locking, ?_, nofun⟩
          rw [setThread, ← hphase, Function.update_eq_self]
        · rename_i hfree
          obtain rfl := Option.some.inj h
          exact Or.inl ⟨nofun, rfl, .claiming, rfl, fun _ => Or.inr (by simpa using hfree)⟩
      · split at h
        · obtain rfl := Option.some.inj h
          exact Or.inl ⟨nofun, rfl, .resting, rfl, nofun⟩
        · rename_i hfree
          obtain rfl := Option.some.inj h
          exact Or.inl ⟨nofun, rfl, .claiming, rfl, fun _ => Or.inr (by simpa using hfree)⟩
      · cases h
  | store =>
      simp only [exec, Option.ite_none_right_eq_some, Option.some.injEq] at h
      obtain ⟨hphase, rfl⟩ := h
      exact Or.inr (Or.inl ⟨rfl, hphase, rfl⟩)
  | unlock =>
      simp only [exec, Option.ite_none_right_eq_some, Option.some.injEq] at h
      obtain ⟨⟨-, hheld⟩, rfl⟩ := h
      exact Or.inr (Or.inr ⟨rfl, hheld, rfl⟩)

/-! ### The invariant -/

/-- The flag says whether a thread is inside, there is at most one, it holds the lock
once, and who is about to claim is not inside. -/
structure Sound (s : SpinLock ι) : Prop where
  flag_iff : s.mSpinLock = true ↔ ∃ i, s.Inside i
  exclusive : s.Exclusive
  held_le : ∀ i, (s.thread i).held ≤ 1
  claiming : ∀ i, (s.thread i).phase = .claiming → (s.thread i).held = 0

omit [DecidableEq ι] in
theorem sound_start : (start : SpinLock ι).Sound where
  flag_iff := ⟨nofun, fun ⟨_, h⟩ => absurd h (Nat.lt_irrefl 0)⟩
  exclusive := fun _ _ h => absurd h (Nat.lt_irrefl 0)
  held_le := fun _ => Nat.zero_le _
  claiming := fun _ _ => rfl

omit [DecidableEq ι] in
/-- Nobody is inside while the flag is `false`. -/
theorem Sound.held_eq_zero {s : SpinLock ι} (h : s.Sound) (hflag : s.mSpinLock = false) (i : ι) :
    (s.thread i).held = 0 := by
  refine Nat.eq_zero_of_not_pos fun hpos => ?_
  rw [h.flag_iff.mpr ⟨i, hpos⟩] at hflag
  cases hflag

/-- A thread that moves without claiming or releasing. -/
theorem Sound.move {s : SpinLock ι} (h : s.Sound) {i : ι} {phase : LockPhase}
    (hclaim : phase = .claiming → (s.thread i).phase = .claiming ∨ s.mSpinLock = false) :
    (s.setThread i ⟨phase, (s.thread i).held⟩).Sound := by
  have hheld : ∀ j, ((s.setThread i ⟨phase, (s.thread i).held⟩).thread j).held =
      (s.thread j).held := by
    intro j
    rw [held_setThread]
    exact ite_eq_right_iff.mpr fun hji => by rw [hji]
  constructor
  case flag_iff =>
    show s.mSpinLock = true ↔ _
    simpa only [Inside, hheld] using h.flag_iff
  case exclusive =>
    intro j k hj hk
    rw [Inside, hheld] at hj hk
    exact h.exclusive j k hj hk
  case held_le =>
    intro j
    rw [hheld]
    exact h.held_le j
  case claiming =>
    intro j hj
    rw [hheld]
    by_cases hji : j = i
    · subst hji
      rw [setThread_self] at hj
      rcases hclaim hj with hphase | hflag
      · exact h.claiming j hphase
      · exact h.held_eq_zero hflag j
    · rw [setThread_of_ne s hji] at hj
      exact h.claiming j hj

/-- A thread that claims a free lock. -/
theorem Sound.claim {s : SpinLock ι} (h : s.Sound) (hflag : s.mSpinLock = false) (i : ι) :
    Sound { s.setThread i ⟨.resting, (s.thread i).held + 1⟩ with mSpinLock := true } := by
  have hnone := h.held_eq_zero hflag
  have hheld : ∀ j, ((s.setThread i ⟨.resting, (s.thread i).held + 1⟩).thread j).held =
      if j = i then 1 else 0 := by
    intro j
    rw [held_setThread, hnone i, hnone j]
  have honly : ∀ j, 0 < ((s.setThread i ⟨.resting, (s.thread i).held + 1⟩).thread j).held →
      j = i := by
    intro j hj
    by_contra hji
    rw [hheld, if_neg hji] at hj
    exact Nat.lt_irrefl 0 hj
  constructor
  case flag_iff =>
    refine ⟨fun _ => ⟨i, ?_⟩, fun _ => rfl⟩
    exact Nat.lt_of_lt_of_eq Nat.one_pos ((hheld i).trans (if_pos rfl)).symm
  case exclusive =>
    intro j k hj hk
    rw [honly j hj, honly k hk]
  case held_le =>
    intro j
    refine Nat.le_trans (Nat.le_of_eq (hheld j)) ?_
    split
    · exact Nat.le_refl 1
    · exact Nat.zero_le 1
  case claiming =>
    intro j hj
    refine (hheld j).trans (if_neg ?_)
    rintro rfl
    simp at hj

theorem Sound.release {s : SpinLock ι} (h : s.Sound) {i : ι} (hi : 0 < (s.thread i).held) :
    Sound { s.setThread i ⟨.resting, (s.thread i).held - 1⟩ with mSpinLock := false } := by
  have hzero : ∀ j, ((s.setThread i ⟨.resting, (s.thread i).held - 1⟩).thread j).held = 0 := by
    intro j
    rw [held_setThread]
    by_cases hji : j = i
    · rw [if_pos hji]
      exact Nat.sub_eq_zero_of_le (h.held_le i)
    · rw [if_neg hji]
      exact Nat.eq_zero_of_not_pos fun hj => hji (h.exclusive j i hj hi)
  constructor
  case flag_iff => exact ⟨nofun, fun ⟨j, hj⟩ => absurd (hzero j) (Nat.ne_of_gt hj)⟩
  case exclusive => exact fun j _ hj _ => absurd (hzero j) (Nat.ne_of_gt hj)
  case held_le => exact fun j => Nat.le_trans (Nat.le_of_eq (hzero j)) (Nat.zero_le 1)
  case claiming => exact fun j _ => hzero j

/-- **One step** of a run whose claims all find the lock free. -/
theorem Sound.step {s t : SpinLock ι} {l : ι × LockStep} (h : s.Sound) (hfree : ClaimsFree s l)
    (hstep : Step s l t) : t.Sound := by
  obtain ⟨i, a⟩ := l
  rcases step_cases hstep with ⟨-, -, phase, rfl, hclaim⟩ | ⟨rfl, -, rfl⟩ | ⟨-, hheld, rfl⟩
  · exact h.move hclaim
  · exact h.claim (hfree rfl) i
  · exact h.release hheld

theorem sound_of_run {ls : List (ι × LockStep)} {s : SpinLock ι}
    (hrun : Run (Guarded Step ClaimsFree) start ls s) : s.Sound :=
  hrun.invariant (I := Sound) (fun _ _ _ hs hstep => hs.step hstep.1 hstep.2) sound_start

/-- A claim that overwrites another one puts a second thread inside. -/
theorem Sound.not_exclusive {s t : SpinLock ι} {l : ι × LockStep} (h : s.Sound)
    (hbad : ¬ ClaimsFree s l) (hstep : Step s l t) : ¬ t.Exclusive := by
  obtain ⟨i, a⟩ := l
  unfold ClaimsFree at hbad
  rw [Classical.not_imp, Bool.not_eq_false] at hbad
  obtain ⟨rfl, hflag⟩ := hbad
  obtain ⟨j, hj⟩ := h.flag_iff.mp hflag
  rcases step_cases hstep with ⟨hne, -⟩ | ⟨-, hphase, rfl⟩ | ⟨hne, -⟩
  · exact absurd rfl hne
  · have hji : j ≠ i := by
      rintro rfl
      exact absurd (h.claiming j hphase) (Nat.ne_of_gt hj)
    intro hexclusive
    have hheld := held_setThread s i
    refine hji (hexclusive j i ?_ ?_)
    · exact Nat.lt_of_lt_of_eq hj ((hheld j _ _).trans (if_neg hji)).symm
    · exact Nat.lt_of_lt_of_eq (Nat.succ_pos _) ((hheld i _ _).trans (if_pos rfl)).symm
  · cases hne

/-- **Mutual exclusion.**  In a run of any number of threads, at most one thread is
inside in every state reached if and only if no thread stores its claim while the flag
is set. -/
theorem exclusive_iff {ls : List (ι × LockStep)} {t : SpinLock ι} (hrun : Run Step start ls t) :
    (∀ front rest m, ls = front ++ rest → Run Step start front m → m.Exclusive) ↔
      Run (Guarded Step ClaimsFree) start ls t := by
  constructor
  · intro hall
    rcases hrun.guarded_or_exists ClaimsFree with hguarded | hex
    · exact hguarded
    · obtain ⟨front, l, rest, m, m', rfl, hfront, hbad, hstep, -⟩ := hex
      have hm' := hfront.of_guarded.append (Run.cons hstep (Run.nil m'))
      exact absurd (hall (front ++ [l]) rest m' (by simp) hm')
        ((sound_of_run hfront).not_exclusive hbad hstep)
  · rintro hguarded front rest m rfl hfront
    obtain ⟨m', hfront', -⟩ := hguarded.split
    rw [hfront.unique hfront'.of_guarded]
    exact (sound_of_run hfront').exclusive

/-- A thread that waits while the other one is inside. -/
theorem exclusive_two_threads :
    ∃ t : SpinLock Bool,
      Run Step start [(true, .lock), (true, .load), (true, .store), (false, .tryLock),
        (false, .load), (true, .unlock), (false, .lock), (false, .load), (false, .store)] t ∧
      ∀ front rest m, [(true, .lock), (true, .load), (true, .store), (false, .tryLock),
        (false, .load), (true, .unlock), (false, .lock), (false, .load), (false, .store)] =
          front ++ rest → Run Step start front m → m.Exclusive := by
  have hrun : ∃ t : SpinLock Bool, Run (Guarded Step ClaimsFree) start
      [(true, .lock), (true, .load), (true, .store), (false, .tryLock),
        (false, .load), (true, .unlock), (false, .lock), (false, .load), (false, .store)] t :=
    ⟨_, Run.cons ⟨nofun, rfl⟩ (Run.cons ⟨nofun, rfl⟩ (Run.cons ⟨fun _ => rfl, rfl⟩
      (Run.cons ⟨nofun, rfl⟩ (Run.cons ⟨nofun, rfl⟩ (Run.cons ⟨nofun, rfl⟩
      (Run.cons ⟨nofun, rfl⟩ (Run.cons ⟨nofun, rfl⟩ (Run.cons ⟨fun _ => rfl, rfl⟩
      (Run.nil _)))))))))⟩
  obtain ⟨t, ht⟩ := hrun
  exact ⟨t, ht.of_guarded, (exclusive_iff ht.of_guarded).mpr ht⟩

/-- Two threads read `false` before either stores `true`: both are inside. -/
theorem not_exclusive_two_claims :
    ∃ t : SpinLock Bool,
      Run Step start [(true, .lock), (false, .lock), (true, .load), (false, .load),
        (true, .store), (false, .store)] t ∧ t.Inside true ∧ t.Inside false ∧ ¬ t.Exclusive := by
  obtain ⟨t, ht, htrue, hfalse⟩ : ∃ t : SpinLock Bool,
      Run Step start [(true, .lock), (false, .lock), (true, .load), (false, .load),
        (true, .store), (false, .store)] t ∧ t.Inside true ∧ t.Inside false :=
    ⟨_, Run.of_foldlM rfl, Nat.one_pos, Nat.one_pos⟩
  exact ⟨t, ht, htrue, hfalse, fun hexclusive => Bool.false_ne_true
    (hexclusive false true hfalse htrue)⟩

end SpinLock

end Tklb
