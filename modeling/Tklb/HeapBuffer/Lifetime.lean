import Tklb.HeapBuffer.Contents

/-!
# Objects in a `HeapBuffer`

Elements are constructed with placement `new`, destroyed by calling the
destructor, and moved as bytes.  The books balance when at every moment exactly
the slots below `size()` hold an object, nothing is constructed where an object
lives, and every object constructed is destroyed exactly once.

Two operations break this.  `pop` copies the last element out and lowers
`mSize`, but the element stays in its slot, undestroyed.  `set` lets `resize`
construct default values and then constructs the copies over them.  `resize` and
`remove`, which also give up elements, do call the destructor.  Runs without a
`pop` of an element and without a `set` of elements keep the books
(`balanced_of_run`).

### Main results

* `exec_exact` — a tidy call keeps the books (`Tidy`).
* `balanced_of_run` — every run of tidy calls, and the destructor at its end: every object that
  was constructed was destroyed exactly once.

### What is load-bearing

The store counts what happens to each object (`Foundation.ObjectStore`); the operations are not
asked to behave.  An object that is constructed over another, or destroyed in a slot that holds
none, is recorded as such, so that `Balanced` is a statement about what did not happen and not
an assumption built into the model.
-/

namespace Tklb

open Foundation HeapBuffer

namespace BufferState

variable {T : Type} [Inhabited T] [BEq T] {B : BufferType} {s : BufferState T}
  {objs : List (T × ℕ)}

/-- An empty buffer on a heap of its own. -/
def start (grants : ℕ → Bool) : BufferState T := ⟨.initial grants, .initial⟩

/-- Exactly the slots below `size()` hold an object, and nothing was constructed
over an object, destroyed twice or destroyed where there was no object. -/
structure Balanced (s : BufferState T) : Prop where
  live : ∀ i, (s.slot i).isSome ↔ i < s.buffer.mSize
  overwritten : s.heap.objects.overwritten = []
  destroyed : s.heap.objects.destroyed.Nodup
  strayed : s.heap.objects.strayed = 0

/-- All objects are gone: every one was destroyed exactly once.  This is what is left to ask when
the buffer is gone, and what an element type that counts its objects would find. -/
structure Closed (s : BufferState T) : Prop where
  raw : ∀ i, s.slot i = none
  destroyed : ∀ k < s.heap.objects.built, s.heap.objects.destroyed.count k = 1
  overwritten : s.heap.objects.overwritten = []
  strayed : s.heap.objects.strayed = 0

/-- `pop` finds no element, `set` is given none, and the sizes fit.  These are the calls after which
every object is an element, and nothing was constructed over one. -/
def Tidy (B : BufferType) (s : BufferState T) (label : BufferCall T × Reply T) : Prop :=
  s.Fits B label.1 ∧
    match label.1 with
    | .pop => s.buffer.mSize = 0
    | .set data => data = []
    | _ => True

/-- **One call.**  A tidy call keeps the books.  The buffer holds some list of objects before and
after, exactly these live, and the record of the store has nothing in it that should not have
happened. -/
theorem exec_exact (h : s.Holds B objs) (he : s.Exact objs) {c : BufferCall T}
    {r : Reply T} (hc : s.Tidy B (c, r)) :
    ∃ objs', (s.exec B c).2.Holds B objs' ∧ (s.exec B c).2.Exact objs' := by
  obtain ⟨hfit, htidy⟩ := hc
  cases c with
  | set data =>
      obtain ⟨t, objs', hcall, hholds, -, hexact⟩ := h.set hfit
      exact ⟨objs', by rw [exec, hcall]; exact hholds,
        by rw [exec, hcall]; exact hexact htidy he⟩
  | resize size downsize =>
      obtain ⟨t, objs', hcall, hholds, -, hexact⟩ := h.resize hfit downsize
      exact ⟨objs', by rw [exec, hcall]; exact hholds, by rw [exec, hcall]; exact hexact he⟩
  | reserve size =>
      obtain ⟨t, hcall, hholds, hexact⟩ := h.reserve hfit
      exact ⟨objs, by rw [exec, hcall]; exact hholds, by rw [exec, hcall]; exact hexact he⟩
  | push object =>
      have hroom : RoundFits B (objs.length + 1) := by rw [← h.size]; exact hfit
      obtain ⟨t, objs', hcall, hholds, -, hexact⟩ := h.push object hroom
      exact ⟨objs', by rw [exec, hcall]; exact hholds, by rw [exec, hcall]; exact hexact he⟩
  | pop =>
      -- only a buffer without elements is popped
      obtain ⟨t, hcall, hholds, hsame⟩ := h.pop
      obtain rfl : objs = [] :=
        List.eq_nil_of_length_eq_zero (h.size.symm.trans htidy)
      refine ⟨[], by rw [exec, hcall]; exact hholds, ?_⟩
      rw [exec, hcall, hsame rfl]
      exact he
  | removeAt index =>
      rcases Nat.lt_or_ge index objs.length with hlt | hge
      · obtain ⟨t, hcall, hholds, hexact⟩ := h.removeAt hlt
        exact ⟨_, by rw [exec, hcall]; exact hholds, by rw [exec, hcall]; exact hexact he⟩
      · have hcall : s.removeAt index = (false, s) := by
          rw [BufferState.removeAt, if_pos (by rw [h.size]; exact hge)]
        exact ⟨objs, by rw [exec, hcall]; exact h, by rw [exec, hcall]; exact he⟩
  | removeValue object =>
      obtain ⟨t, objs', hcall, hholds, -, hexact⟩ := h.removeValue object
      exact ⟨objs', by rw [exec, hcall]; exact hholds, by rw [exec, hcall]; exact hexact he⟩
  | removePointer object =>
      obtain ⟨ok, t, objs', hcall, hholds, hexact⟩ := h.removePointer object
      exact ⟨objs', by rw [exec, hcall]; exact hholds, by rw [exec, hcall]; exact hexact he⟩
  | clear =>
      obtain ⟨t, hcall, hholds, hexact⟩ := h.resize_zero false
      exact ⟨[], by rw [exec, BufferState.clear, hcall]; exact hholds,
        by rw [exec, BufferState.clear, hcall]; exact hexact he⟩

omit [Inhabited T] [BEq T] in
/-- A new buffer has no objects. -/
theorem exact_start (grants : ℕ → Bool) : (start grants : BufferState T).Exact [] :=
  ⟨fun _ _ => rfl, Ledger.empty, rfl, rfl⟩

omit [Inhabited T] [BEq T] in
theorem Exact.balanced (he : s.Exact objs) (h : s.Holds B objs) : s.Balanced := by
  refine ⟨fun i => ?_, he.overwritten, he.ledger.settled_nodup, he.strayed⟩
  rw [h.size]
  rcases Nat.lt_or_ge i objs.length with hlt | hge
  · rw [h.slots i hlt, List.getElem?_eq_getElem hlt]
    simpa using hlt
  · rw [he.raw i hge]
    simpa using hge

omit [BEq T] in
/-- The destructor destroys the elements that are left. -/
theorem Exact.closed (he : s.Exact objs) (h : s.Holds B objs) : (s.destruct B).Closed := by
  obtain ⟨t, hcall, hholds, hexact⟩ := h.resize_zero true
  have ht := hexact he
  rw [destruct, h.stored.not_injected, hcall]
  exact ⟨fun i => ht.raw i (Nat.zero_le i), fun k hk => ht.ledger.count_settled hk,
    ht.overwritten, ht.strayed⟩

/-! ### Every run -/

/-- **Balanced books.**  In every state reached by calls that pop no element and
set no elements, exactly the slots below `size()` hold an object and nothing was
constructed over one; and when the buffer is then destroyed, every object it
constructed was destroyed exactly once. -/
theorem balanced_of_run {grants : ℕ → Bool} (hgrants : ∀ k, grants k = true)
    {labels : List (BufferCall T × Reply T)}
    (hrun : Run (Guarded (Performs B) (Tidy B)) (start grants) labels s) :
    s.Balanced ∧ (s.destruct B).Closed := by
  have hstart : ∃ objs, Holds B (start grants : BufferState T) objs ∧
      (start grants : BufferState T).Exact objs :=
    ⟨[], holds_initial hgrants nofun, exact_start grants⟩
  have hstep : ∀ (s : BufferState T) label t, (∃ objs, s.Holds B objs ∧ s.Exact objs) →
      Guarded (Performs B) (Tidy B) s label t → ∃ objs, t.Holds B objs ∧ t.Exact objs := by
    rintro s ⟨c, r⟩ t ⟨objs, hholds, hexact⟩ ⟨htidy, hperf⟩
    obtain ⟨objs', hholds', hexact'⟩ := exec_exact hholds hexact htidy
    obtain rfl : (s.exec B c).2 = t := by rw [hperf]
    exact ⟨objs', hholds', hexact'⟩
  obtain ⟨objs, hholds, hexact⟩ := hrun.invariant hstep hstart
  exact ⟨hexact.balanced hholds, hexact.closed hholds⟩

/-- Two elements are pushed, one is removed. -/
theorem balanced_of_run_push_remove :
    ∃ s : BufferState ℕ, Run (Guarded (Performs ⟨32, 64, 8, 0⟩) (Tidy ⟨32, 64, 8, 0⟩))
      (start fun _ => true)
      [(.push 7, .flag true), (.push 8, .flag true), (.removeAt 0, .flag true)] s ∧
      s.Balanced ∧ (s.destruct ⟨32, 64, 8, 0⟩).Closed := by
  have hrun : ∃ s : BufferState ℕ,
      Run (Guarded (Performs ⟨32, 64, 8, 0⟩) (Tidy ⟨32, 64, 8, 0⟩)) (start fun _ => true)
        [(.push 7, .flag true), (.push 8, .flag true), (.removeAt 0, .flag true)] s :=
    ⟨_, Run.cons ⟨⟨⟨by decide, fun _ => by decide⟩, trivial⟩, rfl⟩
      (Run.cons ⟨⟨⟨by decide, fun _ => by decide⟩, trivial⟩, rfl⟩
      (Run.cons ⟨⟨trivial, trivial⟩, rfl⟩ (Run.nil _)))⟩
  obtain ⟨s, hcalls⟩ := hrun
  exact ⟨s, hcalls, balanced_of_run (fun _ => rfl) hcalls⟩

/-- One element is pushed and popped: its slot still holds the object, and the
destructor of the buffer does not destroy it either. -/
theorem not_balanced_after_pop :
    ∃ s : BufferState ℕ, Run (Performs ⟨32, 64, 8, 0⟩) (start fun _ => true)
      [(.push 7, .flag true), (.pop, .popped true (some 7))] s ∧
      ¬ s.Balanced ∧ ¬ (s.destruct ⟨32, 64, 8, 0⟩).Closed := by
  have hrun : ∃ s : BufferState ℕ, Run (Performs ⟨32, 64, 8, 0⟩) (start fun _ => true)
      [(.push 7, .flag true), (.pop, .popped true (some 7))] s ∧
      (s.slot 0).isSome ∧ s.buffer.mSize = 0 ∧
      0 < (s.destruct ⟨32, 64, 8, 0⟩).heap.objects.built ∧
      (s.destruct ⟨32, 64, 8, 0⟩).heap.objects.destroyed.count 0 = 0 :=
    ⟨_, Run.cons rfl (Run.cons rfl (Run.nil _)), rfl, rfl, by decide, rfl⟩
  obtain ⟨s, hcalls, hslot, hsize, hbuilt, hdestroyed⟩ := hrun
  refine ⟨s, hcalls, fun hbalanced => ?_, fun hclosed => ?_⟩
  · have := (hbalanced.live 0).mp hslot
    omega
  · have := hclosed.destroyed 0 hbuilt
    omega

end BufferState

end Tklb
