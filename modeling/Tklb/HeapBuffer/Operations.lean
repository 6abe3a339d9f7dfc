import Tklb.HeapBuffer.Storage

/-!
# The operations of a `HeapBuffer` that owns its memory

`Holds s objs` says that the buffer's elements are the objects `objs`.  For every
operation one theorem says that it succeeds and which objects the buffer holds
afterwards, as values; and, where the operation treats objects as it should, that
it keeps the books balanced (`Exact`).  `pop` and `set` are the two that do not:
`pop` forgets an object that still lives, `set` constructs where objects live.

### What is load-bearing

The two predicates are kept apart on purpose.  `Holds` is about values, and all operations keep
it, `pop` and `set` included, so it is what the refinement of lists uses
(`HeapBuffer.Contents`).  `Exact` is about objects, and only some operations keep it; the books
use that one (`HeapBuffer.Lifetime`).

The operations that may need memory have the same hypotheses: the buffer owns what it has, the
allocator meets the request, and no size is wrapped (`RoundFits`).  What happens without them is in
`Allocation`, `Borrowing`, `Failure` and `Sizes`.  `push` and `set` take values here; `Arguments`
says for which arguments they may.
-/

namespace Tklb

open Foundation HeapBuffer

namespace BufferState

variable {T : Type} {B : BufferType} {s : BufferState T} {objs : List (T × ℕ)}

/-- The elements of the buffer are the objects `objs`, in memory of its own.  An object is a value
with the number of its construction, so that it can be told whether an element is the same object as
before or a copy of it. -/
structure Holds (B : BufferType) (s : BufferState T) (objs : List (T × ℕ)) : Prop where
  stored : s.Stored B
  size : s.buffer.mSize = objs.length
  room : objs.length ≤ s.buffer.mRealSize
  slots : s.Slots objs

/-- Memory of its own is not borrowed. -/
theorem Stored.not_injected (hs : s.Stored B) : s.buffer.injected = false := by
  cases hbuf : s.buffer.mBuf with
  | none => simp [injected, hbuf]
  | some b =>
      have hpos := hs.mRealSize_pos hbuf
      simp only [injected, decide_eq_false_iff_not]
      omega

theorem Stored.isSome_of_room (hs : s.Stored B) {n : ℕ} (hpos : 0 < n)
    (hroom : n ≤ s.buffer.mRealSize) : s.buffer.mBuf.isSome :=
  hs.isSome_iff.mpr (by omega)

theorem Holds.resized (hs : s.Stored B) (hroom : objs.length ≤ s.buffer.mRealSize)
    (hslots : s.Slots objs) :
    Holds B { s with buffer := { s.buffer with mSize := objs.length } } objs :=
  ⟨hs.resized _, rfl, hroom, hslots⟩

/-- The constructor without arguments. -/
theorem holds_initial {h : Heap T} (hgrants : ∀ k, h.grants k = true)
    (hfreed : ∀ b ∈ h.freed, b < h.blocks) : Holds B ⟨h, .initial⟩ [] := by
  refine ⟨⟨by simp [HeapBuffer.initial], ?_, hfreed, hgrants⟩, rfl, le_rfl, Slots.nil⟩
  intro b hb
  simp [HeapBuffer.initial] at hb

/-! ### `resize` -/

/-- The first part of `resize`: the objects behind the new size are destroyed. -/
theorem Holds.destroyTail (h : s.Holds B objs) (n : ℕ) :
    ∃ s₁, (if n < s.buffer.mSize ∧ s.buffer.mBuf.isSome ∧ ¬ s.buffer.injected then
        s.destroyFrom n (s.buffer.mSize - n) else s) = s₁ ∧
      s₁.Stored B ∧ s₁.buffer = s.buffer ∧ s₁.Slots (objs.take n) ∧
      (s.Exact objs → s₁.Exact (objs.take n)) := by
  by_cases hlt : n < objs.length
  · have hbuf := h.stored.isSome_of_room (Nat.zero_lt_of_lt hlt) h.room
    have hkeep : (objs.take n).length = n := by rw [List.length_take]; omega
    have hslots : s.Slots (objs.take n ++ objs.drop n) := by
      rw [List.take_append_drop]
      exact h.slots
    refine ⟨_, rfl, ?_⟩
    rw [if_pos ⟨by rw [h.size]; exact hlt, hbuf, by simp [h.stored.not_injected]⟩, h.size]
    have hdestroyed := destroyFrom_slots hslots
    have hexact := destroyFrom_exact hslots
    rw [hkeep, List.length_drop] at hdestroyed hexact
    rw [List.take_append_drop] at hexact
    exact ⟨h.stored.onMemory _, onMemory_buffer, hdestroyed, hexact⟩
  · refine ⟨s, if_neg (by rw [h.size]; omega), h.stored, rfl, ?_⟩
    rw [List.take_of_length_le (by omega)]
    exact ⟨h.slots, id⟩

/-- The second part of `resize`: afterwards the memory has room for `n`
elements. -/
theorem fitMemory (hs : s.Stored B) (hslots : s.Slots objs)
    (hsize : objs.length ≤ s.buffer.mSize) {n : ℕ} (hn : objs.length ≤ n)
    (hfit : RoundFits B n) (downsize : Bool) :
    ∃ s₂, (if s.buffer.mRealSize < closestChunkSize B n chunkSize ∨
        (downsize ∧ closestChunkSize B n chunkSize < s.buffer.mRealSize) then
        s.allocate B (closestChunkSize B n chunkSize) else (true, s)) = (true, s₂) ∧
      s₂.Stored B ∧ s₂.buffer.mSize = s.buffer.mSize ∧ n ≤ s₂.buffer.mRealSize ∧
      s₂.Slots objs ∧ (s.Exact objs → s₂.Exact objs) := by
  rw [closestChunkSize_eq hfit]
  split
  · obtain ⟨t, hcall, hstored, hsame, hreal, hkept⟩ :=
      allocate_spec hs hfit.2 hslots hsize (by omega)
    exact ⟨t, hcall, hstored, hsame, by omega, hkept⟩
  · exact ⟨s, rfl, hs, rfl, by omega, hslots, id⟩

/-- The last part of `resize`: objects are constructed up to the new size. -/
theorem constructTail [Inhabited T] (hs : s.Stored B) {n : ℕ}
    (hroom : n ≤ s.buffer.mRealSize) (hsize : s.buffer.mSize = objs.length)
    (hslots : s.Slots (objs.take n)) :
    ∃ s₃ objs', (if s.buffer.mSize < n then s.constructFrom s.buffer.mSize
        (List.replicate (n - s.buffer.mSize) default) else s) = s₃ ∧
      s₃.Stored B ∧ s₃.buffer = s.buffer ∧ objs'.length = n ∧ s₃.Slots objs' ∧
      objs'.map Prod.fst = (objs.map Prod.fst).take n ++
        List.replicate (n - objs.length) default ∧
      (s.Exact (objs.take n) → s₃.Exact objs') := by
  rw [hsize]
  by_cases hlt : objs.length < n
  · rw [if_pos hlt]
    have hall : objs.take n = objs := List.take_of_length_le (by omega)
    rw [hall] at hslots ⊢
    have hbuf : List.replicate (n - objs.length) (default : T) ≠ [] →
        s.buffer.mBuf.isSome := fun _ => hs.isSome_of_room (by omega) hroom
    refine ⟨_, _, rfl, hs.onMemory _, onMemory_buffer, ?_,
      constructFrom_slots hslots hbuf, ?_, constructFrom_exact hbuf⟩
    · rw [List.length_append, List.length_zipIdx, List.length_replicate]
      omega
    · rw [List.map_append, List.zipIdx_map_fst, List.take_of_length_le]
      rw [List.length_map]
      omega
  · rw [if_neg hlt]
    refine ⟨s, objs.take n, rfl, hs, rfl, ?_, hslots, ?_, id⟩
    · rw [List.length_take]
      omega
    · rw [List.map_take, show n - objs.length = 0 by omega, List.replicate_zero,
        List.append_nil]

/-- **`resize`** keeps the first elements and appends default values.  Objects behind the new size
are destroyed, and the rest of the new size gets objects of its own; in a buffer that keeps the
books, the books stay balanced. -/
theorem Holds.resize [Inhabited T] (h : s.Holds B objs) {n : ℕ} (hfit : RoundFits B n)
    (downsize : Bool) :
    ∃ t objs', s.resize B n downsize = (true, t) ∧ t.Holds B objs' ∧
      objs'.map Prod.fst = (objs.map Prod.fst).take n ++
        List.replicate (n - objs.length) default ∧
      (s.Exact objs → t.Exact objs') := by
  obtain ⟨s₁, hs₁, hstored₁, hbuffer₁, hslots₁, hexact₁⟩ := h.destroyTail n
  obtain ⟨s₂, hs₂, hstored₂, hsize₂, hroom₂, hslots₂, hexact₂⟩ :=
    fitMemory hstored₁ hslots₁ (by rw [hbuffer₁, h.size, List.length_take]; omega)
      (List.length_take_le _ _) hfit downsize
  obtain ⟨s₃, objs', hs₃, hstored₃, hbuffer₃, hlen, hslots₃, hvalues, hexact₃⟩ :=
    constructTail hstored₂ hroom₂ (by rw [hsize₂, hbuffer₁, h.size]) hslots₂
  subst hlen
  refine ⟨_, objs', ?_, Holds.resized hstored₃ (by rw [hbuffer₃]; exact hroom₂) hslots₃,
    hvalues, fun he => ?_⟩
  · simp only [BufferState.resize, hs₁, hs₂, hs₃, if_true]
  · have he₃ := hexact₃ (hexact₂ (hexact₁ he))
    exact ⟨he₃.raw, he₃.ledger, he₃.overwritten, he₃.strayed⟩

theorem Holds.resize_zero [Inhabited T] (h : s.Holds B objs) (downsize : Bool) :
    ∃ t, s.resize B 0 downsize = (true, t) ∧ t.Holds B [] ∧
      (s.Exact objs → t.Exact []) := by
  have hfit : RoundFits B 0 := ⟨Nat.two_pow_pos _, fun hpos => absurd hpos (lt_irrefl 0)⟩
  obtain ⟨t, objs', hcall, hholds, hvalues, hexact⟩ := h.resize hfit downsize
  obtain rfl : objs' = [] := by simpa using hvalues
  exact ⟨t, hcall, hholds, hexact⟩

/-! ### The other operations -/

/-- **`reserve`** keeps the elements.  They are moved as bytes, so they are the same objects as
before, in the same order; the elements are not copied and not destroyed. -/
theorem Holds.reserve (h : s.Holds B objs) {n : ℕ} (hfit : AllocFits B n) :
    ∃ t, s.reserve B n = (true, t) ∧ t.Holds B objs ∧ (s.Exact objs → t.Exact objs) := by
  rw [BufferState.reserve]
  split
  · exact ⟨s, rfl, h, id⟩
  · have hroom := h.room
    obtain ⟨t, hcall, hstored, hsize, hreal, hslots, hexact⟩ :=
      allocate_spec h.stored hfit h.slots (le_of_eq h.size.symm) (by omega)
    exact ⟨t, hcall, ⟨hstored, hsize.trans h.size, by omega, hslots⟩, hexact⟩

/-- **`set`** replaces the elements.  The new ones are constructed over the
default values `resize` made. -/
theorem Holds.set [Inhabited T] (h : s.Holds B objs) {data : List T}
    (hfit : RoundFits B data.length) :
    ∃ t objs', s.set B data = (true, t) ∧ t.Holds B objs' ∧ objs'.map Prod.fst = data ∧
      (data = [] → s.Exact objs → t.Exact objs') := by
  obtain ⟨s₁, hs₁, hholds₁, hexact₁⟩ : ∃ s₁,
      (if s.buffer.mBuf.isSome then (s.resize B 0 true).2 else s) = s₁ ∧
      s₁.Holds B [] ∧ (s.Exact objs → s₁.Exact []) := by
    by_cases hbuf : s.buffer.mBuf.isSome
    · obtain ⟨t, hcall, hholds, hexact⟩ := h.resize_zero true
      exact ⟨t, by rw [if_pos hbuf, hcall], hholds, hexact⟩
    · obtain rfl : objs = [] := by
        by_contra hne
        exact hbuf (h.slots.isSome hne)
      exact ⟨s, if_neg hbuf, h, id⟩
  obtain ⟨s₂, objs₂, hs₂, hholds₂, hvalues₂, hexact₂⟩ := hholds₁.resize hfit true
  have hlen : objs₂.length = data.length := by
    have := congrArg List.length hvalues₂
    simpa using this
  have hbuf : data ≠ [] → s₂.buffer.mBuf.isSome := fun hne =>
    hholds₂.stored.isSome_of_room (List.length_pos_of_ne_nil hne) (hlen ▸ hholds₂.room)
  refine ⟨s₂.constructFrom 0 data, data.zipIdx s₂.heap.objects.built, ?_,
    ⟨hholds₂.stored.onMemory _, ?_, ?_, ?_⟩, List.zipIdx_map_fst _ _, ?_⟩
  · simp only [BufferState.set, hs₁, hs₂, if_true]
  · rw [constructFrom, onMemory_buffer, hholds₂.size, hlen, List.length_zipIdx]
  · rw [constructFrom, onMemory_buffer, List.length_zipIdx, ← hlen]
    exact hholds₂.room
  · exact constructFrom_slots Slots.nil hbuf
  · rintro rfl he
    obtain rfl : objs₂ = [] := List.eq_nil_of_length_eq_zero hlen
    exact constructFrom_exact hbuf (hexact₂ (hexact₁ he))

/-- **`push`** appends an element.  The object behind the last one is a copy of the argument,
constructed where none lived; what was there before keeps its place in the order. -/
theorem Holds.push (h : s.Holds B objs) (object : T)
    (hfit : RoundFits B (objs.length + 1)) :
    ∃ t objs', s.push B object = (true, t) ∧ t.Holds B objs' ∧
      objs'.map Prod.fst = objs.map Prod.fst ++ [object] ∧
      (s.Exact objs → t.Exact objs') := by
  have hlt := hfit.1
  have hnew : wrap B.sizeBits (s.buffer.mSize + 1) = objs.length + 1 := by
    rw [h.size, wrap_of_lt (by omega)]
  obtain ⟨s₁, hs₁, hstored₁, hsize₁, hroom₁, hslots₁, hexact₁⟩ : ∃ s₁,
      (if s.buffer.mRealSize < objs.length + 1 then
        s.allocate B (closestChunkSize B (objs.length + 1) chunkSize) else (true, s)) =
        (true, s₁) ∧ s₁.Stored B ∧ s₁.buffer.mSize = objs.length ∧
      objs.length + 1 ≤ s₁.buffer.mRealSize ∧ s₁.Slots objs ∧
      (s.Exact objs → s₁.Exact objs) := by
    rw [closestChunkSize_eq hfit]
    split
    · obtain ⟨t, hcall, hstored, hsize, hreal, hslots, hexact⟩ :=
        allocate_spec h.stored hfit.2 h.slots (le_of_eq h.size.symm) (by omega)
      exact ⟨t, hcall, hstored, hsize.trans h.size, by omega, hslots, hexact⟩
    · exact ⟨s, rfl, h.stored, h.size, by omega, h.slots, id⟩
  have hbuf : [object] ≠ [] → s₁.buffer.mBuf.isSome := fun _ =>
    hstored₁.isSome_of_room (Nat.succ_pos _) hroom₁
  have hslots := constructFrom_slots hslots₁ hbuf
  have hlen : (objs ++ [object].zipIdx s₁.heap.objects.built).length = objs.length + 1 := by
    simp
  refine ⟨_, _, ?_, Holds.resized (hstored₁.onMemory _) ?_ hslots, by simp, fun he => ?_⟩
  · simp only [BufferState.push, hnew, hs₁, if_true, hsize₁, hlen, constructFrom]
  · rw [onMemory_buffer, hlen]
    exact hroom₁
  · have he₁ := constructFrom_exact hbuf (hexact₁ he)
    exact ⟨he₁.raw, he₁.ledger, he₁.overwritten, he₁.strayed⟩

/-- **`pop`** returns the last element and drops it.  The object still lives in its slot, only it is
not an element any more; nothing is said about the books for that reason, unless the buffer was
empty. -/
theorem Holds.pop (h : s.Holds B objs) :
    ∃ t, s.pop = ((!objs.isEmpty, (objs.map Prod.fst).getLast?), t) ∧
      t.Holds B objs.dropLast ∧ (objs = [] → t = s) := by
  by_cases hnil : objs = []
  · subst hnil
    refine ⟨s, ?_, h, fun _ => rfl⟩
    rw [BufferState.pop, if_pos (by simpa using h.size)]
    rfl
  · have hlen : 0 < objs.length := List.length_pos_of_ne_nil hnil
    have hsize := h.size
    have hlast : s.value (objs.length - 1) = (objs.map Prod.fst).getLast? := by
      rw [value, h.slots _ (by omega), List.getLast?_eq_getElem?, List.length_map,
        List.getElem?_map]
    have hdrop : objs.dropLast.length = objs.length - 1 := List.length_dropLast
    have hslots : s.Slots objs.dropLast := by
      rw [List.dropLast_eq_take]
      exact h.slots.take _
    refine ⟨{ s with buffer := { s.buffer with mSize := objs.dropLast.length } }, ?_,
      Holds.resized h.stored (by have := h.room; omega) hslots, fun hcontra => absurd hcontra hnil⟩
    have hfull : objs.isEmpty = false := by simpa using hnil
    rw [BufferState.pop, if_neg (by omega), hsize, hlast, hdrop, hfull]
    rfl

/-- The elements after the one at `i` was replaced by the last one. -/
def swapRemove {α : Type} (l : List α) (i : ℕ) : List α :=
  match l.getLast? with
  | none => l
  | some x => (l.set i x).dropLast

theorem swapRemove_concat {α : Type} (init : List α) (y : α) {i : ℕ}
    (hi : i ≤ init.length) : swapRemove (init ++ [y]) i = init.set i y := by
  rw [swapRemove, List.getLast?_concat]
  dsimp only
  rcases Nat.lt_or_ge i init.length with hlt | hge
  · rw [List.set_append_left _ _ hlt]
    exact List.dropLast_concat
  · obtain rfl : i = init.length := le_antisymm hi hge
    rw [List.set_append_right _ _ le_rfl, Nat.sub_self, List.set_eq_of_length_le le_rfl]
    exact List.dropLast_concat

theorem map_swapRemove {α β : Type} (f : α → β) (l : List α) (i : ℕ) :
    (swapRemove l i).map f = swapRemove (l.map f) i := by
  rw [swapRemove, swapRemove, List.getLast?_map]
  cases l.getLast? with
  | none => rfl
  | some x => rw [List.map_dropLast, List.map_set]; rfl

/-- Nothing but the removed element is lost. -/
theorem perm_cons_swapRemove {α : Type} (init : List α) (y x : α) {i : ℕ}
    (hx : (init ++ [y])[i]? = some x) :
    (init ++ [y]).Perm (x :: swapRemove (init ++ [y]) i) := by
  have hi : i < init.length + 1 := by
    have := (List.getElem?_eq_some_iff.mp hx).1
    simpa using this
  rw [swapRemove_concat _ _ (by omega)]
  rcases Nat.lt_or_ge i init.length with hlt | hge
  · rw [List.getElem?_append_left hlt, List.getElem?_eq_getElem hlt, Option.some.injEq] at hx
    subst hx
    have hfirst : (init ++ [y]).Perm (y :: init[i] :: init.eraseIdx i) :=
      (List.perm_append_singleton y init).trans
        ((List.getElem_cons_eraseIdx_perm hlt).symm.cons y)
    have hlast : (y :: init.eraseIdx i).Perm (init.set i y) :=
      (List.set_perm_cons_eraseIdx hlt y).symm
    exact (hfirst.trans (List.Perm.swap _ _ _)).trans (hlast.cons _)
  · obtain rfl : i = init.length := by omega
    rw [List.getElem?_concat_length, Option.some.injEq] at hx
    subst hx
    rw [List.set_eq_of_length_le le_rfl]
    exact List.perm_append_singleton _ _

/-- What `remove` does to the memory: the element is destroyed, and the last one
is moved into the gap if there is one. -/
theorem removeAt_eq {b i n : ℕ} (hb : s.buffer.mBuf = some b)
    (hsize : s.buffer.mSize = n + 1) (hi : i ≤ n) {x : T × ℕ} (hx : s.slot i = some x) :
    ∃ X : ObjectStore T, s.removeAt i =
        (true, ⟨{ s.heap with objects := X }, { s.buffer with mSize := n }⟩) ∧
      (∀ j, X.slot b j =
        if j = n then none else if j = i then s.slot n else s.slot j) ∧
      X.destroyed = x.2 :: s.heap.objects.destroyed ∧
      X.strayed = s.heap.objects.strayed ∧ X.built = s.heap.objects.built ∧
      X.overwritten = s.heap.objects.overwritten := by
  have hslot : ∀ j, s.slot j = s.heap.objects.slot b j := fun j => by rw [slot, hb]; rfl
  rw [hslot] at hx
  obtain ⟨hdestroyed, hstrayed⟩ := ObjectStore.destroy_of_some hx
  by_cases hlast : i = n
  · refine ⟨s.heap.objects.destroy b i, ?_, ?_, hdestroyed, hstrayed, rfl, rfl⟩
    · simp [BufferState.removeAt, destroyFrom, onMemory, hb, hsize, hlast,
        ObjectStore.destroyFrom]
    · intro j
      rw [ObjectStore.destroy_slot, hslot, hslot, hlast]
      split <;> rfl
  · refine ⟨(s.heap.objects.destroy b i).relocate b i n, ?_, ?_, hdestroyed, hstrayed,
      rfl, rfl⟩
    · simp [BufferState.removeAt, destroyFrom, onMemory, hb, hsize, hlast,
        ObjectStore.destroyFrom]
      omega
    · intro j
      rw [ObjectStore.relocate_slot, ObjectStore.destroy_slot, ObjectStore.destroy_slot,
        if_neg (Ne.symm hlast), hslot, hslot]
      split
      · rfl
      · split <;> rfl

/-- **`remove(index)`** replaces an element by the last one.  The order of the others is kept,
except for the last one; the object that was there is destroyed and the last one is moved over it.
-/
theorem Holds.removeAt (h : s.Holds B objs) {i : ℕ} (hi : i < objs.length) :
    ∃ t, s.removeAt i = (true, t) ∧ t.Holds B (swapRemove objs i) ∧
      (s.Exact objs → t.Exact (swapRemove objs i)) := by
  obtain ⟨b, hb⟩ := Option.isSome_iff_exists.mp
    (h.stored.isSome_of_room (Nat.zero_lt_of_lt hi) h.room)
  obtain ⟨init, y, rfl⟩ : ∃ init y, objs = init ++ [y] :=
    ⟨_, _, (List.dropLast_concat_getLast (by rintro rfl; simp at hi)).symm⟩
  have hsize := h.size
  have hroom := h.room
  rw [List.length_append, List.length_singleton] at hi hsize hroom
  have hlive : ∀ j ≤ init.length, s.slot j = (init ++ [y])[j]? := fun j hj =>
    h.slots j (by rw [List.length_append, List.length_singleton]; omega)
  obtain ⟨x, hx⟩ : ∃ x, (init ++ [y])[i]? = some x :=
    ⟨_, List.getElem?_eq_getElem (by simpa using hi)⟩
  obtain ⟨X, hcall, hslot, hdestroyed, hstrayed, hbuilt, hoverwritten⟩ :=
    removeAt_eq hb hsize (by omega) ((hlive i (by omega)).trans hx)
  have hperm := perm_cons_swapRemove init y x hx
  rw [swapRemove_concat _ _ (by omega)] at hperm ⊢
  have hafter : ∀ j, slot ⟨{ s.heap with objects := X },
      { s.buffer with mSize := init.length }⟩ j = X.slot b j := fun j => by
    rw [slot]
    simp only [hb]
    rfl
  refine ⟨_, hcall, ⟨⟨h.stored.isSome_iff, h.stored.block, h.stored.freed_lt,
    h.stored.grants⟩, ?_, ?_, ?_⟩, fun he => ⟨?_, ?_, hoverwritten.trans he.overwritten,
    hstrayed.trans he.strayed⟩⟩
  · simp
  · rw [List.length_set]
    exact (Nat.le_succ _).trans hroom
  · intro j hj
    rw [List.length_set] at hj
    rw [hafter, hslot, if_neg (by omega), List.getElem?_set]
    by_cases hij : i = j
    · rw [if_pos hij.symm, if_pos hij, if_pos (by omega), hlive _ le_rfl,
        List.getElem?_concat_length]
    · rw [if_neg (Ne.symm hij), if_neg hij, hlive j (by omega),
        List.getElem?_append_left hj]
  · intro j hj
    rw [List.length_set] at hj
    rw [hafter, hslot]
    split
    · rfl
    · rw [if_neg (by omega)]
      exact he.raw j (by rw [List.length_append, List.length_singleton]; omega)
  · have hledger := he.ledger.perm (List.Perm.refl _) (hperm.map Prod.snd).symm
    dsimp only
    rw [hbuilt, hdestroyed]
    exact (show Ledger _ _ ([x.2] ++ (init.set i y).map Prod.snd) from hledger).settle

theorem Holds.value_eq (h : s.Holds B objs) {i : ℕ} (hi : i < objs.length) :
    s.value i = (objs.map Prod.fst)[i]? := by
  rw [value, h.slots i hi, List.getElem?_map]

/-- The search of `remove(object)` finds the first equal element. -/
theorem Holds.find_eq (h : s.Holds B objs) (p : T → Bool) :
    ((List.range s.buffer.mSize).find? fun i => (s.value i).any p) =
      (objs.map Prod.fst).findIdx? p := by
  have hany : ∀ i (hi : i < objs.length), (s.value i).any p = p (objs[i].1) := by
    intro i hi
    rw [h.value_eq hi, List.getElem?_map, List.getElem?_eq_getElem hi]
    rfl
  rw [h.size]
  cases hfind : (objs.map Prod.fst).findIdx? p with
  | none =>
      rw [List.find?_range_eq_none]
      intro i hi
      have hnone := List.findIdx?_eq_none_iff.mp hfind (objs[i].1)
        (List.mem_map_of_mem (List.getElem_mem hi))
      rw [hany i hi, hnone]
      rfl
  | some i =>
      obtain ⟨hi, hp, hfirst⟩ := List.findIdx?_eq_some_iff_getElem.mp hfind
      rw [List.length_map] at hi
      rw [List.find?_range_eq_some]
      refine ⟨?_, List.mem_range.mpr hi, fun j hj => ?_⟩
      · rw [hany i hi]
        simpa using hp
      · rw [hany j (by omega)]
        simpa using hfirst j hj

/-- **`remove(object)`** replaces the first equal element by the last one.  The reply says whether
there was one; without one the list of values stays as it is. -/
theorem Holds.removeValue [BEq T] (h : s.Holds B objs) (object : T) :
    ∃ t objs', s.removeValue object =
        (((objs.map Prod.fst).findIdx? (· == object)).isSome, t) ∧ t.Holds B objs' ∧
      objs'.map Prod.fst = (match (objs.map Prod.fst).findIdx? (· == object) with
        | some i => swapRemove (objs.map Prod.fst) i
        | none => objs.map Prod.fst) ∧
      (s.Exact objs → t.Exact objs') := by
  rw [BufferState.removeValue, h.find_eq]
  cases hfind : (objs.map Prod.fst).findIdx? (· == object) with
  | none => exact ⟨s, objs, rfl, h, rfl, id⟩
  | some i =>
      have hi : i < objs.length := by
        have := (List.findIdx?_eq_some_iff_getElem.mp hfind).1
        rwa [List.length_map] at this
      obtain ⟨t, hcall, hholds, hexact⟩ := h.removeAt hi
      exact ⟨t, _, hcall, hholds, map_swapRemove _ _ _, hexact⟩

/-- `remove(object)` by address removes an element or does nothing. -/
theorem Holds.removePointer (h : s.Holds B objs) (object : ℕ × ℕ) :
    ∃ ok t objs', s.removePointer object = (ok, t) ∧ t.Holds B objs' ∧
      (s.Exact objs → t.Exact objs') := by
  rw [BufferState.removePointer]
  cases hfind : (List.range s.buffer.mSize).find? fun i =>
      s.buffer.mBuf.any fun b => (b, i) = object with
  | none => exact ⟨false, s, objs, rfl, h, id⟩
  | some i =>
      have hi := List.mem_range.mp (List.mem_of_find?_eq_some hfind)
      rw [h.size] at hi
      obtain ⟨t, hcall, hholds, hexact⟩ := h.removeAt hi
      exact ⟨true, t, _, hcall, hholds, hexact⟩

end BufferState

end Tklb
