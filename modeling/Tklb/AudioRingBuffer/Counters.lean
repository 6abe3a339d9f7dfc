import Tklb.AudioRingBuffer.Fifo
import Tklb.AudioBuffer.ValidSize

/-!
# The counters of an `AudioRingBuffer` and its capacity

`mHead` and `mTail` belong to the ring, the capacity `size()` to the buffer it is
derived from.  The operations of the ring keep the counters within the capacity
(`Bounded`), and as long as they are, every index handed on to `set` is inside
(`Inside`).  But the operations inherited from `AudioBuffer` change the capacity and
know nothing of the counters, and `peek` subtracts its `offsetSrc` from the fill count
without asking whether there is as much.

`Keeps` is the side condition under which neither happens: a new capacity is one the
counters fit in, and an offset is not larger than the fill count.  `Bounded.step` says
what one step does under it, and `bounded_of_run` what holds in every state reached.

### Main results

* `RingOp` are the public operations of both classes, on any number of rings; the ones that only
  change samples are a single constructor.
* `Keeps` is the side condition and `OpFits` says that no size wraps.
* `Inside` is about indices: the model calls `set` with offsets and lengths, and `peekCopies` and
  `pushCopies` list those calls; `peek_eq_copyAll` and `push_eq_copyAll` say that the functions
  are these calls and nothing else, so a bound on the list is a bound on every index.
* `AllBounded.step` and `bounded_of_run` are the step and the run.

### What is load-bearing

`Bounded` asks nothing of `mTail` where there is no capacity, as in a new ring or in one whose
storage was taken away: no index is below `size()` there.  The side condition speaks of
the capacity an operation leads to (`capacityAfter`), which is computed from its arguments and
the allocator's answer alone, so it can be checked before the operation is made.
-/

namespace Tklb

open Foundation AudioBuffer

namespace AudioRingBuffer

variable {w : ℕ} {α : Type}

/-- The counters are within the capacity.  This is what a caller may rely on: `filled()` and
`remaining()` are numbers of frames, and every index into the buffer is one of its frames. -/
structure Bounded (r : AudioRingBuffer w α) : Prop where
  head_le : r.mHead ≤ r.base.size
  tail_lt : 0 < r.base.size → r.mTail < r.base.size

/-! ### The copies of `peek` and `push` -/

/-- The arguments of one call of `set` from a buffer. -/
structure Copy where
  length : ℕ
  offsetSrc : ℕ
  offsetDst : ℕ

/-- Several calls of `set` from the same buffer. -/
def copyAll (b buffer : AudioBuffer w α) (copies : List Copy) : AudioBuffer w α :=
  copies.foldl (fun b c => b.setBuffer buffer c.length c.offsetSrc c.offsetDst) b

/-- The calls `out.set(*this, ...)` of `peek`. -/
def peekCopies (r : AudioRingBuffer w α) (elements offsetSrc offsetDst : ℕ) : List Copy :=
  let head := wsub w r.mHead offsetSrc
  let elements := if head < elements then head else elements
  if 0 < elements then
    let tailStart := wsub w r.mTail head
    let tailStart := if r.mTail < head then wrap w (tailStart + r.base.size) else tailStart
    let spaceLeft := wsub w r.base.size tailStart
    if spaceLeft < elements then
      [⟨spaceLeft, tailStart, offsetDst⟩,
        ⟨wsub w elements spaceLeft, 0, wrap w (spaceLeft + offsetDst)⟩]
    else [⟨elements, tailStart, offsetDst⟩]
  else []

/-- The calls `Base::set(in, ...)` of `push`. -/
def pushCopies (r : AudioRingBuffer w α) (input : AudioBuffer w α) (offsetSrc : ℕ) :
    List Copy :=
  let spaceLeftHead := wsub w r.base.size r.mHead
  let elements := input.mValidSize
  let elements := if spaceLeftHead < elements then spaceLeftHead else elements
  if 0 < elements then
    let spaceLeftTail := wsub w r.base.size r.mTail
    if spaceLeftTail < elements then
      [⟨spaceLeftTail, wrap w (0 + offsetSrc), r.mTail⟩,
        ⟨wsub w elements spaceLeftTail, wrap w (spaceLeftTail + offsetSrc), 0⟩]
    else [⟨elements, offsetSrc, r.mTail⟩]
  else []

/-- `peek` reads the ring by these calls and in no other way. -/
theorem peek_eq_copyAll (r : AudioRingBuffer w α) (out : AudioBuffer w α)
    (elements offsetSrc offsetDst : ℕ) :
    (r.peek out elements offsetSrc offsetDst).2 =
      (copyAll out r.base (r.peekCopies elements offsetSrc offsetDst)).setValidSize
        (r.peek out elements offsetSrc offsetDst).1 := by
  unfold peek peekCopies copyAll
  dsimp only
  generalize (if wsub w r.mHead offsetSrc < elements then wsub w r.mHead offsetSrc
    else elements) = k
  by_cases hpos : 0 < k
  · rw [if_pos hpos, if_pos hpos]
    generalize (if r.mTail < wsub w r.mHead offsetSrc then _ else _) = start
    split <;> rfl
  · rw [if_neg hpos, if_neg hpos]
    rfl

/-- `push` writes to the ring by these calls and in no other way. -/
theorem push_eq_copyAll (r : AudioRingBuffer w α) (input : AudioBuffer w α) (offsetSrc : ℕ) :
    (r.push input offsetSrc).2.base = copyAll r.base input (r.pushCopies input offsetSrc) := by
  unfold push pushCopies copyAll
  dsimp only
  generalize (if wsub w r.base.size r.mHead < input.mValidSize then wsub w r.base.size r.mHead
    else input.mValidSize) = k
  by_cases hpos : 0 < k
  · rw [if_pos hpos, if_pos hpos]
    split <;> rfl
  · rw [if_neg hpos, if_neg hpos]
    rfl

/-- `set` calls leave the capacity alone. -/
theorem copyAll_size (b buffer : AudioBuffer w α) (copies : List Copy) :
    (copyAll b buffer copies).size = b.size := by
  unfold copyAll
  induction copies generalizing b with
  | nil => rfl
  | cons c copies ih =>
      rw [List.foldl_cons, ih]
      exact setBuffer_size

/-- Every index read by the call is below `size`. -/
def Copy.ReadsBelow (size : ℕ) (c : Copy) : Prop := ∀ k < c.length, c.offsetSrc + k < size

/-- Every index written by the call is below `size`. -/
def Copy.WritesBelow (size : ℕ) (c : Copy) : Prop := ∀ k < c.length, c.offsetDst + k < size

/-- A call that ends inside reads inside. -/
theorem Copy.readsBelow_of_le {size : ℕ} {c : Copy} (hend : c.offsetSrc + c.length ≤ size) :
    c.ReadsBelow size :=
  fun _ hk => (Nat.add_lt_add_left hk _).trans_le hend

/-- A call that ends inside writes inside. -/
theorem Copy.writesBelow_of_le {size : ℕ} {c : Copy} (hend : c.offsetDst + c.length ≤ size) :
    c.WritesBelow size :=
  fun _ hk => (Nat.add_lt_add_left hk _).trans_le hend

namespace Bounded

variable {r : AudioRingBuffer w α} (h : r.Bounded)
include h

/-- `remaining()` does not wrap. -/
theorem remaining_eq : r.remaining = r.base.size - r.mHead :=
  wsub_of_le r.base.size_lt h.head_le

/-- **`peek` reads inside**, if the frames it starts behind are there.  With nothing asked for,
nothing is read, whatever the offset is; else the offset must not be past what is there, which the
code does not check. -/
theorem peekCopies_below {elements offsetSrc : ℕ} (offsetDst : ℕ)
    (hoffset : elements = 0 ∨ offsetSrc ≤ r.mHead) :
    ∀ c ∈ r.peekCopies elements offsetSrc offsetDst, c.ReadsBelow r.base.size := by
  have hlt := r.base.size_lt
  have hhead := h.head_le
  intro c hc
  unfold peekCopies at hc
  rcases hoffset with rfl | hoffset
  · simp at hc
  rw [wsub_of_le (by omega) hoffset] at hc
  dsimp only at hc
  generalize hk : (if r.mHead - offsetSrc < elements then r.mHead - offsetSrc else elements) = k
    at hc
  have hkle : k ≤ r.mHead - offsetSrc := by
    rw [← hk]
    split <;> omega
  by_cases hpos : 0 < k
  · have hsize : 0 < r.base.size := by omega
    have hstart := slot_lt hsize r.mTail (r.mHead - offsetSrc) 0
    rw [if_pos hpos, tailStart_eq_slot hlt (h.tail_lt hsize) (by omega)] at hc
    generalize slot r.base.size r.mTail (r.mHead - offsetSrc) 0 = start at hc hstart
    rw [wsub_of_le hlt hstart.le] at hc
    by_cases hwraps : r.base.size - start < k
    · rw [if_pos hwraps, wsub_of_le (by omega) hwraps.le] at hc
      have hback : start + (r.base.size - start) ≤ r.base.size := by omega
      have hfront : 0 + (k - (r.base.size - start)) ≤ r.base.size := by omega
      rcases List.mem_pair.mp hc with rfl | rfl
      · exact Copy.readsBelow_of_le hback
      · exact Copy.readsBelow_of_le hfront
    · rw [if_neg hwraps] at hc
      have hall : start + k ≤ r.base.size := by omega
      obtain rfl := List.mem_singleton.mp hc
      exact Copy.readsBelow_of_le hall
  · rw [if_neg hpos] at hc
    exact absurd hc List.not_mem_nil

/-- **`pop`** takes out no more than there is.  Under the condition on the offset the fill count
goes down by at most itself, so it does not wrap. -/
theorem pop {out : AudioBuffer w α} {elements offsetSrc offsetDst : ℕ}
    (hoffset : elements = 0 ∨ offsetSrc ≤ r.mHead) :
    (r.pop out elements offsetSrc offsetDst).2.2.Bounded := by
  have hlt := r.base.size_lt
  have hhead := h.head_le
  have hcount : (r.peek out elements offsetSrc offsetDst).1 ≤ r.mHead := by
    show (if wsub w r.mHead offsetSrc < elements then wsub w r.mHead offsetSrc else elements) ≤ _
    rcases hoffset with rfl | hoffset
    · rw [if_neg (Nat.not_lt_zero _)]
      exact Nat.zero_le _
    · rw [wsub_of_le (by omega) hoffset]
      split <;> omega
  refine ⟨?_, h.tail_lt⟩
  show wsub w r.mHead (r.peek out elements offsetSrc offsetDst).1 ≤ r.base.size
  rw [wsub_of_le (by omega) hcount]
  omega

/-- **`push` writes inside.**  No condition is needed here: the number of frames is clamped to the
room there is, and the position is taken modulo the size. -/
theorem pushCopies_below (input : AudioBuffer w α) (offsetSrc : ℕ) :
    ∀ c ∈ r.pushCopies input offsetSrc, c.WritesBelow r.base.size := by
  have hlt := r.base.size_lt
  have hhead := h.head_le
  intro c hc
  unfold pushCopies at hc
  rw [wsub_of_le hlt hhead] at hc
  dsimp only at hc
  generalize hk : (if r.base.size - r.mHead < input.mValidSize then r.base.size - r.mHead
    else input.mValidSize) = k at hc
  have hkle : k ≤ r.base.size - r.mHead := by
    rw [← hk]
    split <;> omega
  by_cases hpos : 0 < k
  · have htail := h.tail_lt (by omega)
    rw [if_pos hpos, wsub_of_le hlt htail.le] at hc
    by_cases hwraps : r.base.size - r.mTail < k
    · rw [if_pos hwraps, wsub_of_le (by omega) hwraps.le] at hc
      have hback : r.mTail + (r.base.size - r.mTail) ≤ r.base.size := by omega
      have hfront : 0 + (k - (r.base.size - r.mTail)) ≤ r.base.size := by omega
      rcases List.mem_pair.mp hc with rfl | rfl
      · exact Copy.writesBelow_of_le hback
      · exact Copy.writesBelow_of_le hfront
    · rw [if_neg hwraps] at hc
      have hall : r.mTail + k ≤ r.base.size := by omega
      obtain rfl := List.mem_singleton.mp hc
      exact Copy.writesBelow_of_le hall
  · rw [if_neg hpos] at hc
    exact absurd hc List.not_mem_nil

/-- **`push`** adds no more than there is room for.  The fill count goes up by at most the remaining
room, for any input and any offset into it. -/
theorem push (input : AudioBuffer w α) (offsetSrc : ℕ) : (r.push input offsetSrc).2.Bounded := by
  have hlt := r.base.size_lt
  have hhead := h.head_le
  have hsize : (r.push input offsetSrc).2.base.size = r.base.size := by
    rw [push_eq_copyAll, copyAll_size]
  suffices hcounters : (r.push input offsetSrc).2.mHead ≤ r.base.size ∧
      (0 < r.base.size → (r.push input offsetSrc).2.mTail < r.base.size) by
    exact ⟨hsize ▸ hcounters.1, hsize ▸ hcounters.2⟩
  unfold AudioRingBuffer.push
  rw [wsub_of_le hlt hhead]
  dsimp only
  generalize hk : (if r.base.size - r.mHead < input.mValidSize then r.base.size - r.mHead
    else input.mValidSize) = k
  have hkle : k ≤ r.base.size - r.mHead := by
    rw [← hk]
    split <;> omega
  by_cases hpos : 0 < k
  · have htail := h.tail_lt (by omega)
    have hfill : wrap w (r.mHead + k) = r.mHead + k := wrap_of_lt (by omega)
    rw [if_pos hpos, wsub_of_le hlt htail.le, hfill]
    by_cases hwraps : r.base.size - r.mTail < k
    · rw [if_pos hwraps, wsub_of_le (by omega) hwraps.le]
      show r.mHead + k ≤ r.base.size ∧
        (0 < r.base.size → k - (r.base.size - r.mTail) < r.base.size)
      omega
    · rw [if_neg hwraps]
      show r.mHead + k ≤ r.base.size ∧ (0 < r.base.size →
        (if r.base.size - r.mTail = k then 0 else wrap w (r.mTail + k)) < r.base.size)
      refine ⟨by omega, fun hsize => ?_⟩
      split
      · exact hsize
      · rw [wrap_of_lt (by omega)]
        omega
  · rw [if_neg hpos]
    exact ⟨hhead, h.tail_lt⟩

/-- `pushOver` takes out no more than there is. -/
theorem pushOut (elements : ℕ) : (r.pushOut elements).Bounded := by
  have hlt := r.base.size_lt
  have hhead := h.head_le
  unfold AudioRingBuffer.pushOut
  split
  · refine ⟨?_, h.tail_lt⟩
    show wsub w r.mHead (if r.mHead < elements then r.mHead else elements) ≤ r.base.size
    rw [wsub_of_le (by omega) (by split <;> omega)]
    omega
  · exact h

/-- A new base with the same capacity. -/
theorem samples {base : AudioBuffer w α} (hsize : base.size = r.base.size) :
    Bounded { r with base := base } :=
  ⟨hsize ▸ h.head_le, hsize ▸ h.tail_lt⟩

end Bounded

/-! ### Rings in use -/

/-- A public operation on one of several rings.  Those that only change samples
(`set`, `add`, `multiply`) are one: `SameShape` says that the `set` overloads are
such. -/
inductive RingOp (w : ℕ) (α : Type)
  | resize (i : ℕ) (length : Fin (2 ^ w)) (chan : Fin (2 ^ 8)) (stored : Bool)
  | resizeLength (i : ℕ) (length : Fin (2 ^ w)) (stored : Bool)
  | resizeLike (i : ℕ) (buffer : AudioBuffer w α) (stored : Bool)
  | clone (i : ℕ) (buffer : AudioBuffer w α) (stored : Bool)
  | inject (i : ℕ) (mem : ℕ → α) (size : Fin (2 ^ w)) (chan : Fin (2 ^ 8)) (aligned : Bool)
  | samples (i : ℕ) (cell : ℕ → α)
  | setFromInterleaved (i : ℕ) (samples : ℕ → α) (length chan offsetSrc offsetDst : ℕ)
  | setValidSize (i v : ℕ)
  | move (i source : ℕ)
  | reset (i : ℕ)
  | push (i : ℕ) (input : AudioBuffer w α) (offsetSrc : ℕ)
  | pushOver (i : ℕ) (input : AudioBuffer w α)
  | peek (i : ℕ) (out : AudioBuffer w α) (elements offsetSrc offsetDst : ℕ)
  | pop (i : ℕ) (out : AudioBuffer w α) (elements offsetSrc offsetDst : ℕ)

section Session

variable [Zero α] (B : BufferType)

/-- Replace the base of one ring. -/
def rebase (s : ℕ → AudioRingBuffer w α) (i : ℕ) (base : AudioBuffer w α) :
    ℕ → AudioRingBuffer w α :=
  Function.update s i { s i with base := base }

/-- Perform an operation. -/
def exec (s : ℕ → AudioRingBuffer B.sizeBits α) :
    RingOp B.sizeBits α → Option (ℕ → AudioRingBuffer B.sizeBits α)
  | .resize i length chan stored =>
      some (rebase s i ((s i).base.resize B length chan stored))
  | .resizeLength i length stored => some (rebase s i ((s i).base.resizeLength B length stored))
  | .resizeLike i buffer stored => some (rebase s i ((s i).base.resizeLike B buffer stored))
  | .clone i buffer stored => some (rebase s i ((s i).base.clone B buffer stored))
  | .inject i mem size chan aligned =>
      ((s i).base.inject mem size chan aligned).map (rebase s i)
  | .samples i cell => some (rebase s i ((s i).base.withCells cell))
  | .setFromInterleaved i samples length chan offsetSrc offsetDst =>
      some (rebase s i ((s i).base.setFromInterleaved samples length chan offsetSrc offsetDst))
  | .setValidSize i v => some (rebase s i ((s i).base.setValidSize v))
  | .move i source =>
      -- the counters are copied with the moved buffer
      let (target, rest) := (s source).base.move
      some (Function.update (Function.update s source { s source with base := rest }) i
        { s source with base := target })
  | .reset i => some (Function.update s i (s i).reset)
  | .push i input offsetSrc => some (Function.update s i ((s i).push input offsetSrc).2)
  | .pushOver i input => some (Function.update s i ((s i).pushOver input).2)
  | .peek _ _ _ _ _ => some s
  | .pop i out elements offsetSrc offsetDst =>
      some (Function.update s i ((s i).pop out elements offsetSrc offsetDst).2.2)

/-- One operation. -/
abbrev Operates : (ℕ → AudioRingBuffer B.sizeBits α) → RingOp B.sizeBits α →
    (ℕ → AudioRingBuffer B.sizeBits α) → Prop :=
  StepOf (exec B)

/-- No size is wrapped.  It concerns the operations that give the ring a new size; the others
compute with numbers that are in the ring already. -/
def OpFits (s : ℕ → AudioRingBuffer B.sizeBits α) : RingOp B.sizeBits α → Prop
  | .resize _ length chan _ => SizeFits B length chan
  | .resizeLength i length _ => SizeFits B length (max 1 (s i).base.mChannels)
  | .resizeLike _ buffer _ | .clone _ buffer _ => SizeFits B buffer.size buffer.mChannels
  | _ => True

/-- The capacity a buffer has after `resize(length, chan)`. -/
def capacityAfter (b : AudioBuffer B.sizeBits α) (length chan : ℕ) (stored : Bool) : ℕ :=
  if chan = b.mChannels ∧ b.size = length then b.size
  else if stored ∧ 0 < chan then padded B length else 0

/-- The counters fit in a capacity. -/
def FitsIn (r : AudioRingBuffer w α) (capacity : ℕ) : Prop :=
  r.mHead ≤ capacity ∧ (0 < capacity → r.mTail < capacity)

/-- **The side condition.**  The counters of the ring fit in a new capacity, and
frames are only asked for from behind frames that are there. -/
def Keeps (s : ℕ → AudioRingBuffer B.sizeBits α) : RingOp B.sizeBits α → Prop
  | .resize i length chan stored => FitsIn (s i) (capacityAfter B (s i).base length chan stored)
  | .resizeLength i length stored =>
      FitsIn (s i) (capacityAfter B (s i).base length (max 1 (s i).base.mChannels) stored)
  | .resizeLike i buffer stored | .clone i buffer stored =>
      FitsIn (s i) (capacityAfter B (s i).base buffer.size buffer.mChannels stored)
  | .inject i _ size chan aligned => aligned → FitsIn (s i) ((size : ℕ) / chan)
  | .peek i _ elements offsetSrc _ | .pop i _ elements offsetSrc _ =>
      elements = 0 ∨ offsetSrc ≤ (s i).mHead
  | _ => True

/-- Every index the operation reads from the ring or writes to it is inside. -/
def Inside (s : ℕ → AudioRingBuffer B.sizeBits α) : RingOp B.sizeBits α → Prop
  | .push i input offsetSrc =>
      ∀ c ∈ (s i).pushCopies input offsetSrc, c.WritesBelow (s i).base.size
  | .pushOver i input =>
      ∀ c ∈ ((s i).pushOut input.mValidSize).pushCopies input 0, c.WritesBelow (s i).base.size
  | .peek i _ elements offsetSrc offsetDst | .pop i _ elements offsetSrc offsetDst =>
      ∀ c ∈ (s i).peekCopies elements offsetSrc offsetDst, c.ReadsBelow (s i).base.size
  | _ => True

variable {B}

/-- `capacityAfter` is the capacity. -/
theorem resize_size_eq {b : AudioBuffer B.sizeBits α} {length : Fin (2 ^ B.sizeBits)}
    {chan : Fin (2 ^ 8)} (hfit : SizeFits B length chan) (stored : Bool) :
    (b.resize B length chan stored).size = capacityAfter B b length chan stored := by
  unfold capacityAfter
  by_cases hsame : chan = b.mChannels ∧ b.size = length
  · rw [if_pos hsame, resize_of_same hsame]
  rw [if_neg hsame]
  by_cases hchan : 0 < (chan : ℕ)
  · cases stored with
    | true => rw [if_pos ⟨rfl, hchan⟩, resize_size hfit hsame hchan]
    | false =>
        rw [if_neg (fun h => Bool.false_ne_true h.1), size_eq,
          resize_mBufferSize hfit hsame, if_neg Bool.false_ne_true, Nat.zero_div]
  · rw [if_neg (fun h => hchan h.2)]
    exact size_of_no_channels ((resize_mChannels b length chan stored).trans (by omega))

/-- All rings are `Bounded`. -/
def AllBounded (s : ℕ → AudioRingBuffer w α) : Prop := ∀ i, (s i).Bounded

omit [Zero α] in
theorem AllBounded.update {s : ℕ → AudioRingBuffer w α} (h : AllBounded s) {i : ℕ}
    {r : AudioRingBuffer w α} (hr : r.Bounded) : AllBounded (Function.update s i r) :=
  (Function.forall_update_iff s fun _ r => r.Bounded).mpr ⟨hr, fun j _ => h j⟩

omit [Zero α] in
/-- A new base whose capacity the counters fit in. -/
theorem AllBounded.rebase {s : ℕ → AudioRingBuffer w α} (h : AllBounded s) {i : ℕ}
    {base : AudioBuffer w α} (hfits : FitsIn (s i) base.size) :
    AllBounded (rebase s i base) :=
  h.update ⟨hfits.1, hfits.2⟩

theorem AllBounded.resize {s : ℕ → AudioRingBuffer B.sizeBits α} (h : AllBounded s) {i : ℕ}
    {length : Fin (2 ^ B.sizeBits)} {chan : Fin (2 ^ 8)} {stored : Bool}
    (hfit : SizeFits B length chan)
    (hkeeps : FitsIn (s i) (capacityAfter B (s i).base length chan stored)) :
    AllBounded (AudioRingBuffer.rebase s i ((s i).base.resize B length chan stored)) := by
  refine h.rebase ?_
  rwa [resize_size_eq hfit]

/-- **One operation** that meets the side condition keeps the counters within the
capacity. -/
theorem AllBounded.step {s t : ℕ → AudioRingBuffer B.sizeBits α} {op : RingOp B.sizeBits α}
    (h : AllBounded s) (hfit : OpFits B s op) (hkeeps : Keeps B s op)
    (hstep : Operates B s op t) : AllBounded t := by
  unfold Operates StepOf at hstep
  cases op with
  | resize i length chan stored =>
      obtain rfl := Option.some.inj hstep
      exact h.resize hfit hkeeps
  | resizeLength i length stored =>
      obtain rfl := Option.some.inj hstep
      exact h.resize hfit hkeeps
  | resizeLike i buffer stored =>
      obtain rfl := Option.some.inj hstep
      exact h.resize hfit hkeeps
  | clone i buffer stored =>
      obtain rfl := Option.some.inj hstep
      have hlike : AllBounded
          (AudioRingBuffer.rebase s i ((s i).base.resizeLike B buffer stored)) :=
        AllBounded.resize h hfit hkeeps
      have hi := hlike i
      rw [AudioRingBuffer.rebase, Function.update_self] at hi
      refine h.rebase ?_
      rw [AudioBuffer.clone, setBuffer_size]
      exact ⟨hi.head_le, hi.tail_lt⟩
  | inject i mem size chan aligned =>
      obtain ⟨base, hbase, rfl⟩ := Option.map_eq_some_iff.mp hstep
      refine h.rebase ?_
      unfold AudioBuffer.inject at hbase
      split at hbase
      · rename_i haligned
        split at hbase
        · cases hbase
        · obtain rfl := Option.some.inj hbase
          rw [size_eq]
          exact hkeeps haligned
      · obtain rfl := Option.some.inj hbase
        exact ⟨(h i).head_le, (h i).tail_lt⟩
  | samples i cell =>
      obtain rfl := Option.some.inj hstep
      exact h.update ((h i).samples rfl)
  | setFromInterleaved i samples length chan offsetSrc offsetDst =>
      obtain rfl := Option.some.inj hstep
      exact h.update ((h i).samples rfl)
  | setValidSize i v =>
      obtain rfl := Option.some.inj hstep
      exact h.update ((h i).samples rfl)
  | move i source =>
      obtain rfl := Option.some.inj hstep
      exact (h.update (h source)).update (h source)
  | reset i =>
      obtain rfl := Option.some.inj hstep
      exact h.update ⟨Nat.zero_le _, id⟩
  | push i input offsetSrc =>
      obtain rfl := Option.some.inj hstep
      exact h.update ((h i).push input offsetSrc)
  | pushOver i input =>
      obtain rfl := Option.some.inj hstep
      exact h.update (((h i).pushOut _).push input 0)
  | peek i out elements offsetSrc offsetDst =>
      obtain rfl := Option.some.inj hstep
      exact h
  | pop i out elements offsetSrc offsetDst =>
      obtain rfl := Option.some.inj hstep
      exact h.update ((h i).pop hkeeps)

omit [Zero α] in
/-- `pushOver` does not touch the storage before it pushes. -/
theorem pushOut_base (r : AudioRingBuffer w α) (elements : ℕ) :
    (r.pushOut elements).base = r.base := by
  unfold pushOut
  split <;> rfl

omit [Zero α] in
/-- An operation that meets the side condition stays inside. -/
theorem AllBounded.inside {s : ℕ → AudioRingBuffer B.sizeBits α} {op : RingOp B.sizeBits α}
    (h : AllBounded s) (hkeeps : Keeps B s op) : Inside B s op := by
  cases op with
  | push i input offsetSrc => exact (h i).pushCopies_below input offsetSrc
  | pushOver i input =>
      have hinside := ((h i).pushOut input.mValidSize).pushCopies_below input 0
      rwa [pushOut_base] at hinside
  | peek i out elements offsetSrc offsetDst => exact (h i).peekCopies_below offsetDst hkeeps
  | pop i out elements offsetSrc offsetDst => exact (h i).peekCopies_below offsetDst hkeeps
  | _ => trivial

/-- **The counters stay within the capacity.**  In every state reached from
default-constructed rings by operations that wrap no size and meet the side condition,
`mHead ≤ size()`, `mTail < size()` unless the ring has no capacity, `remaining()` is
the difference, and the next operation that meets the side condition only reads and
writes inside the ring. -/
theorem bounded_of_run {ops : List (RingOp B.sizeBits α)}
    {s : ℕ → AudioRingBuffer B.sizeBits α}
    (hrun : Run (Guarded (Operates B) fun s op => OpFits B s op ∧ Keeps B s op)
      (fun _ => AudioRingBuffer.initial AudioBuffer.initial) ops s) :
    (∀ i, (s i).mHead ≤ (s i).base.size ∧
      (0 < (s i).base.size → (s i).mTail < (s i).base.size) ∧
      (s i).remaining = (s i).base.size - (s i).mHead) ∧
    ∀ op, Keeps B s op → Inside B s op := by
  have hall : AllBounded s := by
    refine hrun.invariant (I := AllBounded) ?_ fun _ => ⟨Nat.zero_le _, id⟩
    rintro s op t hs ⟨⟨hfit, hkeeps⟩, hstep⟩
    exact hs.step hfit hkeeps hstep
  exact ⟨fun i => ⟨(hall i).head_le, (hall i).tail_lt, (hall i).remaining_eq⟩,
    fun op hkeeps => hall.inside hkeeps⟩

/-- A ring of eight frames: six in, four out, then it is resized to four and filled. -/
theorem bounded_after_small_resize :
    let input : AudioBuffer 32 ℤ :=
      ⟨fun _ => 1, 8, 6, 1, by decide, by decide, by decide, by decide⟩
    ∃ s : ℕ → AudioRingBuffer 32 ℤ,
      Run (Guarded (Operates ⟨32, 64, 4, 16⟩)
          fun s op => OpFits ⟨32, 64, 4, 16⟩ s op ∧ Keeps ⟨32, 64, 4, 16⟩ s op)
        (fun _ => AudioRingBuffer.initial AudioBuffer.initial)
        [.resize 0 8 1 true, .push 0 input 0, .pop 0 input 4 0 0, .reset 0, .resize 0 4 1 true,
          .push 0 input 0] s ∧
      (s 0).mHead ≤ (s 0).base.size ∧ (0 < (s 0).base.size → (s 0).mTail < (s 0).base.size) ∧
      (s 0).remaining = (s 0).base.size - (s 0).mHead := by
  intro input
  have hrun : ∃ s : ℕ → AudioRingBuffer 32 ℤ,
      Run (Guarded (Operates ⟨32, 64, 4, 16⟩)
          fun s op => OpFits ⟨32, 64, 4, 16⟩ s op ∧ Keeps ⟨32, 64, 4, 16⟩ s op)
        (fun _ => AudioRingBuffer.initial AudioBuffer.initial)
        [.resize 0 8 1 true, .push 0 input 0, .pop 0 input 4 0 0, .reset 0, .resize 0 4 1 true,
          .push 0 input 0] s := by
    refine ⟨_, Run.cons ⟨⟨?_, ?_⟩, rfl⟩ (Run.cons ⟨⟨trivial, trivial⟩, rfl⟩
      (Run.cons ⟨⟨trivial, ?_⟩, rfl⟩ (Run.cons ⟨⟨trivial, trivial⟩, rfl⟩
      (Run.cons ⟨⟨?_, ?_⟩, rfl⟩ (Run.cons ⟨⟨trivial, trivial⟩, rfl⟩ (Run.nil _))))))⟩
    · show SizeFits ⟨32, 64, 4, 16⟩ 8 1
      decide
    · exact ⟨Nat.zero_le _, id⟩
    · exact Or.inr (Nat.zero_le _)
    · show SizeFits ⟨32, 64, 4, 16⟩ 4 1
      decide
    · exact ⟨Nat.zero_le _, id⟩
  obtain ⟨s, hs⟩ := hrun
  exact ⟨s, hs, (bounded_of_run hs).1 0⟩

/-- A ring of eight frames that holds six is resized to four: it then has more frames
than room, and `remaining()` wraps. -/
theorem not_bounded_after_small_resize :
    let input : AudioBuffer 32 ℤ :=
      ⟨fun _ => 1, 8, 6, 1, by decide, by decide, by decide, by decide⟩
    ∃ s : ℕ → AudioRingBuffer 32 ℤ,
      Run (Guarded (Operates ⟨32, 64, 4, 16⟩) (OpFits ⟨32, 64, 4, 16⟩))
        (fun _ => AudioRingBuffer.initial AudioBuffer.initial)
        [.resize 0 8 1 true, .push 0 input 0, .resize 0 4 1 true] s ∧
      (s 0).mHead = 6 ∧ (s 0).base.size = 4 ∧ (s 0).remaining = 2 ^ 32 - 2 := by
  intro input
  refine ⟨_, Run.cons ⟨?_, rfl⟩ (Run.cons ⟨trivial, rfl⟩ (Run.cons ⟨?_, rfl⟩ (Run.nil _))),
    by decide, by decide, by decide⟩
  · show SizeFits ⟨32, 64, 4, 16⟩ 8 1
    decide
  · show SizeFits ⟨32, 64, 4, 16⟩ 4 1
    decide

end Session

end AudioRingBuffer

end Tklb
