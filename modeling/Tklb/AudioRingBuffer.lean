import Tklb.AudioBuffer

/-!
# `AudioRingBuffer`

An `AudioBuffer` used as a queue of frames.  `mHead` is the number of frames in
it and `mTail` the index the next frame goes to; the index of the oldest frame is
not kept but computed from the two, by an unsigned subtraction that wraps around
when the queue does.  Both reading and writing fall into two pieces when they run
over the end of the storage.

This file is the model of `push`, `pushOver`, `peek`, `pop` and `reset`, for buffers
of one sample type.

### How the model is laid out

The ring is an `AudioBuffer` and two counters, and every function of the class is one definition
here, with the branches and the order of the source: `push` clamps first and copies afterwards,
`peek` computes where the oldest frame is and copies in one piece or in two, `pop` is `peek` and
a subtraction, `pushOver` makes room and pushes.  The copies are calls of `setBuffer`, so what
they do to samples is known from there.

The counters carry no bound as a field of the structure, unlike the sizes of the buffer: the
class does not keep them within one (`AudioRingBuffer.Counters`), and a bound in the structure
would hide that.  What a ring that is used well satisfies is `Consistent`, in the module about
the queue.
-/

namespace Tklb

open Foundation

/-- The fields of an `AudioRingBuffer`.  The base class is a buffer of as many frames as the ring
has room for; `mHead` counts the frames that are stored, and `mTail` is where the next one goes to.
-/
structure AudioRingBuffer (w : ℕ) (α : Type) where
  /-- The buffer it is derived from. -/
  base : AudioBuffer w α
  mHead : ℕ
  mTail : ℕ

namespace AudioRingBuffer

variable {w : ℕ} {α : Type}

/-- A ring constructed over its storage. -/
def initial (base : AudioBuffer w α) : AudioRingBuffer w α := ⟨base, 0, 0⟩

/-- `remaining()` -/
def remaining (r : AudioRingBuffer w α) : ℕ := wsub w r.base.size r.mHead

/-- `filled()` -/
def filled (r : AudioRingBuffer w α) : ℕ := r.mHead

/-- `peek(out, elements, offsetSrc, offsetDst)`: the number of frames retrieved,
and the destination. -/
def peek (r : AudioRingBuffer w α) (out : AudioBuffer w α)
    (elements offsetSrc offsetDst : ℕ) : ℕ × AudioBuffer w α :=
  let head := wsub w r.mHead offsetSrc
  let elements := if head < elements then head else elements
  let out :=
    if 0 < elements then
      let tailStart := wsub w r.mTail head
      let tailStart :=
        if r.mTail < head then wrap w (tailStart + r.base.size) else tailStart
      let spaceLeft := wsub w r.base.size tailStart
      if spaceLeft < elements then
        -- it wraps around: two moves
        (out.setBuffer r.base spaceLeft tailStart offsetDst).setBuffer r.base
          (wsub w elements spaceLeft) 0 (wrap w (spaceLeft + offsetDst))
      else out.setBuffer r.base elements tailStart offsetDst
    else out
  (elements, out.setValidSize elements)

/-- `pop(out, elements, offsetSrc, offsetDst)`: the number of frames retrieved,
the destination, and the ring afterwards. -/
def pop (r : AudioRingBuffer w α) (out : AudioBuffer w α)
    (elements offsetSrc offsetDst : ℕ) : ℕ × AudioBuffer w α × AudioRingBuffer w α :=
  let (elementsOut, out) := r.peek out elements offsetSrc offsetDst
  (elementsOut, out, { r with mHead := wsub w r.mHead elementsOut })

/-- `push(in, offsetSrc)`: the number of frames stored, and the ring
afterwards. -/
def push (r : AudioRingBuffer w α) (input : AudioBuffer w α) (offsetSrc : ℕ) :
    ℕ × AudioRingBuffer w α :=
  let spaceLeftHead := wsub w r.base.size r.mHead
  let elements := input.mValidSize
  let elements := if spaceLeftHead < elements then spaceLeftHead else elements
  if 0 < elements then
    let spaceLeftTail := wsub w r.base.size r.mTail
    let mHead := wrap w (r.mHead + elements)
    if spaceLeftTail < elements then
      let first := r.base.setBuffer input spaceLeftTail (wrap w (0 + offsetSrc)) r.mTail
      let rest := wsub w elements spaceLeftTail
      (elements,
        ⟨first.setBuffer input rest (wrap w (spaceLeftTail + offsetSrc)) 0, mHead, rest⟩)
    else
      let mTail := if spaceLeftTail = elements then 0 else wrap w (r.mTail + elements)
      (elements, ⟨r.base.setBuffer input elements offsetSrc r.mTail, mHead, mTail⟩)
  else (elements, r)

/-- The first half of `pushOver`: if `elements` frames leave no room, the fill count
goes down by as many, or to zero.  The source also computes where the oldest frame
is, and does not use it. -/
def pushOut (r : AudioRingBuffer w α) (elements : ℕ) : AudioRingBuffer w α :=
  if r.remaining ≤ elements then
    let elements := if r.mHead < elements then r.mHead else elements
    { r with mHead := wsub w r.mHead elements }
  else r

/-- `pushOver(in)`: the number of frames stored, and the ring afterwards. -/
def pushOver (r : AudioRingBuffer w α) (input : AudioBuffer w α) : ℕ × AudioRingBuffer w α :=
  (r.pushOut input.mValidSize).push input 0

/-- `reset()` -/
def reset [Zero α] (r : AudioRingBuffer w α) : AudioRingBuffer w α :=
  ⟨r.base.setValue 0 0 0, 0, 0⟩

end AudioRingBuffer

end Tklb
