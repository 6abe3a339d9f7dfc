import Tklb.AudioBuffer.ValidSize

/-!
# `set`

The four overloads of `set` copy an array to a channel, several arrays or another buffer
to several channels, or a constant to all of them.  All but the last go through the first,
one channel after the other, and all clamp the length to what is behind `offsetDst`.

`Writes` says which samples a call changes.  It is kept by `set` to a further channel
(`Writes.setChannel`), so it holds after a loop over any number of channels
(`writes_channels`), and of all overloads (`set_writes`).

The length is not clamped to what is behind `offsetSrc` in the other buffer.
`setBufferChecked` is `set` that stops where it would read behind the end of a channel;
`setBuffer_reads_iff` says when it does not.

### Main results

* `Writes` is the frame condition of the whole class: `n` frames of the addressed channels are
  the given samples, and every other cell, inside and outside of the storage, is what it was.
* `set_writes` states it of the four overloads at once.
* `setBufferChecked` is `set` of a buffer with its reads compared with the lengths of the
  source, and `setBuffer_reads_iff` says exactly when none fails.

### What is load-bearing

`Writes` is closed under one more channel (`Writes.setChannel`) because channels are disjoint;
this one lemma is the induction step of every loop over channels, so no overload has an
induction of its own.  The clamp of the length is `size() - offsetDst` in unsigned arithmetic,
which is why `offsetDst` must not be behind the end: there the difference wraps, and the clamp
lets everything through.
-/

namespace Tklb

open Foundation

namespace AudioBuffer

variable {w : ℕ} {α β : Type} {b b' d : AudioBuffer w α} {addressed : ℕ → Prop}
  {offset n : ℕ} {value : ℕ → ℕ → α}

/-! ### What a call changes -/

/-- `b'` is `b` with `n` frames from `offset` on of the addressed channels set to `value`.
Nothing else is written, neither to the channels nor around them. -/
structure Writes (b b' : AudioBuffer w α) (addressed : ℕ → Prop) (offset n : ℕ)
    (value : ℕ → ℕ → α) : Prop where
  shape : SameShape b b'
  written : ∀ c < b.mChannels, addressed c → ∀ i < n, b'.sample c (offset + i) = value c i
  kept : ∀ c < b.mChannels, ∀ i < b.size, ¬ (addressed c ∧ offset ≤ i ∧ i < offset + n) →
    b'.sample c i = b.sample c i
  outside : ∀ k, (∀ c < b.mChannels, ∀ i < b.size, k ≠ b.get c + i) → b'.cell k = b.cell k

namespace SameShape

theorem size (h : SameShape b b') : b'.size = b.size := by
  obtain ⟨m, rfl⟩ := h
  rfl

theorem mChannels (h : SameShape b b') : b'.mChannels = b.mChannels := by
  obtain ⟨m, rfl⟩ := h
  rfl

theorem get (h : SameShape b b') (c : ℕ) : b'.get c = b.get c := by
  obtain ⟨m, rfl⟩ := h
  rfl

end SameShape

/-- Nothing is addressed. -/
theorem Writes.refl (h : ∀ c < b.mChannels, ¬ addressed c) :
    Writes b b addressed offset n value where
  shape := SameShape.refl b
  written := fun c hc haddressed => absurd haddressed (h c hc)
  kept := fun _ _ _ _ _ => rfl
  outside := fun _ _ => rfl

/-- Only the channels there are count. -/
theorem Writes.congr {addressed' : ℕ → Prop} (h : Writes b b' addressed offset n value)
    (hiff : ∀ c < b.mChannels, (addressed c ↔ addressed' c)) :
    Writes b b' addressed' offset n value where
  shape := h.shape
  written := fun c hc haddressed => h.written c hc ((hiff c hc).mpr haddressed)
  kept := fun c hc i hi hnot => h.kept c hc i hi fun hin => hnot ⟨(hiff c hc).mp hin.1, hin.2⟩
  outside := h.outside

/-- `set` of a channel writes between the start and the end of that channel. -/
theorem cell_setChannel_of_outside {s : ℕ → α} {length channel : ℕ} (hle : offset ≤ b.size)
    {k : ℕ} (hout : ∀ c < b.mChannels, ∀ i < b.size, k ≠ b.get c + i) :
    (b.setChannel s length channel offset).cell k = b.cell k := by
  by_cases hchan : channel < b.mChannels
  · rw [setChannel_clip s length channel hle, setChannel_eq hchan (by omega), withCells_cell]
    refine modifyEach_of_ne fun i hi heq => ?_
    exact hout channel hchan (offset + i) (by omega) (by rw [← heq, Nat.add_assoc])
  · rw [setChannel, if_pos (Nat.not_lt.mp hchan)]

/-- **One more channel.**  The channel is written if it exists, and the frames of the channels
written so far are not touched: this is the step of every loop over channels. -/
theorem Writes.setChannel {length k : ℕ} (h : Writes b d addressed offset n value)
    (hle : offset ≤ b.size) (hn : n = min length (b.size - offset)) :
    Writes b (d.setChannel (value k) length k offset) (fun c => addressed c ∨ c = k) offset n
      value := by
  have hsize := h.shape.size
  have hchannels := h.shape.mChannels
  by_cases hk : k < b.mChannels
  · have hclip := setChannel_clip (value k) length k (hsize ▸ hle : offset ≤ d.size)
    rw [hsize, ← hn] at hclip
    -- what the call does to the samples of `d`
    have hsample : ∀ c < b.mChannels, ∀ i < b.size,
        (d.setChannel (value k) length k offset).sample c i =
          if c = k ∧ offset ≤ i ∧ i < offset + n then value k (i - offset) else d.sample c i := by
      intro c hc i hi
      rw [hclip]
      exact sample_setChannel (by omega) (by omega) (by omega) (by omega)
    refine ⟨h.shape.trans (sameShape_setChannel d _ _ _ _), ?_, ?_, ?_⟩
    · intro c hc haddressed i hi
      rw [hsample c hc _ (by omega)]
      by_cases hck : c = k
      · rw [if_pos ⟨hck, by omega, by omega⟩, Nat.add_sub_cancel_left, hck]
      · rw [if_neg fun hin => hck hin.1]
        exact h.written c hc (haddressed.resolve_right hck) i hi
    · intro c hc i hi hnot
      rw [hsample c hc i hi, if_neg fun hin => hnot ⟨Or.inr hin.1, hin.2⟩]
      exact h.kept c hc i hi fun hin => hnot ⟨Or.inl hin.1, hin.2⟩
    · intro j hout
      rw [cell_setChannel_of_outside (by omega), h.outside j hout]
      intro c hc i hi
      rw [h.shape.get]
      exact hout c (by omega) i (by omega)
  · -- the channel does not exist
    rw [AudioBuffer.setChannel, if_pos (by omega)]
    exact h.congr fun c hc => ⟨Or.inl, fun h => h.resolve_right (by omega)⟩

/-- **A loop over channels**, of which some may not exist.  The overloads of `set` are such loops,
or a single pass of one, so this is the lemma each of them ends in. -/
theorem writes_channels (rows length : ℕ) (value : ℕ → ℕ → α) (hle : offset ≤ b.size) :
    Writes b (countUp rows (fun c d => d.setChannel (value c) length c offset) b) (· < rows)
      offset (min length (b.size - offset)) value := by
  refine countUp_invariant (fun k d => Writes b d (· < k) offset
    (min length (b.size - offset)) value) (Writes.refl fun c _ => Nat.not_lt_zero c) ?_
  intro k _ d hwrites
  exact (hwrites.setChannel hle rfl).congr fun c _ => by omega

/-- A loop over all channels that writes to each of them. -/
theorem writes_grid {f : ℕ → ℕ → α} (hfit : offset + n ≤ b.size) :
    Writes b
      (b.withCells
        (modifyGrid b.mChannels n (fun c i => b.get c + offset + i) (fun c i _ => f c i) b.cell))
      (fun _ => True) offset n f where
  shape := ⟨_, rfl⟩
  written := by
    intro c hc _ i hi
    rw [sample_modifyGrid hfit hc (by omega), if_pos (by omega), Nat.add_sub_cancel_left]
  kept := by
    intro c hc i hi hnot
    rw [sample_modifyGrid hfit hc hi, if_neg fun hin => hnot ⟨trivial, hin⟩]
  outside := by
    intro k hout
    refine modifyGrid_of_ne fun c hc i hi heq => ?_
    exact hout c hc (offset + i) (by omega) (by rw [← heq, Nat.add_assoc])

theorem writes_setBuffer (buffer : AudioBuffer w α) (length offsetSrc : ℕ)
    (hle : offset ≤ b.size) :
    Writes b (b.setBuffer buffer length offsetSrc offset) (· < buffer.mChannels) offset
      (min (if length = 0 then buffer.mValidSize else length) (b.size - offset))
      (fun c i => buffer.sample c (offsetSrc + i)) := by
  have hwrites := writes_channels (b := b) buffer.mChannels
    (if length = 0 then buffer.mValidSize else length)
    (fun c i => buffer.cell (buffer.get c + offsetSrc + i)) hle
  simp only [Nat.add_assoc] at hwrites
  unfold setBuffer
  simp only [Nat.add_assoc]
  exact hwrites

/-- **`set`.**  Every overload writes to the addressed channels that exist, from
`offsetDst` on, as many frames as were asked for and fit, each from its source sample, and
nothing else.  `conv` converts the samples of an array of another type.  An array has no
default length; without a length all that is valid is copied from a buffer, and all frames
are set to a constant. -/
theorem set_writes (b : AudioBuffer w α) (offsetDst : ℕ) (hdst : offsetDst ≤ b.size) :
    (∀ (β : Type) (conv : β → α) (samples : ℕ → β) (length channel : ℕ),
      Writes b (b.setChannel (fun i => conv (samples i)) length channel offsetDst) (· = channel)
          offsetDst (min length (b.size - offsetDst)) (fun _ i => conv (samples i)) ∧
        (b.mChannels ≤ channel →
          b.setChannel (fun i => conv (samples i)) length channel offsetDst = b)) ∧
    (∀ (β : Type) (conv : β → α) (samples : ℕ → ℕ → β) (length chan offsetSrc : ℕ),
      Writes b (b.setArrays (fun c i => conv (samples c i)) length chan offsetSrc offsetDst)
        (· < if chan = 0 then b.mChannels else chan) offsetDst (min length (b.size - offsetDst))
        (fun c i => conv (samples c (offsetSrc + i)))) ∧
    (∀ (buffer : AudioBuffer w α) (length offsetSrc : ℕ),
      Writes b (b.setBuffer buffer length offsetSrc offsetDst) (· < buffer.mChannels) offsetDst
        (min (if length = 0 then buffer.mValidSize else length) (b.size - offsetDst))
        (fun c i => buffer.sample c (offsetSrc + i))) ∧
    (∀ (v : α) (length : ℕ),
      Writes b (b.setValue v length offsetDst) (fun _ => True) offsetDst
        (min (if length = 0 then b.size else length) (b.size - offsetDst)) (fun _ _ => v)) := by
  refine ⟨fun β conv samples length channel => ⟨?_, ?_⟩, ?_, ?_, ?_⟩
  · have hnothing : Writes b b (fun _ => False) offsetDst (min length (b.size - offsetDst))
        (fun _ i => conv (samples i)) := Writes.refl fun _ _ => id
    exact (hnothing.setChannel hdst rfl).congr fun c _ => by rw [false_or]
  · intro hchan
    rw [setChannel, if_pos hchan]
  · intro β conv samples length chan offsetSrc
    refine (writes_channels _ length _ hdst).congr fun c hc => ?_
    exact lt_min_iff.trans (and_iff_left hc)
  · exact fun buffer length offsetSrc => writes_setBuffer buffer length offsetSrc hdst
  · intro v length
    have hlength : min (wsub w b.size offsetDst) (if length ≠ 0 then length else b.size) =
        min (if length = 0 then b.size else length) (b.size - offsetDst) := by
      rw [wsub_of_le b.size_lt hdst, Nat.min_comm, ite_not]
    unfold setValue
    rw [hlength]
    exact writes_grid (by omega)

/-- Five samples to the second of two channels, from the second of its three frames on. -/
theorem set_writes_stereo :
    let b' := stereo.setChannel (fun i => 10 * i) 5 1 1
    b'.sample 1 1 = 0 ∧ b'.sample 1 2 = 10 ∧ b'.sample 1 0 = stereo.sample 1 0 ∧
      b'.sample 0 2 = stereo.sample 0 2 ∧ b'.cell 6 = stereo.cell 6 := by
  have hset := ((set_writes stereo 1 (by decide)).1 ℕ (fun x => 10 * x) id 5 1).1
  refine ⟨hset.written 1 (by decide) rfl 0 (by decide),
    hset.written 1 (by decide) rfl 1 (by decide), hset.kept 1 (by decide) 0 (by decide) ?_,
    hset.kept 0 (by decide) 2 (by decide) ?_, hset.outside 6 ?_⟩ <;> decide

/-! ### What `set` reads of the other buffer -/

section Reading

variable {buffer : AudioBuffer w β} {conv : β → α} {length channel offsetSrc offsetDst : ℕ}

/-- `set(samples, length, channel, offsetDst)` from an array of which not everything can be
read. -/
def setChannelChecked (b : AudioBuffer w α) (samples : ℕ → Option α)
    (length channel offsetDst : ℕ) : Option (AudioBuffer w α) :=
  if b.mChannels ≤ channel then some b
  else
    let length := min length (wsub w b.size offsetDst)
    (copyEach length (fun i => b.get channel + offsetDst + i) samples b.cell).map b.withCells

/-- The frames of channel `c` from `offsetSrc` on, as far as there are any. -/
def readable (buffer : AudioBuffer w β) (conv : β → α) (c offsetSrc i : ℕ) : Option α :=
  if offsetSrc + i < buffer.size then some (conv (buffer.cell (buffer.get c + offsetSrc + i)))
  else none

/-- `set(buffer, length, offsetSrc, offsetDst)` from a buffer whose samples `conv` converts,
`none` if it reads a frame the channel does not have: a sample of the next channel, or what
is behind the storage. -/
def setBufferChecked (conv : β → α) (b : AudioBuffer w α) (buffer : AudioBuffer w β)
    (length offsetSrc offsetDst : ℕ) : Option (AudioBuffer w α) :=
  let length := if length = 0 then buffer.mValidSize else length
  countUpOption buffer.mChannels
    (fun c b => b.setChannelChecked (buffer.readable conv c offsetSrc) length c offsetDst) b

/-- Where it can read, `set` with the check is `set`. -/
theorem setChannelChecked_of_some {samples : ℕ → Option α} {s : ℕ → α} (hle : offsetDst ≤ b.size)
    (h : ∀ i < min length (b.size - offsetDst), samples i = some (s i)) :
    b.setChannelChecked samples length channel offsetDst =
      some (b.setChannel s length channel offsetDst) := by
  unfold setChannelChecked setChannel
  split
  · rfl
  · simp only [wsub_of_le b.size_lt hle, copyEach_of_some h, Option.map_some]

theorem setChannelChecked_of_none {samples : ℕ → Option α} (hchan : channel < b.mChannels)
    (hle : offsetDst ≤ b.size) {i : ℕ} (hi : i < min length (b.size - offsetDst))
    (h : samples i = none) : b.setChannelChecked samples length channel offsetDst = none := by
  rw [setChannelChecked, if_neg (Nat.not_le.mpr hchan)]
  simp only [wsub_of_le b.size_lt hle, copyEach_of_none hi h, Option.map_none]

/-- The number of frames `set` is asked for. -/
def requested (buffer : AudioBuffer w β) (length : ℕ) : ℕ :=
  if length = 0 then buffer.mValidSize else length

/-- All reads are in range. -/
theorem setBufferChecked_of_le (hle : offsetDst ≤ b.size)
    (hrange : min (buffer.requested length) (b.size - offsetDst) ≤ buffer.size - offsetSrc) :
    b.setBufferChecked conv buffer length offsetSrc offsetDst =
      some (countUp buffer.mChannels
        (fun c d => d.setChannel (fun i => conv (buffer.cell (buffer.get c + offsetSrc + i)))
          (buffer.requested length) c offsetDst) b) := by
  refine countUpOption_of_some (fun _ d => SameShape b d) (SameShape.refl b) ?_
  intro c _ d hshape
  refine ⟨?_, hshape.trans (sameShape_setChannel d _ _ _ _)⟩
  refine setChannelChecked_of_some (hshape.size ▸ hle) fun i hi => ?_
  rw [hshape.size] at hi
  have hi : i < min (buffer.requested length) (b.size - offsetDst) := hi
  exact if_pos (by omega)

/-- The first channel is already too short. -/
theorem setBufferChecked_of_lt (hle : offsetDst ≤ b.size) (hpos : 0 < buffer.mChannels)
    (hsrc : offsetSrc ≤ buffer.size)
    (hlong : buffer.size - offsetSrc < min (buffer.requested length) (b.size - offsetDst)) :
    b.setBufferChecked conv buffer length offsetSrc offsetDst = none := by
  have hfirst : b.setChannelChecked (buffer.readable conv 0 offsetSrc) (buffer.requested length) 0
      offsetDst = none := by
    have hchannel : 0 < b.mChannels := by
      refine Nat.pos_of_ne_zero fun hzero => ?_
      have := size_of_no_channels hzero
      omega
    exact setChannelChecked_of_none hchannel hle hlong (if_neg (by omega))
  exact countUpOption_first hpos hfirst

/-- Where the check passes, the call is `set`. -/
theorem setBuffer_of_checked {buffer : AudioBuffer w α} (hle : offsetDst ≤ b.size)
    (hsrc : offsetSrc ≤ buffer.size)
    (h : b.setBufferChecked id buffer length offsetSrc offsetDst = some b') :
    b.setBuffer buffer length offsetSrc offsetDst = b' := by
  rcases Nat.eq_zero_or_pos buffer.mChannels with hzero | hpos
  · unfold setBufferChecked at h
    rw [hzero] at h
    unfold setBuffer
    rw [hzero]
    exact Option.some.inj h
  by_cases hrange : min (buffer.requested length) (b.size - offsetDst) ≤ buffer.size - offsetSrc
  · rw [setBufferChecked_of_le hle hrange] at h
    exact Option.some.inj h
  · rw [setBufferChecked_of_lt hle hpos hsrc (Nat.not_le.mp hrange)] at h
    cases h

end Reading

/-- `set` from another buffer reads nothing outside of the channels, and copies the frames
from `offsetSrc` on that were asked for, are there and fit behind `offsetDst`. -/
def CopiesInRange (conv : β → α) (b : AudioBuffer w α) (buffer : AudioBuffer w β)
    (length offsetSrc offsetDst : ℕ) : Prop :=
  ∃ b', b.setBufferChecked conv buffer length offsetSrc offsetDst = some b' ∧
    Writes b b' (· < buffer.mChannels) offsetDst
      (min (if length = 0 then buffer.mValidSize else length)
        (min (buffer.size - offsetSrc) (b.size - offsetDst)))
      (fun c i => conv (buffer.sample c (offsetSrc + i)))

/-- **`set` from another buffer** stays within the channels it reads if and only if there are
none, or the frames that were asked for and fit into the target are there: the length is
clamped to the room in the target only. -/
theorem setBuffer_reads_iff (conv : β → α) (b : AudioBuffer w α) (buffer : AudioBuffer w β)
    (length offsetSrc offsetDst : ℕ) (hsrc : offsetSrc ≤ buffer.size)
    (hdst : offsetDst ≤ b.size) :
    CopiesInRange conv b buffer length offsetSrc offsetDst ↔
      buffer.mChannels = 0 ∨
        min (if length = 0 then buffer.mValidSize else length) (b.size - offsetDst) ≤
          buffer.size - offsetSrc := by
  rw [CopiesInRange, ← requested]
  constructor
  · rintro ⟨b', hchecked, -⟩
    by_contra hnot
    rw [not_or, Nat.not_le] at hnot
    rw [setBufferChecked_of_lt hdst (Nat.pos_of_ne_zero hnot.1) hsrc hnot.2] at hchecked
    cases hchecked
  · rintro (hzero | hrange)
    · refine ⟨b, ?_, Writes.refl fun c _ hlt => ?_⟩
      · unfold setBufferChecked
        rw [hzero]
        rfl
      · rw [hzero] at hlt
        exact Nat.not_lt_zero c hlt
    · have hwrites := writes_channels (b := b) buffer.mChannels (buffer.requested length)
        (fun c i => conv (buffer.cell (buffer.get c + offsetSrc + i))) hdst
      have hframes : min (buffer.requested length)
          (min (buffer.size - offsetSrc) (b.size - offsetDst)) =
            min (buffer.requested length) (b.size - offsetDst) := by omega
      refine ⟨_, setBufferChecked_of_le hdst hrange, ?_⟩
      rw [hframes]
      simp only [Nat.add_assoc] at hwrites ⊢
      exact hwrites

/-- Two of three frames, from the second on. -/
theorem setBuffer_reads_iff_stereo : CopiesInRange id stereo stereo 2 1 0 :=
  (setBuffer_reads_iff id stereo stereo 2 1 0 (by decide) (by decide)).mpr (Or.inr (by decide))

/-- Without a length, but with an offset, `set` reads behind the end of the channel: the
source has one channel of sixteen valid samples, and sixteen are copied from the fifth
on. -/
theorem not_copiesInRange_offset :
    let buffer := (initial : AudioBuffer 32 ℤ).resize ⟨32, 64, 4, 16⟩ 16 1 true
    let b := (initial : AudioBuffer 32 ℤ).resize ⟨32, 64, 4, 16⟩ 16 1 true
    ¬ CopiesInRange id b buffer 0 4 0 := by
  rintro buffer b ⟨b', hchecked, -⟩
  have hnone : (b.setBufferChecked id buffer 0 4 0).isNone = true := by decide
  rw [hchecked] at hnone
  cases hnone

end AudioBuffer

end Tklb
