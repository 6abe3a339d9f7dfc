import Tklb.AudioBuffer.Storage
import Tklb.AudioBuffer.Interleaving

/-!
# `validSize()` and `size()`

`mValidSize` is a field of its own, while `size()` is computed from the storage and
the number of channels.  The file follows both through every operation that changes
one of them, for any number of buffers in use side by side.

The operations fall into three groups.  The `set` overloads write samples and keep
the shape (`SameShape`).  `setFromInterleaved`, `setValidSize` and `inject` compute a
valid size that fits.  `resize`, by which also `clone` works, clamps the valid size to
the length it was asked for, and that length is at most the new `size()` unless there
are no channels: then the storage is empty and the length is not
(`resize_valid_iff`).

### Main results

* `BufferOp` and `exec` are the operations on any number of buffers that live side by side,
  also those with two buffers.
* `AllValid` is the invariant, `AllValid.step_iff` what one operation does to it, and
  `valid_iff_no_deallocation` the result over runs.

### What is load-bearing

The step is an equivalence, not only a preservation: an operation that is a deallocation with a
length makes some buffer invalid, whatever the valid state before was.  Because of that the
result over runs is an equivalence too: a run that contains such an operation is split in front
of it (`Foundation.Run.split`), and the state behind it is the invalid one.  Buffers that are
not named by an operation stay as they are, which is a matter of `Function.update` and is proved
once.
-/

namespace Tklb

open Foundation

namespace AudioBuffer

variable {w : ℕ} {α : Type}

/-- No more frames are valid than a channel has.  Everything that goes by the valid frames relies on
it and checks nothing. -/
def Valid (b : AudioBuffer w α) : Prop := b.mValidSize ≤ b.size

/-- Without channels there are no samples. -/
theorem size_of_no_channels {b : AudioBuffer w α} (h : b.mChannels = 0) : b.size = 0 := by
  rw [size_eq, h, Nat.div_zero]

/-! ### Operations that keep the shape -/

/-- `b'` differs from `b` in its samples at most.  An operation on samples cannot make a buffer
invalid, and this is how that is said. -/
def SameShape (b b' : AudioBuffer w α) : Prop := ∃ m, b' = b.withCells m

namespace SameShape

variable {b b' b'' : AudioBuffer w α}

theorem refl (b : AudioBuffer w α) : SameShape b b := ⟨b.cell, rfl⟩

theorem trans (h : SameShape b b') (h' : SameShape b' b'') : SameShape b b'' := by
  obtain ⟨m, rfl⟩ := h
  obtain ⟨m', rfl⟩ := h'
  exact ⟨m', rfl⟩

theorem valid (h : SameShape b b') (hb : b.Valid) : b'.Valid := by
  obtain ⟨m, rfl⟩ := h
  exact hb

end SameShape

section Set

variable (b : AudioBuffer w α)

theorem sameShape_setChannel (samples : ℕ → α) (length channel offsetDst : ℕ) :
    SameShape b (b.setChannel samples length channel offsetDst) := by
  unfold setChannel
  split
  · exact SameShape.refl b
  · exact ⟨_, rfl⟩

theorem sameShape_setArrays (samples : ℕ → ℕ → α) (length chan offsetSrc offsetDst : ℕ) :
    SameShape b (b.setArrays samples length chan offsetSrc offsetDst) := by
  unfold setArrays
  refine countUp_invariant (fun _ d => SameShape b d) (SameShape.refl b) ?_
  intro c _ d hd
  exact hd.trans (sameShape_setChannel d _ _ _ _)

theorem sameShape_setBuffer (buffer : AudioBuffer w α) (length offsetSrc offsetDst : ℕ) :
    SameShape b (b.setBuffer buffer length offsetSrc offsetDst) :=
  exists_setBuffer_eq_withCells b buffer length offsetSrc offsetDst

theorem sameShape_setValue (value : α) (length offsetDst : ℕ) :
    SameShape b (b.setValue value length offsetDst) :=
  ⟨_, rfl⟩

end Set

/-! ### Operations that set the valid size -/

theorem valid_setFromInterleaved {b : AudioBuffer w α} {offsetDst : ℕ}
    (hoffset : offsetDst ≤ b.size) (samples : ℕ → α) (length chan offsetSrc : ℕ) :
    (b.setFromInterleaved samples length chan offsetSrc offsetDst).Valid := by
  have hlt := b.size_lt
  show wrap w (offsetDst + min (wsub w b.size offsetDst) length) ≤ b.size
  rw [wsub_of_le hlt hoffset, wrap_of_lt (by omega)]
  omega

theorem valid_setValidSize (b : AudioBuffer w α) (v : ℕ) : (b.setValidSize v).Valid :=
  Nat.min_le_left _ _

theorem valid_inject {b b' : AudioBuffer w α} {mem : ℕ → α} {size : Fin (2 ^ w)}
    {chan : Fin (2 ^ 8)} {aligned : Bool} (hb : b.Valid)
    (h : b.inject mem size chan aligned = some b') : b'.Valid := by
  unfold inject at h
  split at h
  · split at h
    · cases h
    · obtain rfl := Option.some.inj h
      unfold Valid
      rw [size_eq]
  · obtain rfl := Option.some.inj h
    exact hb

/-! ### `resize` -/

section Resize

variable [Zero α] {B : BufferType} {b : AudioBuffer B.sizeBits α}
  {length : Fin (2 ^ B.sizeBits)} {chan : Fin (2 ^ 8)}

/-- **`resize`** keeps the valid size within the size unless it is asked for samples
but no channels. -/
theorem resize_valid_iff (hb : b.Valid) (hfit : SizeFits B length chan) :
    (b.resize B length chan true).Valid ↔ ¬ ((chan : ℕ) = 0 ∧ 0 < (length : ℕ)) := by
  by_cases hsame : chan = b.mChannels ∧ b.size = length
  · rw [resize_of_same hsame]
    refine ⟨fun _ hempty => ?_, fun _ => hb⟩
    have hsize := size_of_no_channels (hsame.1.symm.trans hempty.1)
    omega
  have hvalid : (b.resize B length chan true).mValidSize =
      if b.mValidSize = 0 then (length : ℕ) else min b.mValidSize length := by
    rw [resize, if_neg hsame]
  unfold Valid
  rw [hvalid]
  rcases Nat.eq_zero_or_pos (chan : ℕ) with hchan | hchan
  · rw [size_of_no_channels ((resize_mChannels b length chan true).trans hchan)]
    split <;> omega
  · rw [resize_size hfit hsame hchan]
    have hle := le_padded B length
    refine ⟨fun _ hempty => by omega, fun _ => ?_⟩
    split <;> omega

/-- `resize(length)` always has a channel. -/
theorem valid_resizeLength (hb : b.Valid) (hfit : SizeFits B length (max 1 b.mChannels)) :
    (b.resizeLength B length true).Valid := by
  refine (resize_valid_iff hb hfit).mpr fun hempty => ?_
  have : max 1 b.mChannels = 0 := hempty.1
  omega

/-- A buffer without channels has no samples either. -/
theorem valid_resizeLike {buffer : AudioBuffer B.sizeBits α} (hb : b.Valid)
    (hfit : SizeFits B buffer.size buffer.mChannels) : (b.resizeLike B buffer true).Valid := by
  refine (resize_valid_iff hb hfit).mpr fun hempty => ?_
  have hpos : 0 < buffer.size := hempty.2
  rw [size_of_no_channels hempty.1] at hpos
  exact lt_irrefl 0 hpos

end Resize

/-! ### Buffers in use -/

/-- An operation on one of several buffers; samples of another type are taken as
converted. -/
inductive BufferOp (w : ℕ) (α : Type)
  | resize (i : ℕ) (length : Fin (2 ^ w)) (chan : Fin (2 ^ 8))
  | resizeLength (i : ℕ) (length : Fin (2 ^ w))
  | resizeLike (i source : ℕ)
  | setChannel (i : ℕ) (samples : ℕ → α) (length channel offsetDst : ℕ)
  | setArrays (i : ℕ) (samples : ℕ → ℕ → α) (length chan offsetSrc offsetDst : ℕ)
  | setBuffer (i source length offsetSrc offsetDst : ℕ)
  | setValue (i : ℕ) (value : α) (length offsetDst : ℕ)
  | setFromInterleaved (i : ℕ) (samples : ℕ → α) (length chan offsetSrc offsetDst : ℕ)
  | setValidSize (i v : ℕ)
  | clone (i source : ℕ)
  | inject (i : ℕ) (mem : ℕ → α) (size : Fin (2 ^ w)) (chan : Fin (2 ^ 8)) (aligned : Bool)
  | move (i source : ℕ)

/-- All buffers are `Valid`. -/
def AllValid (s : ℕ → AudioBuffer w α) : Prop := ∀ i, (s i).Valid

theorem AllValid.update {s : ℕ → AudioBuffer w α} (h : AllValid s) {i : ℕ}
    {b : AudioBuffer w α} (hb : b.Valid) : AllValid (Function.update s i b) :=
  (Function.forall_update_iff s fun _ b => b.Valid).mpr ⟨hb, fun j _ => h j⟩

section Session

variable [Zero α] (B : BufferType)

/-- Perform an operation; every allocation succeeds. -/
def exec (s : ℕ → AudioBuffer B.sizeBits α) :
    BufferOp B.sizeBits α → Option (ℕ → AudioBuffer B.sizeBits α)
  | .resize i length chan =>
      some (Function.update s i ((s i).resize B length chan true))
  | .resizeLength i length => some (Function.update s i ((s i).resizeLength B length true))
  | .resizeLike i source => some (Function.update s i ((s i).resizeLike B (s source) true))
  | .setChannel i samples length channel offsetDst =>
      some (Function.update s i ((s i).setChannel samples length channel offsetDst))
  | .setArrays i samples length chan offsetSrc offsetDst =>
      some (Function.update s i ((s i).setArrays samples length chan offsetSrc offsetDst))
  | .setBuffer i source length offsetSrc offsetDst =>
      some (Function.update s i ((s i).setBuffer (s source) length offsetSrc offsetDst))
  | .setValue i value length offsetDst =>
      some (Function.update s i ((s i).setValue value length offsetDst))
  | .setFromInterleaved i samples length chan offsetSrc offsetDst =>
      some (Function.update s i
        ((s i).setFromInterleaved samples length chan offsetSrc offsetDst))
  | .setValidSize i v => some (Function.update s i ((s i).setValidSize v))
  | .clone i source => some (Function.update s i ((s i).clone B (s source) true))
  | .inject i mem size chan aligned =>
      ((s i).inject mem size chan aligned).map (Function.update s i)
  | .move i source =>
      let (target, rest) := (s source).move
      some (Function.update (Function.update s source rest) i target)

/-- One operation. -/
abbrev Operates : (ℕ → AudioBuffer B.sizeBits α) → BufferOp B.sizeBits α →
    (ℕ → AudioBuffer B.sizeBits α) → Prop :=
  StepOf (exec B)

/-- No size is wrapped, and what is written starts within the buffer.  These are the conditions
under which the code computes the numbers it means; what an offset in a channel has to be depends on
the operation. -/
def OpFits (s : ℕ → AudioBuffer B.sizeBits α) : BufferOp B.sizeBits α → Prop
  | .resize _ length chan => SizeFits B length chan
  | .resizeLength i length => SizeFits B length (max 1 (s i).mChannels)
  | .resizeLike _ source | .clone _ source =>
      SizeFits B (s source).size (s source).mChannels
  | .setChannel i _ _ _ offsetDst | .setArrays i _ _ _ _ offsetDst
  | .setBuffer i _ _ _ offsetDst | .setValue i _ _ offsetDst
  | .setFromInterleaved i _ _ _ _ offsetDst => offsetDst ≤ (s i).size
  | _ => True

/-- `resize(length, 0)` with `length` not `0`: "0 will deallocate". The valid size is set to the
length all the same, and this is the one way to an invalid buffer. -/
def Deallocates : BufferOp w α → Prop
  | .resize _ length chan => (chan : ℕ) = 0 ∧ 0 < (length : ℕ)
  | _ => False

variable {B}

/-- **One operation.**  The buffers stay valid if and only if the operation is not a
deallocation that names a length. -/
theorem AllValid.step_iff {s t : ℕ → AudioBuffer B.sizeBits α} {op : BufferOp B.sizeBits α}
    (h : AllValid s) (hfit : OpFits B s op) (hstep : Operates B s op t) :
    AllValid t ↔ ¬ Deallocates op := by
  unfold Operates StepOf at hstep
  have hsome : ∀ {t'}, some t' = some t → AllValid t' → ¬ Deallocates op →
      (AllValid t ↔ ¬ Deallocates op) := by
    intro t' heq ht' hop
    obtain rfl := Option.some.inj heq
    exact ⟨fun _ => hop, fun _ => ht'⟩
  cases op with
  | resize i length chan =>
      obtain rfl := Option.some.inj hstep
      refine (Iff.intro (fun ht => ?_) fun hop => ?_)
      · have hi := ht i
        rw [Function.update_self] at hi
        exact (resize_valid_iff (h i) hfit).mp hi
      · exact h.update ((resize_valid_iff (h i) hfit).mpr hop)
  | resizeLength i length => exact hsome hstep (h.update (valid_resizeLength (h i) hfit)) id
  | resizeLike i source => exact hsome hstep (h.update (valid_resizeLike (h i) hfit)) id
  | setChannel i samples length channel offsetDst =>
      exact hsome hstep (h.update ((sameShape_setChannel _ _ _ _ _).valid (h i))) id
  | setArrays i samples length chan offsetSrc offsetDst =>
      exact hsome hstep (h.update ((sameShape_setArrays _ _ _ _ _ _).valid (h i))) id
  | setBuffer i source length offsetSrc offsetDst =>
      exact hsome hstep (h.update ((sameShape_setBuffer _ _ _ _ _).valid (h i))) id
  | setValue i value length offsetDst =>
      exact hsome hstep (h.update ((sameShape_setValue _ _ _ _).valid (h i))) id
  | setFromInterleaved i samples length chan offsetSrc offsetDst =>
      exact hsome hstep (h.update (valid_setFromInterleaved hfit _ _ _ _)) id
  | setValidSize i v => exact hsome hstep (h.update (valid_setValidSize _ _)) id
  | clone i source =>
      have hlike := valid_resizeLike (h i) hfit
      exact hsome hstep (h.update ((sameShape_setBuffer _ _ _ _ _).valid hlike)) id
  | inject i mem size chan aligned =>
      obtain ⟨b, hb, rfl⟩ := Option.map_eq_some_iff.mp hstep
      exact hsome rfl (h.update (valid_inject (h i) hb)) id
  | move i source => exact hsome hstep ((h.update (h source)).update (h source)) id

/-- **`validSize() ≤ size()`.**  Over a run of operations on default-constructed
buffers, all buffers are valid in every state reached if and only if no operation is a
deallocation that names a length. -/
theorem valid_iff_no_deallocation {ops : List (BufferOp B.sizeBits α)}
    {t : ℕ → AudioBuffer B.sizeBits α}
    (hrun : Run (Guarded (Operates B) (OpFits B)) (fun _ => initial) ops t) :
    (∀ front rest m, ops = front ++ rest →
      Run (Guarded (Operates B) (OpFits B)) (fun _ => initial) front m → AllValid m) ↔
    ∀ op ∈ ops, ¬ Deallocates op := by
  have hstart : AllValid fun _ => (initial : AudioBuffer B.sizeBits α) := fun _ => Nat.zero_le _
  constructor
  · intro hall op hop
    obtain ⟨front, rest, rfl⟩ := List.append_of_mem hop
    obtain ⟨m, hfront, hrest⟩ := hrun.split
    obtain ⟨m', hstep, -⟩ := Run.cons_iff.mp hrest
    have hm' := hfront.append (Run.cons hstep (Run.nil m'))
    exact ((hall front _ m rfl hfront).step_iff hstep.1 hstep.2).mp
      (hall (front ++ [op]) rest m' (by simp) hm')
  · rintro hops front rest m rfl hfront
    have hguarded := hfront.guarded_of_forall fun op hop =>
      hops op (List.mem_append_left rest hop)
    refine hguarded.invariant (I := AllValid) ?_ hstart
    rintro s op s' hs ⟨hop, hfit, hstep⟩
    exact (hs.step_iff hfit hstep).mpr hop

/-- A buffer of two channels, shortened and cloned. -/
theorem valid_of_resized_and_cloned :
    ∃ t : ℕ → AudioBuffer 32 ℤ,
      Run (Guarded (Operates ⟨32, 64, 4, 16⟩) (OpFits ⟨32, 64, 4, 16⟩)) (fun _ => initial)
        [.resize 0 10 2, .setValidSize 0 7, .resize 0 6 2, .clone 1 0] t ∧ AllValid t := by
  have hrun : ∃ t : ℕ → AudioBuffer 32 ℤ,
      Run (Guarded (Operates ⟨32, 64, 4, 16⟩) (OpFits ⟨32, 64, 4, 16⟩)) (fun _ => initial)
        [.resize 0 10 2, .setValidSize 0 7, .resize 0 6 2, .clone 1 0] t := by
    refine ⟨_, Run.cons ⟨?_, rfl⟩ (Run.cons ⟨trivial, rfl⟩ (Run.cons ⟨?_, rfl⟩
      (Run.cons ⟨?_, rfl⟩ (Run.nil _))))⟩
    · show SizeFits ⟨32, 64, 4, 16⟩ 10 2
      decide
    · show SizeFits ⟨32, 64, 4, 16⟩ 6 2
      decide
    · show SizeFits ⟨32, 64, 4, 16⟩ 8 2
      decide
  obtain ⟨t, ht⟩ := hrun
  refine ⟨t, ht, (valid_iff_no_deallocation ht).mpr ?_ _ [] t (List.append_nil _).symm ht⟩
  simp [Deallocates]

/-- A buffer of ten samples is deallocated by `resize(5, 0)`: five samples are valid
of none. -/
theorem not_valid_after_deallocation :
    ∃ t : ℕ → AudioBuffer 32 ℤ,
      Run (Guarded (Operates ⟨32, 64, 4, 16⟩) (OpFits ⟨32, 64, 4, 16⟩)) (fun _ => initial)
        [.resize 0 10 1, .resize 0 5 0] t ∧ (t 0).mValidSize = 5 ∧ (t 0).size = 0 := by
  refine ⟨_, Run.cons ⟨?_, rfl⟩ (Run.cons ⟨?_, rfl⟩ (Run.nil _)), rfl, rfl⟩
  · show SizeFits ⟨32, 64, 4, 16⟩ 10 1
    decide
  · show SizeFits ⟨32, 64, 4, 16⟩ 5 0
    decide

end Session

end AudioBuffer

end Tklb
