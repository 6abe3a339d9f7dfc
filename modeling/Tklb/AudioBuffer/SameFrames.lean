import Tklb.AudioBuffer.MixedFrames
import Tklb.AudioBuffer.Putting

/-!
# Buffers that hold the same audio

Two buffers with the same shape, the same valid size and the same valid frames
(`SameFrames`) need not have the same samples behind the valid ones.  The operations that
go by `validSize()` cannot tell them apart (`SameFrames.behavesLike`): what is put, what is
added or multiplied to a third buffer, and what a third buffer or a constant is added or
multiplied to.

### Why the relation matters

A buffer keeps samples behind its valid frames: the padding of the storage, what an earlier
signal left there, what a function was asked not to touch.  Nothing that goes by `validSize()`
may depend on them, and the results about `clone` and about the codecs say that two buffers are
the same only up to this relation.  `BehavesLike` lists the operations in question, each with
the buffer on the side where it is read and on the side where it is written; the second kind
gives a buffer again, which is compared by `SameFrames`.

### What is load-bearing

For the build with vectors the storage of both buffers has to start at an aligned address
(`StartsAligned`), because the fault is not a matter of samples: two buffers with the same
frames at different addresses do behave differently there.  And no more may be valid than is
stored (`Valid`), since `add` and `multiply` of a constant go by the valid size without a look
at the storage.
-/

namespace Tklb

open Foundation

namespace AudioBuffer

variable {w : ℕ} {α β γ : Type} {b d : AudioBuffer w α}

/-- The same shape, as many valid frames, and the same valid frames.  What is behind the valid
frames may differ, and where the frames are in memory does not matter. -/
structure SameFrames (b d : AudioBuffer w α) : Prop where
  channels : b.mChannels = d.mChannels
  size : b.size = d.size
  valid : b.mValidSize = d.mValidSize
  samples : ∀ c < d.mChannels, ∀ i < d.mValidSize, i < d.size → b.sample c i = d.sample c i

/-- The storage starts at an aligned address, which matters to the build with vectors. -/
def StartsAligned (build : Build) (addr : ℕ) : Prop :=
  match build with
  | .scalar => True
  | .simd stride => stride ∣ addr

/-- **What the operations that go by `validSize()` can see.**  `put` and `putInterleaved`
give the same, and so do `add` and `multiply`, for which `op` stands, of the buffer to
another one, of another one to the buffer, and of a constant.  The latter do not check
what they read, so more must not be valid than there is. -/
structure BehavesLike (b d : AudioBuffer w α) : Prop where
  put : ∀ {β : Type} (conv : α → β) (target : ℕ → β) (length channel offset : ℕ),
    offset ≤ d.mValidSize →
    b.put conv target length channel offset = d.put conv target length channel offset
  putArrays : ∀ {β : Type} (conv : α → β) (target : ℕ → ℕ → β) (length chan offset : ℕ),
    offset ≤ d.mValidSize →
    b.putArrays conv target length chan offset = d.putArrays conv target length chan offset
  putInterleaved : ∀ {β : Type} (conv : α → β) (target : ℕ → β) (length offset chan : ℕ),
    offset ≤ d.mValidSize →
    b.putInterleavedChecked conv target length offset chan =
      d.putInterleavedChecked conv target length offset chan
  source : ∀ {β : Type} (build : Build) (op : β → α → β) (vop : α → β → β),
    (∀ x y, vop y x = op x y) → d.Valid →
    ∀ (buffer : AudioBuffer w β) (dst src src' length offsetSrc offsetDst : ℕ),
      StartsAligned build src → StartsAligned build src' →
      offsetSrc ≤ d.mValidSize → offsetDst ≤ buffer.mValidSize →
      buffer.mix build op vop b dst src length offsetSrc offsetDst =
        buffer.mix build op vop d dst src' length offsetSrc offsetDst
  target : ∀ {β : Type} (build : Build) (op : α → β → α) (vop : β → α → α),
    (∀ x y, vop y x = op x y) → d.Valid →
    ∀ (buffer : AudioBuffer w β) (dst dst' src length offsetSrc offsetDst : ℕ),
      StartsAligned build dst → StartsAligned build dst' →
      offsetSrc ≤ buffer.mValidSize → offsetDst ≤ d.mValidSize →
      Option.Rel SameFrames (b.mix build op vop buffer dst src length offsetSrc offsetDst)
        (d.mix build op vop buffer dst' src length offsetSrc offsetDst)
  value : ∀ (build : Build) (op : α → α → α), d.Valid →
    ∀ (dst dst' : ℕ) (value : α), StartsAligned build dst → StartsAligned build dst' →
      Option.Rel SameFrames (b.mixValue build op dst value) (d.mixValue build op dst' value)

/-! ### `add` and `multiply` of a constant -/

/-- What the scalar build computes. -/
def mixedValue (op : α → α → α) (b : AudioBuffer w α) (value : α) : AudioBuffer w α :=
  b.withCells (modifyGrid b.mChannels b.mValidSize (fun c i => b.get c + 0 + i)
    (fun _ _ old => op old value) b.cell)

/-- The build does not fault. -/
def ValueRuns (build : Build) (b : AudioBuffer w α) (dst : ℕ) : Prop :=
  match build with
  | .scalar => True
  | .simd stride => ValueAligned stride b dst

theorem mixValue_eq_some_iff {build : Build} {op : α → α → α} {dst : ℕ} {value : α}
    {b' : AudioBuffer w α} :
    b.mixValue build op dst value = some b' ↔
      ValueRuns build b dst ∧ b' = b.mixedValue op value := by
  have hscalar : b.mixValue .scalar op dst value = some (b.mixedValue op value) := by
    rw [mixValue_scalar]
    simp only [scalarLoop_apart, mixedValue, modifyGrid, Nat.add_zero]
  cases build with
  | scalar =>
      rw [hscalar, Option.some.injEq, eq_comm]
      exact ⟨fun h => ⟨trivial, h⟩, fun h => h.2⟩
  | simd stride =>
      by_cases haligned : ValueAligned stride b dst
      · rw [mixValue_simd_iff.mpr haligned, hscalar, Option.some.injEq, eq_comm]
        exact ⟨fun h => ⟨haligned, h⟩, fun h => h.2⟩
      · rw [mixValue_fault haligned]
        exact iff_of_false (fun h => by cases h) fun h => haligned h.1

/-! ### Where the frames are -/

namespace SameFrames

theorem get (h : SameFrames b d) (c : ℕ) : b.get c = d.get c := by
  unfold AudioBuffer.get
  rw [← size_eq, ← size_eq, h.size]

theorem readable {conv : α → γ} (h : SameFrames b d) {c offset i : ℕ} (hc : c < d.mChannels)
    (hi : offset + i < d.mValidSize) :
    b.readable conv c offset i = d.readable conv c offset i := by
  by_cases hsize : offset + i < d.size
  · rw [readable_of_lt hsize, readable_of_lt (h.size ▸ hsize), h.samples c hc _ hi hsize]
  · rw [readable_of_le (Nat.not_lt.mp hsize), readable_of_le (h.size ▸ Nat.not_lt.mp hsize)]

/-! ### `put` -/

theorem put {conv : α → γ} (h : SameFrames b d) {length channel offset : ℕ}
    (hoffset : offset ≤ d.mValidSize) (target : ℕ → γ) :
    b.put conv target length channel offset = d.put conv target length channel offset := by
  have hlt := d.valid_lt
  unfold AudioBuffer.put
  rw [h.channels, h.valid]
  split
  · rfl
  · rename_i hchannel
    simp only [wsub_of_le hlt hoffset]
    rw [copyEach_congr fun i hi => h.readable (Nat.not_le.mp hchannel) (by omega)]

theorem putArrays {conv : α → γ} (h : SameFrames b d) {length chan offset : ℕ}
    (hoffset : offset ≤ d.mValidSize) (target : ℕ → ℕ → γ) :
    b.putArrays conv target length chan offset = d.putArrays conv target length chan offset := by
  unfold AudioBuffer.putArrays
  simp only [h.channels, h.put hoffset]

theorem interleaveChannelChecked {conv : α → γ} (h : SameFrames b d)
    {n chan offset c : ℕ} (hc : c < d.mChannels) (hn : offset + n ≤ d.mValidSize) (m : ℕ → γ) :
    b.interleaveChannelChecked conv n chan offset c m =
      d.interleaveChannelChecked conv n chan offset c m := by
  have hlt := d.valid_lt
  unfold AudioBuffer.interleaveChannelChecked
  refine congrArg _ (countUpOption_congr (fun i hi p => ?_) _)
  have hframe : 0 + wrap w (i + offset) < d.mValidSize := by
    rw [wrap_of_lt (by omega)]
    omega
  rw [h.readable hc hframe]

theorem putInterleavedChecked {conv : α → γ} (h : SameFrames b d) {length offset chan : ℕ}
    (hoffset : offset ≤ d.mValidSize) (target : ℕ → γ) :
    b.putInterleavedChecked conv target length offset chan =
      d.putInterleavedChecked conv target length offset chan := by
  unfold AudioBuffer.putInterleavedChecked
  simp only [h.channels, h.valid]
  refine congrArg (fun r => Option.bind r _) (countUpOption_congr (fun c hc p => ?_) _)
  have hc : c < d.mChannels := by split at hc <;> omega
  rw [wsub_of_le d.valid_lt hoffset, h.interleaveChannelChecked hc (by omega)]

end SameFrames

/-! ### `add` and `multiply` -/

/-- The samples after `add` and `multiply`. -/
theorem sample_mixedAll {op : α → β → α} {buffer : AudioBuffer w β} {offsetSrc offsetDst : ℕ}
    (hvalid : b.Valid) (hdst : offsetDst ≤ b.mValidSize) {c i : ℕ} (hc : c < b.mChannels)
    (hi : i < b.size) :
    (b.mixedAll op buffer offsetSrc offsetDst).sample c i =
      if c < buffer.mChannels ∧ offsetDst ≤ i ∧
          i < offsetDst + b.common buffer offsetSrc offsetDst then
        op (b.sample c i) (buffer.sample c (offsetSrc + (i - offsetDst)))
      else b.sample c i := by
  have hle : b.mValidSize ≤ b.size := hvalid
  rw [mixedAll, withCells_sample]
  split
  · rename_i hin
    obtain ⟨hchan, hlo, hhi⟩ := hin
    obtain ⟨k, rfl⟩ := Nat.exists_eq_add_of_le hlo
    rw [← Nat.add_assoc, modifyGrid_addr (gridInjective_common hvalid hdst) (by omega) (by omega),
      Nat.add_sub_cancel_left, Nat.add_assoc]
    rfl
  · rename_i hnot
    refine modifyGrid_of_ne fun e he j hj heq => hnot ?_
    have hroom : offsetDst + b.common buffer offsetSrc offsetDst ≤ b.size := by
      unfold common
      omega
    rw [Nat.add_assoc] at heq
    have hsame := get_add_injective (by omega) hc (by omega) hi heq
    omega

/-- Two calls that succeed under the same condition. -/
theorem rel_of_eq_some_iff {x y : Option (AudioBuffer w α)} {P Q : Prop} {u v : AudioBuffer w α}
    (hx : ∀ b', x = some b' ↔ P ∧ b' = u) (hy : ∀ b', y = some b' ↔ Q ∧ b' = v) (hiff : P ↔ Q)
    (huv : SameFrames u v) : Option.Rel SameFrames x y := by
  by_cases hP : P
  · rw [(hx u).mpr ⟨hP, rfl⟩, (hy v).mpr ⟨hiff.mp hP, rfl⟩]
    exact Option.Rel.some huv
  · have hxnone : x = none := Option.eq_none_iff_forall_ne_some.mpr fun b' h => hP ((hx b').mp h).1
    have hynone : y = none :=
      Option.eq_none_iff_forall_ne_some.mpr fun b' h => hP (hiff.mpr ((hy b').mp h).1)
    rw [hxnone, hynone]
    exact Option.Rel.none

/-- Where an aligned storage starts makes no difference. -/
theorem dvd_start_iff {stride addr addr' : ℕ} (haddr : stride ∣ addr) (haddr' : stride ∣ addr')
    (x y : ℕ) : stride ∣ addr + x + y ↔ stride ∣ addr' + x + y := by
  rw [Nat.add_assoc, Nat.add_assoc, Nat.dvd_add_right haddr, Nat.dvd_add_right haddr']

namespace SameFrames

variable {build : Build} {dst dst' src src' length offsetSrc offsetDst : ℕ}

theorem isValid (h : SameFrames b d) (hvalid : d.Valid) : b.Valid := by
  unfold Valid
  rw [h.valid, h.size]
  exact hvalid

/-- The buffer is what is added or multiplied. -/
theorem mix_source {op : β → α → β} {vop : α → β → β} (h : SameFrames b d)
    (hcomm : ∀ x y, vop y x = op x y) (hvalid : d.Valid) (buffer : AudioBuffer w β)
    (hstart : StartsAligned build src) (hstart' : StartsAligned build src')
    (hsrc : offsetSrc ≤ d.mValidSize) (hdst : offsetDst ≤ buffer.mValidSize) :
    buffer.mix build op vop b dst src length offsetSrc offsetDst =
      buffer.mix build op vop d dst src' length offsetSrc offsetDst := by
  have hle : d.mValidSize ≤ d.size := hvalid
  have hcommon : buffer.common b offsetSrc offsetDst = buffer.common d offsetSrc offsetDst := by
    unfold common
    rw [h.valid]
  have hmixed : buffer.mixedAll op b offsetSrc offsetDst =
      buffer.mixedAll op d offsetSrc offsetDst := by
    unfold mixedAll
    rw [hcommon, h.channels]
    refine congrArg _ (modifyGrid_congr fun c hc i hi => ?_)
    unfold common at hi
    rw [h.samples c (by omega) _ (by omega) (by omega)]
  have hruns : Runs build buffer b dst src length offsetSrc offsetDst ↔
      Runs build buffer d dst src' length offsetSrc offsetDst := by
    cases build with
    | scalar => exact Iff.rfl
    | simd stride =>
        unfold Runs MixAligned mixLength
        simp only [h.channels, h.valid, h.get, dvd_start_iff hstart hstart']
  refine Option.ext fun b' => ?_
  rw [mix_eq_some_iff hcomm (h.valid ▸ hsrc) hdst, mix_eq_some_iff hcomm hsrc hdst, hruns, hmixed]

/-- The buffer is what is added or multiplied to. -/
theorem mix_target {op : α → β → α} {vop : β → α → α} (h : SameFrames b d)
    (hcomm : ∀ x y, vop y x = op x y) (hvalid : d.Valid) (buffer : AudioBuffer w β)
    (hstart : StartsAligned build dst) (hstart' : StartsAligned build dst')
    (hsrc : offsetSrc ≤ buffer.mValidSize) (hdst : offsetDst ≤ d.mValidSize) :
    Option.Rel SameFrames (b.mix build op vop buffer dst src length offsetSrc offsetDst)
      (d.mix build op vop buffer dst' src length offsetSrc offsetDst) := by
  have hdst' : offsetDst ≤ b.mValidSize := h.valid ▸ hdst
  refine rel_of_eq_some_iff (fun _ => mix_eq_some_iff hcomm hsrc hdst')
    (fun _ => mix_eq_some_iff hcomm hsrc hdst) ?_ ⟨h.channels, h.size, h.valid, ?_⟩
  · cases build with
    | scalar => exact Iff.rfl
    | simd stride =>
        unfold Runs MixAligned mixLength
        simp only [h.channels, h.valid, h.get, dvd_start_iff hstart hstart']
  · intro c hc i hi hsize
    have hsame := h.samples c hc i hi hsize
    have hcommon : b.common buffer offsetSrc offsetDst =
        d.common buffer offsetSrc offsetDst := by
      unfold common
      rw [h.valid]
    rw [sample_mixedAll (h.isValid hvalid) hdst' (h.channels ▸ hc) (h.size ▸ hsize),
      sample_mixedAll hvalid hdst hc hsize, hcommon, hsame]

/-- A constant is added or multiplied. -/
theorem mixValue {op : α → α → α} (h : SameFrames b d) (hvalid : d.Valid)
    (hstart : StartsAligned build dst) (hstart' : StartsAligned build dst') (value : α) :
    Option.Rel SameFrames (b.mixValue build op dst value) (d.mixValue build op dst' value) := by
  refine rel_of_eq_some_iff (fun _ => mixValue_eq_some_iff) (fun _ => mixValue_eq_some_iff) ?_
    ⟨h.channels, h.size, h.valid, ?_⟩
  · cases build with
    | scalar => exact Iff.rfl
    | simd stride =>
        unfold ValueRuns ValueAligned
        have hiff := fun c => dvd_start_iff hstart hstart' (d.get c) 0
        simp only [Nat.add_zero] at hiff
        simp only [h.channels, h.valid, h.get, hiff]
  · intro c (hc : c < d.mChannels) i (hi : i < d.mValidSize) (hsize : i < d.size)
    have hvalid' : b.mValidSize ≤ b.size := h.isValid hvalid
    have hle : d.mValidSize ≤ d.size := hvalid
    unfold mixedValue
    rw [sample_modifyGrid (by omega) (h.channels ▸ hc) (h.size ▸ hsize),
      sample_modifyGrid (by omega) hc hsize, h.valid, h.samples c hc i hi hsize]

/-- **The same audio behaves the same.**  Whatever is asked of two buffers that have the same
channels, sizes and frames, the replies are the same and so are the frames afterwards; where in
memory the frames lie is not seen. -/
theorem behavesLike (h : SameFrames b d) : BehavesLike b d where
  put := fun _ target _ _ _ hoffset => h.put hoffset target
  putArrays := fun _ target _ _ _ hoffset => h.putArrays hoffset target
  putInterleaved := fun _ target _ _ _ hoffset => h.putInterleavedChecked hoffset target
  source := fun _ _ _ hcomm hvalid buffer _ _ _ _ _ _ hstart hstart' hsrc hdst =>
    h.mix_source hcomm hvalid buffer hstart hstart' hsrc hdst
  target := fun _ _ _ hcomm hvalid buffer _ _ _ _ _ _ hstart hstart' hsrc hdst =>
    h.mix_target hcomm hvalid buffer hstart hstart' hsrc hdst
  value := fun _ _ hvalid _ _ value hstart hstart' => h.mixValue hvalid hstart hstart' value

end SameFrames

end AudioBuffer

end Tklb
