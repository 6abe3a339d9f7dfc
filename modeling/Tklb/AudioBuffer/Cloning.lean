import Tklb.AudioBuffer.SameFrames

/-!
# `clone`

`clone` resizes the buffer to the size and the channels of the source and copies what is
valid there.  Neither takes over the valid size: `resize` keeps the old one as far as it
fits, or takes the whole size if there was none, and `set` does not touch it.  And the
size that `resize` gives is that of the source only if that one is aligned.

`clone_iff` says for which earlier states of the target the result is a clone.

### What is load-bearing

`IsClone` asks for more than equal fields: two buffers with the same shape and the same valid
frames also have to behave the same in every later operation (`BehavesLike`).  That part comes
for free once the valid frames agree (`SameFrames.behavesLike`), so the work is in the valid
size alone.

The condition of `clone_iff` has two cases because `resize` has two branches.  Where nothing has
to be resized the valid size stays what it was, and where something has to be it becomes the
smaller one of the old valid size and the length, or the length if there was nothing valid.
Neither of them looks at the valid size of the source, which is the defect; `not_isClone_new`
shows it on a new buffer, where one would least expect it.
-/

namespace Tklb

open Foundation

namespace AudioBuffer

/-- **A clone**: the same shape, the same valid frames, and nothing that goes by them can tell
the two apart. -/
structure IsClone {w : ℕ} {α : Type} (b source : AudioBuffer w α) : Prop where
  same : SameFrames b source
  behaves : BehavesLike b source

variable {α : Type} [Zero α] {B : BufferType} {b source : AudioBuffer B.sizeBits α}
  {stored : Bool}

/-- The valid size after a resize that changes the shape. -/
theorem resize_mValidSize {length : Fin (2 ^ B.sizeBits)} {chan : Fin (2 ^ 8)}
    (hchange : ¬ (chan = b.mChannels ∧ b.size = length)) (stored : Bool) :
    (b.resize B length chan stored).mValidSize =
      if b.mValidSize = 0 then (length : ℕ) else min b.mValidSize length := by
  rw [resize, if_neg hchange]

omit [Zero α] in
/-- What `set` makes of a target with the shape of the source. -/
theorem sameFrames_setBuffer_iff {w : ℕ} {d buffer : AudioBuffer w α}
    (hch : d.mChannels = buffer.mChannels) :
    SameFrames (d.setBuffer buffer 0 0 0) buffer ↔
      d.size = buffer.size ∧ d.mValidSize = buffer.mValidSize := by
  have hwrites := writes_setBuffer (b := d) buffer 0 0 (Nat.zero_le _)
  have hvalid : (d.setBuffer buffer 0 0 0).mValidSize = d.mValidSize := by
    obtain ⟨m, hm⟩ := hwrites.shape
    rw [hm]
    rfl
  constructor
  · intro h
    exact ⟨setBuffer_size.symm.trans h.size, hvalid.symm.trans h.valid⟩
  · rintro ⟨hsize, hsame⟩
    refine ⟨setBuffer_mChannels.trans hch, setBuffer_size.trans hsize, hvalid.trans hsame, ?_⟩
    intro c hc i hi hin
    have hwritten := hwrites.written c (hch ▸ hc) hc i
    rw [if_pos rfl, Nat.sub_zero, Nat.zero_add] at hwritten
    exact hwritten (by omega)

/-- The size `resize` gives is the one it is asked for. -/
theorem resize_size_eq_iff (hA : Aligned B) (hsmall : 256 * stride B ≤ 2 ^ B.sizeBits)
    {length : Fin (2 ^ B.sizeBits)} {chan : Fin (2 ^ 8)} (hchan : 0 < (chan : ℕ))
    (hchange : ¬ (chan = b.mChannels ∧ b.size = length))
    (hroom : (chan : ℕ) * length < 2 ^ B.sizeBits) :
    (b.resize B length chan stored).size = length ↔
      (length : ℕ) = 0 ∨ stored = true ∧ stride B ∣ length := by
  rw [resize_size_eq hsmall hchange]
  cases stored with
  | false => simp [eq_comm]
  | true =>
      rw [if_pos rfl]
      by_cases hfit : SizeFits B length chan
      · rw [wrap_of_lt hfit, Nat.mul_div_cancel_left _ hchan, hA.padded_eq]
        constructor
        · intro heq
          exact Or.inr ⟨rfl, heq ▸ dvd_roundUp _ _⟩
        · rintro (hzero | ⟨-, hdvd⟩)
          · rw [hzero, roundUp_of_dvd (Nat.dvd_zero _)]
          · exact roundUp_of_dvd hdvd
      · have hless := Nat.div_lt_of_lt_mul (wrapped_lt hA hsmall hfit)
        refine iff_of_false hless.ne ?_
        rintro (hzero | ⟨-, hdvd⟩)
        · rw [hzero] at hless
          exact Nat.not_lt_zero _ hless
        · rw [SizeFits, hA.padded_eq, roundUp_of_dvd hdvd] at hfit
          exact hfit hroom

/-- **`clone`.**  For every history of the target the buffer becomes a clone of the source
if and only if nothing has to be resized and the valid sizes agree already; or the storage
of the source is aligned, there is memory for it, and the valid size of the target, where
0 stands for everything, is clamped to that of the source. -/
theorem clone_iff (hA : Aligned B) (hsmall : 256 * stride B ≤ 2 ^ B.sizeBits)
    (b source : AudioBuffer B.sizeBits α) (hsource : 1 ≤ source.mChannels) (stored : Bool) :
    IsClone (b.clone B source stored) source ↔
      if source.mChannels = b.mChannels ∧ b.size = source.size then
        b.mValidSize = source.mValidSize
      else
        (source.size = 0 ∨ stored = true ∧ stride B ∣ source.size) ∧
          (if b.mValidSize = 0 then source.size else min b.mValidSize source.size) =
            source.mValidSize := by
  have hclone : IsClone (b.clone B source stored) source ↔
      SameFrames (b.clone B source stored) source :=
    ⟨fun h => h.same, fun h => ⟨h, h.behavesLike⟩⟩
  have hchannels : (b.resizeLike B source stored).mChannels = source.mChannels :=
    resize_mChannels b _ _ stored
  rw [hclone, clone, sameFrames_setBuffer_iff hchannels]
  split
  · rename_i hsame
    have hkept : b.resizeLike B source stored = b := resize_of_same hsame stored
    rw [hkept]
    exact and_iff_right hsame.2
  · rename_i hchange
    have hroom : source.mChannels * source.size < 2 ^ B.sizeBits :=
      source.channels_mul_size_le.trans_lt source.buffer_lt
    exact and_congr (resize_size_eq_iff hA hsmall hsource hchange hroom)
      (by rw [resizeLike, resize_mValidSize hchange])

/-- A buffer of two channels with sixteen frames, cloned to a new one. -/
theorem clone_iff_new :
    let source := (initial : AudioBuffer 32 ℤ).resize ⟨32, 64, 4, 16⟩ 16 2 true
    IsClone ((initial : AudioBuffer 32 ℤ).clone ⟨32, 64, 4, 16⟩ source true) source := by
  intro source
  exact (clone_iff (B := ⟨32, 64, 4, 16⟩) ⟨by decide, 2, rfl⟩ (by decide) initial source
    (by decide) true).mpr (by decide)

/-- A buffer of ten frames has a size of twelve, and its clone in a new buffer twelve valid
frames. -/
theorem not_isClone_new :
    let source := (initial : AudioBuffer 32 ℤ).resize ⟨32, 64, 4, 16⟩ 10 1 true
    ¬ IsClone ((initial : AudioBuffer 32 ℤ).clone ⟨32, 64, 4, 16⟩ source true) source := by
  intro source h
  exact absurd h.same.valid (by decide)

end AudioBuffer

end Tklb
