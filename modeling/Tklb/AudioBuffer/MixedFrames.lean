import Tklb.AudioBuffer.Mixing
import Tklb.AudioBuffer.ValidSize

/-!
# Which frames `add` and `multiply` change

Both are asked for a number of frames, and go through all that the two buffers have: the
length that was asked for is overwritten (`mixLength`).  The frames are right otherwise,
each is changed once and nothing else is, so the outcome is the one asked for when no
fewer frames are asked for than there are, or when changing the others makes no
difference.

### What is load-bearing

`Mixed n` says what a call should have done, for any number `n` of frames, so it can be stated
of the length that was asked for and of the length the code goes through.  `mixedAll_mixed_iff`
compares the two: a call that goes through all frames has mixed the `n` first ones exactly if
there are no more, or if mixing the others is the identity, which happens for a sum with zeros
and for a product with ones (`LengthMatters`).

Both builds are covered by the same theorem.  The build with vectors is brought back to the one
with samples by `mixLoop_simd_iff`, and the only thing that is left of it in the result is that
it may fault (`Runs`).  So `add_multiply_mixed_iff` is an equivalence for each build, about
`add` and `multiply` with any operation on samples in their place.
-/

namespace Tklb

open Foundation

namespace AudioBuffer

variable {w : ℕ} {α β : Type}

/-- The frames both buffers have behind the offsets. -/
def common (b : AudioBuffer w α) (buffer : AudioBuffer w β) (offsetSrc offsetDst : ℕ) : ℕ :=
  min (buffer.mValidSize - offsetSrc) (b.mValidSize - offsetDst)

/-- The frames to change: as many as are asked for and both buffers have. -/
def asked (b : AudioBuffer w α) (buffer : AudioBuffer w β) (length offsetSrc offsetDst : ℕ) : ℕ :=
  min (if length = 0 then buffer.mValidSize - offsetSrc else length)
    (b.common buffer offsetSrc offsetDst)

/-- **`n` frames were mixed**: those from `offsetDst` on, in the channels both buffers
have; no other cell and no other field is changed. -/
structure Mixed (op : α → β → α) (b : AudioBuffer w α) (buffer : AudioBuffer w β)
    (n offsetSrc offsetDst : ℕ) (b' : AudioBuffer w α) : Prop where
  shape : SameShape b b'
  inside : ∀ c < min buffer.mChannels b.mChannels, ∀ i < n,
    b'.sample c (offsetDst + i) =
      op (b.sample c (offsetDst + i)) (buffer.sample c (offsetSrc + i))
  outside : ∀ k, (∀ c < min buffer.mChannels b.mChannels, ∀ i < n,
    b.get c + offsetDst + i ≠ k) → b'.cell k = b.cell k

/-- Fewer frames are asked for than there are, and mixing the others would change
them. -/
def LengthMatters (op : α → β → α) (b : AudioBuffer w α) (buffer : AudioBuffer w β)
    (length offsetSrc offsetDst : ℕ) : Prop :=
  0 < length ∧ ∃ c < min buffer.mChannels b.mChannels, ∃ i, length ≤ i ∧
    i < b.common buffer offsetSrc offsetDst ∧
      op (b.sample c (offsetDst + i)) (buffer.sample c (offsetSrc + i)) ≠
        b.sample c (offsetDst + i)

/-- The build does not fault.  The scalar build never does; the SIMD one does on the first vector
that is not aligned. -/
def Runs (build : Build) (b : AudioBuffer w α) (buffer : AudioBuffer w β)
    (dst src length offsetSrc offsetDst : ℕ) : Prop :=
  match build with
  | .scalar => True
  | .simd stride => MixAligned stride b buffer dst src length offsetSrc offsetDst

section Mix

variable {op : α → β → α} {vop : β → α → α} {b : AudioBuffer w α} {buffer : AudioBuffer w β}
  {dst src length offsetSrc offsetDst : ℕ}

/-- In offsets within the valid ranges nothing is wrapped. -/
theorem mixLength_eq (hsrc : offsetSrc ≤ buffer.mValidSize) (hdst : offsetDst ≤ b.mValidSize) :
    b.mixLength buffer length offsetSrc offsetDst = b.common buffer offsetSrc offsetDst := by
  unfold mixLength common
  rw [wsub_of_le buffer.valid_lt hsrc, wsub_of_le b.valid_lt hdst]

/-- A loop over samples whose source has a memory of its own. -/
theorem scalarLoop_apart (out : ℕ) (samples : ℕ → β) (n : ℕ) :
    scalarLoop op out (fun _ i => samples i) 0 n =
      modifyEach n (fun i => out + i) fun i old => op old (samples i) := by
  funext m
  unfold scalarLoop modifyEach
  simp only [Nat.zero_add]

/-- What the scalar build computes. -/
def mixedAll (op : α → β → α) (b : AudioBuffer w α) (buffer : AudioBuffer w β)
    (offsetSrc offsetDst : ℕ) : AudioBuffer w α :=
  b.withCells (modifyGrid (min buffer.mChannels b.mChannels)
    (b.common buffer offsetSrc offsetDst) (fun c i => b.get c + offsetDst + i)
    (fun c i old => op old (buffer.sample c (offsetSrc + i))) b.cell)

theorem mix_scalar (hsrc : offsetSrc ≤ buffer.mValidSize) (hdst : offsetDst ≤ b.mValidSize) :
    b.mix .scalar op vop buffer dst src length offsetSrc offsetDst =
      some (b.mixedAll op buffer offsetSrc offsetDst) := by
  unfold mix mixedAll modifyGrid
  dsimp only
  rw [mixLoop_scalar, Option.map_some, mixLength_eq hsrc hdst]
  simp only [scalarLoop_apart, sample, Nat.add_assoc]

/-- The other build computes the same, or faults. -/
theorem mix_eq_some_iff {build : Build} (hcomm : ∀ x y, vop y x = op x y)
    (hsrc : offsetSrc ≤ buffer.mValidSize) (hdst : offsetDst ≤ b.mValidSize)
    {b' : AudioBuffer w α} :
    b.mix build op vop buffer dst src length offsetSrc offsetDst = some b' ↔
      Runs build b buffer dst src length offsetSrc offsetDst ∧
        b' = b.mixedAll op buffer offsetSrc offsetDst := by
  have hscalar : b.mix .scalar op vop buffer dst src length offsetSrc offsetDst =
      some (b.mixedAll op buffer offsetSrc offsetDst) := mix_scalar hsrc hdst
  cases build with
  | scalar =>
      rw [hscalar, Option.some.injEq, eq_comm]
      exact ⟨fun h => ⟨trivial, h⟩, fun h => h.2⟩
  | simd stride =>
      by_cases haligned : MixAligned stride b buffer dst src length offsetSrc offsetDst
      · have hsame : b.mix (.simd stride) op vop buffer dst src length offsetSrc offsetDst =
            b.mix .scalar op vop buffer dst src length offsetSrc offsetDst := by
          refine congrArg (Option.map b.withCells)
            (mixLoop_aligned hcomm (fun c => ?_) (fun c hc hvectors => ?_) b.cell)
          · exact MixChannel.readsAhead_apart _
          · exact haligned hvectors c hc
        rw [hsame, hscalar, Option.some.injEq, eq_comm]
        exact ⟨fun h => ⟨haligned, h⟩, fun h => h.2⟩
      · obtain ⟨hvectors, hnot⟩ := not_forall.mp haligned
        obtain ⟨c, hnot⟩ := not_forall.mp hnot
        obtain ⟨hc, hnot⟩ := not_forall.mp hnot
        have hfault : b.mix (.simd stride) op vop buffer dst src length offsetSrc offsetDst =
            none := by
          refine congrArg (Option.map b.withCells)
            (mixLoop_fault hcomm (fun c => ?_) hc (fun h => ?_) b.cell)
          · exact MixChannel.readsAhead_apart _
          · exact hnot (h hvectors)
        rw [hfault]
        exact iff_of_false nofun fun h => haligned h.1

/-- The cells of the frames both buffers have are different. -/
theorem gridInjective_common (hvalid : b.Valid) (hdst : offsetDst ≤ b.mValidSize) :
    GridInjective (min buffer.mChannels b.mChannels) (b.common buffer offsetSrc offsetDst)
      fun c i => b.get c + offsetDst + i := by
  have hfit : offsetDst + b.common buffer offsetSrc offsetDst ≤ b.size := by
    have hle : b.mValidSize ≤ b.size := hvalid
    unfold common
    omega
  intro c hc i hi d hd j hj h
  exact gridInjective_get hfit c (by omega) i hi d (by omega) j hj h

/-- **Frames.**  All that both buffers have are mixed, and that is what was asked for if
and only if the length does not matter. -/
theorem mixedAll_mixed_iff (hvalid : b.Valid) (hdst : offsetDst ≤ b.mValidSize) :
    b.Mixed op buffer (b.asked buffer length offsetSrc offsetDst) offsetSrc offsetDst
        (b.mixedAll op buffer offsetSrc offsetDst) ↔
      ¬ LengthMatters op b buffer length offsetSrc offsetDst := by
  have hinj : GridInjective _ (b.common buffer offsetSrc offsetDst) _ :=
    gridInjective_common hvalid hdst
  have hmixed : ∀ c < min buffer.mChannels b.mChannels,
      ∀ i < b.common buffer offsetSrc offsetDst,
        (b.mixedAll op buffer offsetSrc offsetDst).cell (b.get c + offsetDst + i) =
          op (b.sample c (offsetDst + i)) (buffer.sample c (offsetSrc + i)) := by
    intro c hc i hi
    rw [mixedAll, withCells_cell, modifyGrid_addr hinj hc hi]
    simp only [sample, Nat.add_assoc]
  have hasked : b.asked buffer length offsetSrc offsetDst ≤
      b.common buffer offsetSrc offsetDst := Nat.min_le_right _ _
  constructor
  · rintro hfine ⟨hpos, c, hc, i, hlength, hi, hne⟩
    apply hne
    have hshort : b.asked buffer length offsetSrc offsetDst ≤ i := by
      unfold asked
      rw [if_neg hpos.ne']
      omega
    rw [← hmixed c hc i hi, hfine.outside, sample, Nat.add_assoc]
    intro d hd j hj heq
    have := (hinj d hd j (by omega) c hc i hi heq).2
    omega
  · intro hlength
    refine ⟨⟨_, rfl⟩, ?_, ?_⟩
    · intro c hc i hi
      rw [← hmixed c hc i (by omega), sample, Nat.add_assoc]
      rfl
    · intro k hk
      by_cases hin : ∃ c < min buffer.mChannels b.mChannels,
          ∃ i < b.common buffer offsetSrc offsetDst, b.get c + offsetDst + i = k
      · -- it is one of the frames that were mixed and not asked for
        obtain ⟨c, hc, i, hi, rfl⟩ := hin
        rw [hmixed c hc i hi]
        by_contra hne
        apply hlength
        have hbehind : b.asked buffer length offsetSrc offsetDst ≤ i := by
          by_contra hlt
          exact hk c hc i (by omega) rfl
        unfold asked common at hbehind
        unfold common at hi
        refine ⟨?_, c, hc, i, ?_, hi, ?_⟩
        · by_contra hzero
          rw [if_pos (by omega)] at hbehind
          omega
        · split at hbehind <;> omega
        · intro heq
          apply hne
          rw [heq, sample, Nat.add_assoc]
      · rw [mixedAll, withCells_cell]
        refine modifyGrid_of_ne fun c hc i hi heq => hin ⟨c, hc, i, hi, heq⟩

end Mix

end AudioBuffer

end Tklb
