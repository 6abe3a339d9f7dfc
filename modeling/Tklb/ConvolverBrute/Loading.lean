import Mathlib.Data.Nat.Find
import Mathlib.Data.Rat.Defs
import Mathlib.Algebra.Order.Field.Basic
import Mathlib.Tactic.NormNum
import Tklb.AudioBuffer.Setting
import Tklb.AudioBuffer.Storage
import Tklb.ConvolverBrute

/-!
# Loading an impulse response

`load` looks from the end of the response for a frame that is not silent, resizes the buffer
`mIr` to what is left, and copies what is valid there.  Four lengths play a part: the frames
that are searched are those of the storage, `ir.size()`; what is left of them ends with the
last audible frame, unless that is the first one, which is not searched (`audibleLength`);
the buffer has as many, rounded up; and what is copied are the valid frames.

Behind the valid frames there should be silence.  `resize` clears what it allocates, but a
buffer that has the shape already is not touched, and then the frames that are not copied
are those of the response before.  `storesResponse_iff` says when there is nothing left of
it, and `load_eq_of_runs` that what is stored then depends on the response alone.

### What is load-bearing

`StoresResponse` has four fields, and `load` meets the first two always: the channels, and the
frames that are copied.  The third one, that nothing of an earlier response is left behind them,
depends on whether `resize` allocated (`SameShape`), the fourth, that nothing audible was
dropped, on whether it got what it asked for (`Granted`).  `Overwrites` is the conjunction of
what is needed in each case, read off the two buffers before the call.

The threshold is a parameter of all of this.  The source writes it as a constant of the sample
type of the response, which is not the same number for `float` and for `double`, and nothing
depends on which one it is.
-/

namespace Tklb

open Foundation AudioBuffer

namespace ConvolverBrute

variable {w : ℕ} {α : Type} [Field α] [LinearOrder α]

/-! ### The code -/

/-- `silence < fabs(v)`; the constant `silence` is 0.0001, as a number of the sample type of the
response, which is nearest to that but not the same for `float` and `double`. -/
def Audible (silence v : α) : Prop := silence < |v|

instance (silence v : α) : Decidable (Audible silence v) :=
  inferInstanceAs (Decidable (silence < |v|))

/-- Some channel is audible at frame `i`.  The response is trimmed behind the last such frame, the
same for all channels. -/
def AudibleAt (silence : α) (ir : AudioBuffer w α) (i : ℕ) : Prop :=
  ∃ c < ir.mChannels, Audible silence (ir.sample c i)

instance (silence : α) (ir : AudioBuffer w α) : DecidablePred (AudibleAt silence ir) :=
  fun i => inferInstanceAs (Decidable (∃ c < ir.mChannels, Audible silence (ir.sample c i)))

/-- The loops that look for the last audible frame, from frame `i` down to frame 1; without
one the length is the one there was. -/
def trim (silence : α) (ir : AudioBuffer w α) (irLength : ℕ) : ℕ → ℕ
  | 0 => irLength
  | i + 1 => if AudibleAt silence ir (i + 1) then i + 1 + 1 else trim silence ir irLength i

theorem trim_le (silence : α) (ir : AudioBuffer w α) {irLength i : ℕ} (hi : i + 1 ≤ irLength) :
    trim silence ir irLength i ≤ irLength := by
  induction i with
  | zero => exact le_refl _
  | succ i ih =>
      rw [trim]
      split
      · exact hi
      · exact ih (Nat.le_of_succ_le hi)

/-- `ir.channels()` as an argument of `resize`. -/
def channelCount (ir : AudioBuffer w α) : Fin (2 ^ 8) := ⟨ir.mChannels, ir.channels_lt⟩

/-- `load(ir, blockSize)`; the block size is not used.  `stored` tells whether there is
memory for the buffer. -/
def load (B : BufferType) (silence : α) (mIr ir : AudioBuffer B.sizeBits α) (stored : Bool) :
    AudioBuffer B.sizeBits α :=
  if h : ir.size = 0 then mIr
  else
    let irLength : Fin (2 ^ B.sizeBits) := ⟨trim silence ir ir.size (ir.size - 1),
      (trim_le silence ir (by omega)).trans_lt ir.size_lt⟩
    (mIr.resize B irLength (channelCount ir) stored).setBuffer ir 0 0 0

/-! ### What is left of the response -/

/-- The length of a response up to its last audible frame; the whole length if none but the
first is. -/
def audibleLength (silence : α) (ir : AudioBuffer w α) : ℕ :=
  if Nat.findGreatest (AudibleAt silence ir) (ir.size - 1) = 0 then ir.size
  else Nat.findGreatest (AudibleAt silence ir) (ir.size - 1) + 1

/-- No frame from `n` on is audible. -/
def Inaudible (silence : α) (ir : AudioBuffer w α) (n : ℕ) : Prop :=
  ∀ c < ir.mChannels, ∀ i < ir.size, n ≤ i → |ir.sample c i| ≤ silence

theorem inaudible_iff {silence : α} {ir : AudioBuffer w α} {n : ℕ} :
    Inaudible silence ir n ↔ ∀ i < ir.size, n ≤ i → ¬ AudibleAt silence ir i := by
  constructor
  · rintro h i hi hle ⟨c, hc, haudible⟩
    exact absurd haudible (not_lt.mpr (h c hc i hi hle))
  · intro h c hc i hi hle
    exact not_lt.mp fun haudible => h i hi hle ⟨c, hc, haudible⟩

theorem Inaudible.mono {silence : α} {ir : AudioBuffer w α} {m n : ℕ}
    (h : Inaudible silence ir m) (hle : m ≤ n) : Inaudible silence ir n :=
  fun c hc i hi hn => h c hc i hi (hle.trans hn)

/-- The loops find the last audible frame. -/
theorem trim_eq (silence : α) (ir : AudioBuffer w α) (irLength i : ℕ) :
    trim silence ir irLength i =
      if Nat.findGreatest (AudibleAt silence ir) i = 0 then irLength
      else Nat.findGreatest (AudibleAt silence ir) i + 1 := by
  induction i with
  | zero => rw [trim, Nat.findGreatest_zero, if_pos rfl]
  | succ i ih =>
      rw [trim, Nat.findGreatest_succ]
      by_cases haudible : AudibleAt silence ir (i + 1)
      · rw [if_pos haudible, if_pos haudible, if_neg (Nat.succ_ne_zero i)]
      · rw [if_neg haudible, if_neg haudible, ih]

theorem trim_size (silence : α) (ir : AudioBuffer w α) :
    trim silence ir ir.size (ir.size - 1) = audibleLength silence ir :=
  trim_eq silence ir _ _

theorem audibleLength_le (silence : α) (ir : AudioBuffer w α) :
    audibleLength silence ir ≤ ir.size := by
  rcases Nat.eq_zero_or_pos ir.size with hzero | hpos
  · rw [audibleLength, hzero, Nat.zero_sub, Nat.findGreatest_zero, if_pos rfl]
  · rw [← trim_size]
    exact trim_le silence ir (by omega)

/-- Behind it there is silence. -/
theorem inaudible_audibleLength (silence : α) (ir : AudioBuffer w α) :
    Inaudible silence ir (audibleLength silence ir) := by
  rw [inaudible_iff]
  intro i hi hle
  have hlast : Nat.findGreatest (AudibleAt silence ir) (ir.size - 1) < i := by
    unfold audibleLength at hle
    split at hle <;> omega
  exact Nat.findGreatest_is_greatest hlast (by omega)

/-- What is cut off short of it can be heard, unless there is nothing audible but the first
frame. -/
theorem inaudible_one_of_lt {silence : α} {ir : AudioBuffer w α} {n : ℕ}
    (h : Inaudible silence ir n) (hlt : n < audibleLength silence ir) : Inaudible silence ir 1 := by
  have hle := audibleLength_le silence ir
  rw [inaudible_iff] at h ⊢
  by_cases hnone : Nat.findGreatest (AudibleAt silence ir) (ir.size - 1) = 0
  · intro i hi hpos
    exact Nat.findGreatest_eq_zero_iff.mp hnone hpos (by omega)
  · rw [audibleLength, if_neg hnone] at hlt hle
    exact absurd (Nat.findGreatest_of_ne_zero rfl hnone) (h _ hle (Nat.le_of_lt_succ hlt))

/-! ### What is stored -/

variable {B : BufferType} {silence : α} {mIr ir : AudioBuffer B.sizeBits α} {stored : Bool}

/-- **The response is stored**: the valid frames as far as there is room for them, silence
behind them, and what there is no room for is silent. -/
structure StoresResponse (silence : α) (mIr ir : AudioBuffer w α) : Prop where
  channels : mIr.mChannels = ir.mChannels
  copied : ∀ c < ir.mChannels, ∀ k < min mIr.size ir.mValidSize, mIr.sample c k = ir.sample c k
  cleared : ∀ c < ir.mChannels, ∀ k < mIr.size, ir.mValidSize ≤ k → mIr.sample c k = 0
  dropped : Inaudible silence ir mIr.size

/-- `set` to a buffer with the channels of the response. -/
theorem storesResponse_setBuffer_iff {w : ℕ} {silence : α} {b ir : AudioBuffer w α}
    (hch : b.mChannels = ir.mChannels) :
    StoresResponse silence (b.setBuffer ir 0 0 0) ir ↔
      (∀ c < ir.mChannels, ∀ k < b.size, ir.mValidSize ≤ k → b.sample c k = 0) ∧
        Inaudible silence ir b.size := by
  have hwrites := writes_setBuffer (b := b) ir 0 0 (Nat.zero_le _)
  rw [if_pos rfl, Nat.sub_zero] at hwrites
  have hkept : ∀ c < ir.mChannels, ∀ k < b.size, ir.mValidSize ≤ k →
      (b.setBuffer ir 0 0 0).sample c k = b.sample c k := by
    intro c hc k hk hle
    exact hwrites.kept c (hch ▸ hc) k hk fun hin => by omega
  constructor
  · intro h
    refine ⟨?_, setBuffer_size ▸ h.dropped⟩
    intro c hc k hk hle
    rw [← hkept c hc k hk hle]
    exact h.cleared c hc k (setBuffer_size.symm ▸ hk) hle
  · rintro ⟨hclean, hdropped⟩
    refine ⟨setBuffer_mChannels.trans hch, ?_, ?_, setBuffer_size.symm ▸ hdropped⟩
    · intro c hc k hk
      rw [setBuffer_size] at hk
      have hwritten := hwrites.written c (hch ▸ hc) hc k (by omega)
      rwa [Nat.zero_add] at hwritten
    · intro c hc k hk hle
      rw [setBuffer_size] at hk
      rw [hkept c hc k hk hle]
      exact hclean c hc k hk hle

/-- The buffer has the shape of the response already.  Then nothing is resized, and what is behind
the response stays there. -/
def SameShape (silence : α) (mIr ir : AudioBuffer w α) : Prop :=
  ir.mChannels = mIr.mChannels ∧ mIr.size = audibleLength silence ir

instance (silence : α) (mIr ir : AudioBuffer w α) : Decidable (SameShape silence mIr ir) :=
  inferInstanceAs (Decidable (_ ∧ _))

/-- There is memory for the response, and the number of samples fits in `Size`. -/
def Granted (B : BufferType) (silence : α) (ir : AudioBuffer B.sizeBits α) (stored : Bool) : Prop :=
  stored = true ∧ SizeFits B (audibleLength silence ir) ir.mChannels

/-- **Nothing is left of the response before, and nothing is missing.**  If the shape stays,
the buffer is silent behind the valid frames.  If it changes, there is room for the response;
or it is silent, or but for its first frame, and the wrapped number of samples leaves room
for that. -/
def Overwrites (B : BufferType) (silence : α) (mIr ir : AudioBuffer B.sizeBits α)
    (stored : Bool) : Prop :=
  if SameShape silence mIr ir then
    ∀ c < ir.mChannels, ∀ k < audibleLength silence ir, ir.mValidSize ≤ k → mIr.sample c k = 0
  else
    Granted B silence ir stored ∨ Inaudible silence ir 0 ∨
      Inaudible silence ir 1 ∧ stored = true ∧
        ir.mChannels ≤ wrap B.sizeBits (ir.mChannels * padded B (audibleLength silence ir))

/-! ### The storage -/

/-- `audibleLength` as an argument of `resize`. -/
def audibleSize (silence : α) (ir : AudioBuffer w α) : Fin (2 ^ w) :=
  ⟨audibleLength silence ir, (audibleLength_le silence ir).trans_lt ir.size_lt⟩

/-- `mIr` after the `resize` of `load`. -/
def resized (B : BufferType) (silence : α) (mIr ir : AudioBuffer B.sizeBits α) (stored : Bool) :
    AudioBuffer B.sizeBits α :=
  mIr.resize B (audibleSize silence ir) (channelCount ir) stored

theorem load_eq (hsize : 1 ≤ ir.size) :
    load B silence mIr ir stored = (resized B silence mIr ir stored).setBuffer ir 0 0 0 := by
  have hlength : audibleSize silence ir = ⟨trim silence ir ir.size (ir.size - 1),
      (trim_le silence ir (by omega)).trans_lt ir.size_lt⟩ := Fin.ext (trim_size silence ir).symm
  rw [load, dif_neg (by omega), resized, hlength]

theorem resized_mChannels : (resized B silence mIr ir stored).mChannels = ir.mChannels :=
  resize_mChannels mIr _ _ stored

theorem resized_of_same (hsame : SameShape silence mIr ir) :
    resized B silence mIr ir stored = mIr := by
  unfold resized resize
  exact if_pos hsame

section Reshaped

variable (hchange : ¬ SameShape silence mIr ir)
include hchange

/-- New storage is silent. -/
theorem resized_sample (c k : ℕ) : (resized B silence mIr ir stored).sample c k = 0 := by
  have hnew : ¬ (channelCount ir = mIr.mChannels ∧ mIr.size = audibleSize silence ir) := hchange
  rw [resized, resize, if_neg hnew]
  rfl

/-- There is room for the response if as much as it takes is granted. -/
theorem resized_size (hchan : 1 ≤ ir.mChannels) (hgranted : Granted B silence ir stored) :
    (resized B silence mIr ir stored).size = padded B (audibleLength silence ir) := by
  obtain ⟨rfl, hfit⟩ := hgranted
  have hfit : SizeFits B (audibleSize silence ir) (channelCount ir) := hfit
  exact resize_size hfit hchange hchan

theorem resized_size_eq (hsmall : 256 * stride B ≤ 2 ^ B.sizeBits) :
    (resized B silence mIr ir stored).size =
      (if stored then wrap B.sizeBits (ir.mChannels * padded B (audibleLength silence ir)) else 0) /
        ir.mChannels := by
  refine resize_size_eq hsmall ?_ stored
  exact hchange

/-- Otherwise there is not. -/
theorem resized_lt (hA : Aligned B) (hsmall : 256 * stride B ≤ 2 ^ B.sizeBits)
    (hlength : 1 ≤ audibleLength silence ir) (hrefused : ¬ Granted B silence ir stored) :
    (resized B silence mIr ir stored).size < audibleLength silence ir := by
  rw [resized_size_eq hchange hsmall]
  cases stored with
  | false =>
      rw [if_neg Bool.false_ne_true, Nat.zero_div]
      exact hlength
  | true =>
      have hnot : ¬ SizeFits B (audibleSize silence ir) (channelCount ir) :=
        fun hfit => hrefused ⟨rfl, hfit⟩
      exact Nat.div_lt_of_lt_mul (wrapped_lt hA hsmall hnot)

end Reshaped

/-! ### `load` -/

theorem audibleLength_pos (hsize : 1 ≤ ir.size) : 1 ≤ audibleLength silence ir := by
  unfold audibleLength
  split <;> omega

/-- **`load`.**  Whatever was loaded before, the response is stored if and only if `load`
overwrites all that. -/
theorem storesResponse_iff (hA : Aligned B) (hsmall : 256 * stride B ≤ 2 ^ B.sizeBits)
    (silence : α) (mIr ir : AudioBuffer B.sizeBits α) (stored : Bool) (hsize : 1 ≤ ir.size)
    (hchan : 1 ≤ ir.mChannels) :
    StoresResponse silence (load B silence mIr ir stored) ir ↔
      Overwrites B silence mIr ir stored := by
  rw [load_eq hsize, storesResponse_setBuffer_iff resized_mChannels, Overwrites]
  by_cases hsame : SameShape silence mIr ir
  · rw [if_pos hsame, resized_of_same hsame, hsame.2]
    exact and_iff_left (inaudible_audibleLength silence ir)
  rw [if_neg hsame]
  have hclean : ∀ c < ir.mChannels, ∀ k < (resized B silence mIr ir stored).size,
      ir.mValidSize ≤ k → (resized B silence mIr ir stored).sample c k = 0 :=
    fun c _ k _ _ => resized_sample hsame c k
  rw [and_iff_right hclean]
  by_cases hgranted : Granted B silence ir stored
  · refine iff_of_true ((inaudible_audibleLength silence ir).mono ?_) (Or.inl hgranted)
    rw [resized_size hsame hchan hgranted]
    exact le_padded B _
  · have hlt := resized_lt hsame hA hsmall (audibleLength_pos hsize) hgranted
    -- there is room for a frame at all
    have hroom : 1 ≤ (resized B silence mIr ir stored).size ↔ stored = true ∧
        ir.mChannels ≤ wrap B.sizeBits (ir.mChannels * padded B (audibleLength silence ir)) := by
      rw [resized_size_eq hsame hsmall, Nat.le_div_iff_mul_le hchan, Nat.one_mul]
      cases stored with
      | false =>
          rw [if_neg Bool.false_ne_true]
          exact iff_of_false (by omega) fun h => Bool.false_ne_true h.1
      | true => rw [if_pos rfl, and_iff_right rfl]
    rw [or_iff_right hgranted, ← hroom]
    constructor
    · intro h
      rcases Nat.eq_zero_or_pos (resized B silence mIr ir stored).size with hzero | hpos
      · exact Or.inl (hzero ▸ h)
      · exact Or.inr ⟨inaudible_one_of_lt h hlt, hpos⟩
    · rintro (h | ⟨h, hpos⟩)
      · exact h.mono (Nat.zero_le _)
      · exact h.mono hpos

/-- A response of four frames, all of them valid. -/
def whole : AudioBuffer 32 ℚ := mono (fun _ => 1) 4

/-- A new convolver. -/
theorem storesResponse_iff_new :
    StoresResponse (1 / 10000) (load ⟨32, 64, 4, 16⟩ (1 / 10000) initial whole true) whole := by
  have hchange : ¬ SameShape (1 / 10000) (initial : AudioBuffer 32 ℚ) whole := by decide
  refine (storesResponse_iff (B := ⟨32, 64, 4, 16⟩) ⟨by decide, 2, rfl⟩ (by decide)
    (1 / 10000) initial whole true (by decide) (by decide)).mpr ?_
  rw [Overwrites, if_neg hchange]
  exact Or.inl ⟨rfl, by decide +kernel⟩

/-- After that, a response of the same four frames of which two are valid: the third frame
is that of the response before. -/
theorem not_storesResponse_half :
    ¬ StoresResponse (1 / 10000)
      (load ⟨32, 64, 4, 16⟩ (1 / 10000) (load ⟨32, 64, 4, 16⟩ (1 / 10000) initial whole true)
        (whole.setValidSize 2) true)
      (whole.setValidSize 2) := by
  intro h
  have hleft := h.cleared 0 (by decide) 2 (by decide +kernel) (by decide)
  exact absurd hleft (by decide +kernel)

/-! ### Sequences of `load` -/

/-- One call of `load`. -/
def Loads (B : BufferType) (silence : α) (mIr : AudioBuffer B.sizeBits α)
    (call : AudioBuffer B.sizeBits α × Bool) (mIr' : AudioBuffer B.sizeBits α) : Prop :=
  mIr' = load B silence mIr call.1 call.2

/-- The buffer of a convolver to which responses were loaded, with memory for each of
them. -/
def Reachable (B : BufferType) (silence : α) (mIr : AudioBuffer B.sizeBits α) : Prop :=
  ∃ calls, Run (Guarded (Loads B silence) fun _ call => Granted B silence call.1 call.2) initial
    calls mIr

/-- Its length is always rounded. -/
theorem Reachable.stride_dvd_size (hA : Aligned B) (h : Reachable B silence mIr) :
    stride B ∣ mIr.size := by
  obtain ⟨calls, hrun⟩ := h
  refine hrun.invariant (I := fun b => stride B ∣ b.size) ?_ (Nat.dvd_zero _)
  rintro mIr ⟨ir, stored⟩ mIr' hdvd ⟨hgranted, rfl⟩
  rcases Nat.eq_zero_or_pos ir.size with hzero | hsize
  · rwa [load, dif_pos hzero]
  rw [load_eq hsize, setBuffer_size]
  by_cases hsame : SameShape silence mIr ir
  · rwa [resized_of_same hsame]
  · have hchan : 1 ≤ ir.mChannels :=
      Nat.pos_of_ne_zero fun hzero => by
        rw [size_of_no_channels hzero] at hsize
        exact Nat.not_lt_zero 0 hsize
    rw [resized_size hsame hchan hgranted, hA.padded_eq]
    exact dvd_roundUp _ _

/-- The length of what is stored depends on the response alone. -/
theorem Reachable.load_size (hA : Aligned B) (h : Reachable B silence mIr) (hsize : 1 ≤ ir.size)
    (hchan : 1 ≤ ir.mChannels) (hgranted : Granted B silence ir stored) :
    (load B silence mIr ir stored).size = padded B (audibleLength silence ir) := by
  rw [load_eq hsize, setBuffer_size]
  by_cases hsame : SameShape silence mIr ir
  · rw [resized_of_same hsame, hsame.2, hA.padded_eq, roundUp_of_dvd]
    exact hsame.2 ▸ h.stride_dvd_size hA
  · exact resized_size hsame hchan hgranted

/-- Two buffers that store a response agree in the frames that both have. -/
theorem StoresResponse.sample_eq {b d ir : AudioBuffer w α} (hb : StoresResponse silence b ir)
    (hd : StoresResponse silence d ir) {c k : ℕ} (hc : c < ir.mChannels) (hkb : k < b.size)
    (hkd : k < d.size) : b.sample c k = d.sample c k := by
  rcases Nat.lt_or_ge k ir.mValidSize with hvalid | hbehind
  · rw [hb.copied c hc k (by omega), hd.copied c hc k (by omega)]
  · rw [hb.cleared c hc k hkb hbehind, hd.cleared c hc k hkd hbehind]

/-- **What is stored depends on the response alone**: two convolvers that store it hold the
same, whatever was loaded to them before. -/
theorem load_eq_of_runs (hA : Aligned B) {b d : AudioBuffer B.sizeBits α}
    (hb : Reachable B silence b) (hd : Reachable B silence d) (hsize : 1 ≤ ir.size)
    (hchan : 1 ≤ ir.mChannels) (hgranted : Granted B silence ir stored)
    (hstores : StoresResponse silence (load B silence b ir stored) ir)
    (hstores' : StoresResponse silence (load B silence d ir stored) ir) :
    (load B silence b ir stored).mChannels = (load B silence d ir stored).mChannels ∧
      (load B silence b ir stored).size = (load B silence d ir stored).size ∧
      ∀ c < ir.mChannels, ∀ k < (load B silence b ir stored).size,
        (load B silence b ir stored).sample c k = (load B silence d ir stored).sample c k := by
  have hsizes : (load B silence b ir stored).size = (load B silence d ir stored).size :=
    (hb.load_size hA hsize hchan hgranted).trans (hd.load_size hA hsize hchan hgranted).symm
  refine ⟨hstores.channels.trans hstores'.channels.symm, hsizes, ?_⟩
  intro c hc k hk
  exact hstores.sample_eq hstores' hc hk (hsizes ▸ hk)

end ConvolverBrute

end Tklb
