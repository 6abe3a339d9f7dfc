import Tklb.AudioBuffer
import Mathlib.Algebra.BigOperators.Intervals

/-!
# `ConvolverBrute`

The convolver multiplies every input frame with every tap of an impulse response
and adds the products up.  The model is `process` after `load`: `ir` is the
buffer `mIr`, of whatever size `load` left it.  Samples are elements of a
commutative ring, so the order of the additions does not matter, and the output
is a buffer of its own.

For output frame `i` the code visits the taps from `jmn` to `jmx`.  Both are
unsigned expressions that change their form where the input and the impulse
response begin to overlap completely; `mem_taps` says that between them they
name exactly the taps whose product exists.  `process_convolves` is the result:
the output is the discrete convolution, added to what was there.

### What is load-bearing

* `jmn` and `jmx` are the two unsigned expressions for the first and the last tap.  Each has a
  comparison in front that keeps the subtraction from wrapping, and `mem_taps` shows that this
  is enough: between the bounds are exactly the taps whose partner is a valid frame.
* `forTaps` is the loop nest with its body left open.  With the body of the source it is
  `process`; with one that records its indices it is `taps`.  So what is read can be talked
  about without a second copy of the loops.
* `convolution` is the sum over all taps of the response, without bounds, which is what the
  word means; `process_convolves` says that the loops compute it, added to what was there.

Samples are elements of a commutative ring, so the result is about exact arithmetic and the
order of the additions is the program's business.  About the buffers nothing is assumed but that
there is a channel and a frame on both sides; `ConvolverBrute.Bounds` is about buffers without.
-/

namespace Tklb

open Foundation

namespace ConvolverBrute

variable {w : ℕ} {α : Type}

/-! ### The code -/

/-- The first tap of frame `i`. -/
def jmn (w ng i : ℕ) : ℕ := if wsub w ng 1 ≤ i then wsub w i (wsub w ng 1) else 0

/-- The last tap of frame `i`. -/
def jmx (w nf i : ℕ) : ℕ := if i < wsub w nf 1 then i else wsub w nf 1

/-- One iteration of the innermost loop: which samples are multiplied.  The channels of the response
and of the input are taken modulo their number, so each can be shared by several channels of the
output. -/
structure Tap where
  /-- The output channel and frame. -/
  c : ℕ
  i : ℕ
  irChannel : ℕ
  inChannel : ℕ
  /-- The index read from the impulse response. -/
  j : ℕ
  /-- The index read from the input, `i - j`. -/
  k : ℕ

/-- `for (j = first; j <= last; j++)`; it ends because `last` is not the largest
value of its type (`jmx_lt`). -/
def countFrom {S : Type} (first last : ℕ) (body : ℕ → S → S) : S → S :=
  countUp (last + 1 - first) fun t => body (first + t)

/-- The loops of `process`, with what is done for each tap left open. -/
def forTaps {S : Type} (ir input out : AudioBuffer w α) (body : Tap → S → S) : S → S :=
  let nf := ir.size
  let ng := input.mValidSize
  let n := out.size
  countUp out.mChannels fun c =>
    countUp n fun i =>
      countFrom (jmn w ng i) (jmx w nf i) fun j =>
        body ⟨c, i, c % ir.mChannels, c % input.mChannels, j, wsub w i j⟩

/-- `process(in, out)`: `out[c][i] += mIr[irChannel][j] * in[inChannel][i - j]` -/
def process [CommRing α] (ir input out : AudioBuffer w α) : AudioBuffer w α :=
  out.withCells <|
    forTaps ir input out
      (fun t m =>
        Function.update m (out.get t.c + t.i)
          (m (out.get t.c + t.i) + ir.sample t.irChannel t.j * input.sample t.inChannel t.k))
      out.cell

/-- The taps `process` visits, in order. -/
def taps (ir input out : AudioBuffer w α) : List Tap :=
  forTaps ir input out (fun t visited => visited ++ [t]) []

/-! ### The range of taps -/

/-- The loop over the taps never has to count past the largest value. -/
theorem jmx_lt {nf : ℕ} (hpos : 1 ≤ nf) (hnf : nf < 2 ^ w) (i : ℕ) :
    jmx w nf i + 1 < 2 ^ w := by
  unfold jmx
  rw [wsub_of_le hnf hpos]
  split <;> omega

/-- **The taps of a frame.**  The two unsigned bounds name the taps `j` of the
impulse response whose partner `i - j` is a valid input frame, and no others:
none at all once the two no longer overlap. -/
theorem mem_taps {nf ng i j : ℕ} (hnf : 1 ≤ nf) (hng : 1 ≤ ng) (hnf' : nf < 2 ^ w)
    (hng' : ng < 2 ^ w) (hi : i < 2 ^ w) :
    (jmn w ng i ≤ j ∧ j < jmx w nf i + 1) ↔ (j < nf ∧ j ≤ i ∧ i - j < ng) := by
  have hfirst : jmn w ng i = i - (ng - 1) := by
    unfold jmn
    rw [wsub_of_le hng' hng]
    by_cases hfull : ng - 1 ≤ i
    · rw [if_pos hfull, wsub_of_le hi hfull]
    · rw [if_neg hfull]
      omega
  have hlast : jmx w nf i = min i (nf - 1) := by
    unfold jmx
    rw [wsub_of_le hnf' hnf]
    split <;> omega
  rw [hfirst, hlast]
  omega

variable {ir input out : AudioBuffer w α}

/-- A tap both of whose samples exist: it reads the impulse response and the
input within their bounds, and writes a frame of the output. -/
structure Within (ir input out : AudioBuffer w α) (t : Tap) : Prop where
  c_lt : t.c < out.mChannels
  i_lt : t.i < out.size
  irChannel_lt : t.irChannel < ir.mChannels
  inChannel_lt : t.inChannel < input.mChannels
  j_lt : t.j < ir.size
  j_le : t.j ≤ t.i
  k_eq : t.k = t.i - t.j
  k_lt : t.k < input.mValidSize

section Loops

variable (hir : 1 ≤ ir.mChannels) (hinput : 1 ≤ input.mChannels) (hnf : 1 ≤ ir.size)
  (hng : 1 ≤ input.mValidSize)
include hir hinput hnf hng

/-- What every tap keeps, `process` keeps. -/
theorem forTaps_invariant {S : Type} {body : Tap → S → S} {s : S} (P : S → Prop)
    (hstart : P s) (hstep : ∀ t, Within ir input out t → ∀ s, P s → P (body t s)) :
    P (forTaps ir input out body s) := by
  unfold forTaps countFrom
  refine countUp_invariant (fun _ => P) hstart ?_
  intro c hc s hs
  refine countUp_invariant (fun _ => P) hs ?_
  intro i hi s hs
  refine countUp_invariant (fun _ => P) hs ?_
  intro t ht s hs
  have hlt : i < 2 ^ w := hi.trans out.size_lt
  obtain ⟨hj, hle, hk⟩ := (mem_taps hnf hng ir.size_lt input.valid_lt hlt).mp
    ⟨Nat.le_add_right (jmn w input.mValidSize i) t, by omega⟩
  have hpartner := wsub_of_le hlt hle
  apply hstep _ _ s hs
  exact ⟨hc, hi, Nat.mod_lt c hir, Nat.mod_lt c hinput, hj, hle, hpartner,
    hpartner.trans_lt hk⟩

end Loops

/-! ### The convolution -/

/-- A loop that adds a value for each index from `first` to `last`. -/
theorem countFrom_add {M : Type} [AddCommMonoid M] (first last : ℕ) (value : ℕ → M) (a : M) :
    countFrom first last (fun j acc => acc + value j) a =
      a + ∑ j ∈ Finset.Ico first (last + 1), value j := by
  unfold countFrom
  rw [countUp_add, Finset.sum_Ico_eq_sum_range]

/-- A loop over taps that keeps rewriting one cell. -/
theorem countFrom_update (first last a : ℕ) (f : ℕ → α → α) (m : ℕ → α) :
    countFrom first last (fun j m => Function.update m a (f j (m a))) m =
      Function.update m a (countFrom first last f (m a)) :=
  countUp_update a (fun t => f (first + t)) m

section Convolution

variable [CommRing α]

/-- What the convolution adds to frame `i` of channel `c`. -/
def convolution (ir input : AudioBuffer w α) (c i : ℕ) : α :=
  ∑ j ∈ Finset.range ir.size with j ≤ i ∧ i - j < input.mValidSize,
    ir.sample (c % ir.mChannels) j * input.sample (c % input.mChannels) (i - j)

/-- The innermost loop adds the convolution to one sample. -/
theorem countFrom_taps (hnf : 1 ≤ ir.size) (hng : 1 ≤ input.mValidSize) {c i : ℕ}
    (hi : i < 2 ^ w) (a : α) :
    countFrom (jmn w input.mValidSize i) (jmx w ir.size i)
      (fun j acc => acc + ir.sample (c % ir.mChannels) j *
        input.sample (c % input.mChannels) (wsub w i j)) a =
      a + convolution ir input c i := by
  have htaps : Finset.Ico (jmn w input.mValidSize i) (jmx w ir.size i + 1) =
      {j ∈ Finset.range ir.size | j ≤ i ∧ i - j < input.mValidSize} := by
    ext j
    rw [Finset.mem_Ico, Finset.mem_filter, Finset.mem_range]
    exact mem_taps hnf hng ir.size_lt input.valid_lt hi
  rw [countFrom_add, htaps, convolution]
  congr 1
  apply Finset.sum_congr rfl
  intro j hj
  rw [wsub_of_le hi (Finset.mem_filter.mp hj).2.1]

/-- The whole of `process`, sample by sample. -/
theorem process_eq (hnf : 1 ≤ ir.size) (hng : 1 ≤ input.mValidSize) :
    process ir input out =
      out.withCells
        (modifyGrid out.mChannels out.size (fun c i => out.get c + 0 + i)
          (fun c i a => a + convolution ir input c i) out.cell) := by
  unfold process forTaps modifyGrid modifyEach
  congr 1
  apply countUp_congr
  intro c _
  funext m
  apply countUp_congr
  intro i hi
  funext m
  -- the loop over the taps works on one cell
  show countFrom _ _ _ m =
    Function.update m (out.get c + i) (m (out.get c + i) + convolution ir input c i)
  rw [← countFrom_taps hnf hng (hi.trans out.size_lt)]
  exact countFrom_update _ _ (out.get c + i)
    (fun j acc => acc + ir.sample (c % ir.mChannels) j *
      input.sample (c % input.mChannels) (wsub w i j)) m

/-- **`process` convolves.**  Every sample of the output is what it was before,
plus the sum over all taps `j` of the impulse response for which `i - j` is a
valid input frame; and every index the code reads is within those bounds. -/
theorem process_convolves (hir : 1 ≤ ir.mChannels) (hinput : 1 ≤ input.mChannels)
    (hnf : 1 ≤ ir.size) (hng : 1 ≤ input.mValidSize) :
    (∀ c < out.mChannels, ∀ i < out.size,
      (process ir input out).sample c i = out.sample c i +
        ∑ j ∈ Finset.range ir.size with j ≤ i ∧ i - j < input.mValidSize,
          ir.sample (c % ir.mChannels) j * input.sample (c % input.mChannels) (i - j)) ∧
    ∀ t ∈ taps ir input out, Within ir input out t := by
  constructor
  · intro c hc i hi
    rw [process_eq hnf hng, AudioBuffer.sample_modifyGrid (Nat.zero_add _).le hc hi,
      if_pos ⟨Nat.zero_le i, by omega⟩]
    rfl
  · unfold taps
    refine forTaps_invariant hir hinput hnf hng
      (fun visited => ∀ t ∈ visited, Within ir input out t) ?_ ?_
    · intro t ht
      exact absurd ht List.not_mem_nil
    · intro t hwithin visited hvisited u hu
      rcases List.mem_append.mp hu with hold | hnew
      · exact hvisited u hold
      · rw [List.mem_singleton.mp hnew]
        exact hwithin

end Convolution

/-- Two taps and two input frames, and an output of two channels with room for
four frames: the last frame is past the end of the convolution. -/
theorem process_convolves_stereo :
    let ir : AudioBuffer 8 ℤ :=
      ⟨fun k => k + 1, 2, 2, 1, by decide, by decide, by decide, by decide⟩
    let input : AudioBuffer 8 ℤ :=
      ⟨fun k => k + 10, 2, 2, 1, by decide, by decide, by decide, by decide⟩
    let out : AudioBuffer 8 ℤ :=
      ⟨fun _ => 100, 8, 4, 2, by decide, by decide, by decide, by decide⟩
    (process ir input out).sample 1 1 = 100 + (1 * 11 + 2 * 10) ∧
      (process ir input out).sample 1 2 = 100 + 2 * 11 ∧
      (process ir input out).sample 1 3 = 100 ∧
      ∀ t ∈ taps ir input out, Within ir input out t := by
  intro ir input out
  obtain ⟨hsum, htaps⟩ := @process_convolves 8 ℤ ir input out _ (by decide) (by decide)
    (by decide) (by decide)
  refine ⟨(hsum 1 (by decide) 1 (by decide)).trans ?_,
    (hsum 1 (by decide) 2 (by decide)).trans ?_,
    (hsum 1 (by decide) 3 (by decide)).trans ?_, htaps⟩
  · decide
  · decide
  · decide

end ConvolverBrute

end Tklb
