import Mathlib.Algebra.Order.Floor.Semiring
import Mathlib.Tactic.FieldSimp
import Tklb.Resampler

/-!
# `ResamplerHold`

The resampler that holds a sample: an output frame is the input frame closest to its
position, and the one further away from the start where two are equally close.  Positions
are exact, and sizes and positions are those that fit into `Size`.

`le_index_iff` turns the comparison that ends the loop into a bound on the output frame.
It makes `process_eq` the description of a call, and `exhausts_of_calculateBufferSize_le` its
result where the output is as long as that function asks for: the estimate is rounded on its own,
but the two roundings differ by less than the padding.

### Main results

* `processChannels_eq_foldl` — the loops of the source as a list of accesses.
* `process_eq` — what a call returns and writes.
* `exhausts_of_calculateBufferSize_le` — with as much room as `calculateBufferSize` asks for, the
  input is used up.

### What is load-bearing

Two numbers are rounded that have nothing to do with each other, the estimate of the length and
the position of the last frame.  `available_lt_calculateBufferSize` compares them: each is off
by one half at most, and the padding is more than both.  It is proved with exact positions.
-/

namespace Tklb

open Foundation

/-- The fields of a `ResamplerHold`. -/
structure ResamplerHold where
  mRateIn : ℕ
  mRateOut : ℕ
  mFactor : ℚ

namespace ResamplerHold

variable {w : ℕ} {α : Type}

/-! ### The code -/

/-- `init(rateIn, rateOut)` -/
def init (_ : ResamplerHold) (rateIn rateOut : ℕ) : ResamplerHold where
  mRateIn := rateIn
  mRateOut := rateOut
  mFactor := rateIn / rateOut

/-- `estimateOut(in)` -/
def estimateOut (r : ResamplerHold) (input : ℕ) : ℕ :=
  (TMath.round (input * (r.mRateOut / r.mRateIn))).toNat

/-- `calculateBufferSize(initialSize)` -/
def calculateBufferSize (r : ResamplerHold) (initialSize : ℕ) : ℕ :=
  r.estimateOut initialSize + 10

/-- The closest sample to an output frame. -/
def index (r : ResamplerHold) (output : ℕ) : ℕ := (TMath.round (output * r.mFactor)).toNat

/-- The loop over the output frames of channel `c`, with `output` and the memory of `out`;
the first argument is `out.size() - output`. -/
def processChannel (r : ResamplerHold) (input out : AudioBuffer w α) (c : ℕ) :
    ℕ → ℕ → (ℕ → α) → ℕ × (ℕ → α)
  | 0, output, m => (output, m)
  | rest + 1, output, m =>
      if input.mValidSize ≤ r.index output then (output, m)
      else
        r.processChannel input out c rest (output + 1)
          (Function.update m (out.get c + output) (input.sample c (r.index output)))

/-- The loop of `process` over the channels: `countOut` and the memory of `out`. -/
def processChannels (r : ResamplerHold) (input out : AudioBuffer w α) : ℕ × (ℕ → α) :=
  countUp input.mChannels (fun c s => r.processChannel input out c out.size 0 s.2)
    (0, out.cell)

/-- `process(in, out)`: the number of frames returned, and `out` afterwards. -/
def process (r : ResamplerHold) (input out : AudioBuffer w α) : ℕ × AudioBuffer w α :=
  let s := r.processChannels input out
  (s.1, (out.withCells s.2).setValidSize s.1)

/-! ### The accesses of a call -/

section Accesses

variable (r : ResamplerHold) (input out : AudioBuffer w α)

/-- The frames that `process` reads and writes. -/
def accesses : List Resampler.Access :=
  Resampler.accesses r.index (input.mValidSize ≤ ·) input.mChannels out.size

/-- What an access does to the memory of the output. -/
def perform (m : ℕ → α) (a : Resampler.Access) : ℕ → α :=
  Function.update m (out.get a.channel + a.write) (input.sample a.channel a.read)

/-- **The loop of a channel** counts its accesses and performs them.  Performing an access is one
assignment to the memory of the output, and the number that is returned is the number of accesses.
-/
theorem processChannel_eq_foldl (c : ℕ) :
    ∀ (rest output : ℕ) (m : ℕ → α),
      let l := Resampler.channelAccesses r.index (input.mValidSize ≤ ·) c rest output
      r.processChannel input out c rest output m =
        (output + l.length, l.foldl (perform input out) m)
  | 0, _, _ => rfl
  | rest + 1, output, m => by
      dsimp only
      rw [processChannel, Resampler.channelAccesses]
      by_cases hend : input.mValidSize ≤ r.index output
      · rw [if_pos hend, if_pos (decide_eq_true hend)]
        rfl
      · rw [if_neg hend, if_neg (by simpa using hend), processChannel_eq_foldl c rest,
          List.length_cons, List.foldl_cons]
        congr 1
        omega

/-- **The accesses are those of `process`.**  So what is shown about the list of accesses is shown
about the code, and the accesses are in the order in which the code makes them. -/
theorem processChannels_eq_foldl :
    (r.processChannels input out).2 =
      (r.accesses input out).foldl (perform input out) out.cell := by
  rw [accesses, Resampler.foldl_accesses, processChannels]
  refine (countUp_hom Prod.snd (fun c _ s => ?_) (0, out.cell)).symm
  rw [processChannel_eq_foldl]

end Accesses

/-! ### What a call does -/

section Process

variable {r : ResamplerHold} {input out : AudioBuffer w α}

/-- The number of output frames in front of the end of `countIn` input frames. -/
def available (r : ResamplerHold) (countIn : ℕ) : ℕ := ⌈((countIn : ℚ) - 1 / 2) / r.mFactor⌉₊

/-- An output frame that is mapped behind the input. -/
theorem le_index_iff (hfactor : 0 < r.mFactor) {countIn output : ℕ} :
    countIn ≤ r.index output ↔ r.available countIn ≤ output := by
  have hpos : (0 : ℚ) ≤ output * r.mFactor := by positivity
  rw [index, TMath.toNat_round hpos, Nat.le_floor_iff (by positivity), available, Nat.ceil_le,
    div_le_iff₀ hfactor, sub_le_iff_le_add]

/-- The closest samples come in order. -/
theorem index_mono (hfactor : 0 < r.mFactor) : Monotone r.index := by
  intro o o' hle
  exact (le_index_iff hfactor).mpr (((le_index_iff hfactor).mp le_rfl).trans hle)

/-- **A call** copies the samples closest to the first frames of the output. -/
theorem processChannels_eq (hfactor : 0 < r.mFactor) :
    let K := min out.size (r.available input.mValidSize)
    r.processChannels input out =
      (if input.mChannels = 0 then 0 else K,
        modifyGrid input.mChannels K (fun c o => out.get c + o)
          (fun c o _ => input.sample c (r.index o)) out.cell) := by
  dsimp only
  rw [processChannels]
  generalize input.mChannels = n
  induction n with
  | zero => rfl
  | succ n ih =>
      have hended : ∀ o, decide (input.mValidSize ≤ r.index o) = true ↔
          r.available input.mValidSize ≤ o := fun o => by
        rw [decide_eq_true_eq, le_index_iff hfactor]
      rw [countUp_succ, ih, processChannel_eq_foldl, Resampler.channelAccesses_eq hended,
        List.length_map, List.length_range', Nat.zero_add, Nat.sub_zero, if_neg n.succ_ne_zero,
        ← List.range_eq_range', foldl_map_range]
      rfl

theorem process_count (hfactor : 0 < r.mFactor) (hsome : input.mChannels ≠ 0) :
    (r.process input out).1 = min out.size (r.available input.mValidSize) := by
  rw [process, processChannels_eq hfactor]
  exact if_neg hsome

theorem process_sample (hfactor : 0 < r.mFactor) (hchannels : input.mChannels ≤ out.mChannels)
    {c o : ℕ} (hc : c < input.mChannels)
    (ho : o < min out.size (r.available input.mValidSize)) :
    (r.process input out).2.sample c o = input.sample c (r.index o) := by
  have hgrid : GridInjective input.mChannels (min out.size (r.available input.mValidSize))
      fun c o => out.get c + o := fun c hc i hi d hd j hj =>
    AudioBuffer.get_add_injective (hc.trans_le hchannels) (hd.trans_le hchannels)
      (hi.trans_le (Nat.min_le_left _ _)) (hj.trans_le (Nat.min_le_left _ _))
  show (r.processChannels input out).2 (out.get c + o) = _
  rw [processChannels_eq hfactor]
  exact modifyGrid_addr hgrid hc ho

end Process

/-! ### The input is used up -/

section Exhausts

variable {rateIn rateOut n : ℕ}

/-- The input frame closest to output frame `output`. -/
def source (rateIn rateOut output : ℕ) : ℕ :=
  (TMath.round (output * rateIn / rateOut)).toNat

theorem index_init (r : ResamplerHold) (rateIn rateOut : ℕ) :
    (r.init rateIn rateOut).index = source rateIn rateOut := by
  funext o
  rw [index, source, init, mul_div_assoc]

theorem init_mFactor_pos (r : ResamplerHold) (hin : 0 < rateIn) (hout : 0 < rateOut) :
    0 < (r.init rateIn rateOut).mFactor :=
  Resampler.factor_pos hin hout rfl

theorem available_init (r : ResamplerHold) (n : ℕ) :
    (r.init rateIn rateOut).available n = ⌈((n : ℚ) - 1 / 2) * rateOut / rateIn⌉₊ := by
  rw [available, init, div_div_eq_mul_div]

/-- **The padding covers the rounding**: there is room for more frames than there are. -/
theorem available_lt_calculateBufferSize (r : ResamplerHold) (n : ℕ) :
    (r.init rateIn rateOut).available n < (r.init rateIn rateOut).calculateBufferSize n := by
  have hratio : (0 : ℚ) ≤ rateOut / rateIn := by positivity
  have hlength : (0 : ℚ) ≤ n * (rateOut / rateIn) := by positivity
  rw [available_init, calculateBufferSize, estimateOut, init, TMath.toNat_round hlength]
  have hestimate := Nat.lt_floor_add_one ((n : ℚ) * (rateOut / rateIn) + 1 / 2)
  have hceil : ⌈((n : ℚ) - 1 / 2) * rateOut / rateIn⌉₊ ≤
      ⌊(n : ℚ) * (rateOut / rateIn) + 1 / 2⌋₊ + 1 := by
    refine Nat.ceil_le.mpr ?_
    push_cast
    rw [mul_div_assoc, sub_mul]
    linarith
  omega

/-- What `process` returns for `n` frames if it stops because it has used them up.  The output has
room left, every sample is the closest one, the frames are in order and all from the input, and the
next one would be behind it. -/
structure Exhausts (rateIn rateOut n : ℕ) (input out : AudioBuffer w α)
    (result : ℕ × AudioBuffer w α) : Prop where
  count : result.1 = ⌈((n : ℚ) - 1 / 2) * rateOut / rateIn⌉₊
  room : result.1 < out.size
  valid : result.2.mValidSize = result.1
  sample : ∀ c < input.mChannels, ∀ o < result.1,
    result.2.sample c o = input.sample c (source rateIn rateOut o)
  monotone : Monotone (source rateIn rateOut)
  inside : ∀ o < result.1, source rateIn rateOut o < n
  ended : n ≤ source rateIn rateOut result.1

/-- **The end of the input stops the loop**, if the output is as long as
`calculateBufferSize` says. -/
theorem exhausts_of_calculateBufferSize_le (r : ResamplerHold) {input out : AudioBuffer w α}
    (hin : 0 < rateIn) (hout : 0 < rateOut) (hchannels : input.mChannels ≤ out.mChannels)
    (hsome : 0 < input.mChannels)
    (hroom : (r.init rateIn rateOut).calculateBufferSize input.mValidSize ≤ out.size) :
    Exhausts rateIn rateOut input.mValidSize input out
      ((r.init rateIn rateOut).process input out) := by
  have hfactor := r.init_mFactor_pos hin hout
  have hlt := (r.available_lt_calculateBufferSize input.mValidSize).trans_le hroom
  have hcount : ((r.init rateIn rateOut).process input out).1 =
      (r.init rateIn rateOut).available input.mValidSize := by
    rw [process_count hfactor hsome.ne', Nat.min_eq_right hlt.le]
  constructor
  case count => rw [hcount, available_init]
  case room => rwa [hcount]
  case valid => exact Nat.min_eq_right (hcount.trans_lt hlt).le
  case sample =>
      intro c hc o ho
      rw [hcount] at ho
      rw [process_sample hfactor hchannels hc (lt_min (ho.trans hlt) ho), index_init]
  case monotone =>
      rw [← r.index_init]
      exact index_mono hfactor
  case inside =>
      intro o ho
      rw [hcount] at ho
      rw [← r.index_init]
      exact not_le.mp (mt (le_index_iff hfactor).mp (not_le.mpr ho))
  case ended =>
      rw [hcount, ← r.index_init]
      exact (le_index_iff hfactor).mpr le_rfl

/-- Three frames become four: the second one is the closest to `2 / 3` and to `4 / 3`. -/
theorem exhausts_of_calculateBufferSize_le_three :
    let input : AudioBuffer 32 ℤ := ⟨Nat.cast, 3, 3, 1, by decide, by decide, by decide, by decide⟩
    let out : AudioBuffer 32 ℤ := ⟨0, 16, 0, 1, by decide, by decide, by decide, by decide⟩
    Exhausts 2 3 3 input out (((⟨0, 0, 1⟩ : ResamplerHold).init 2 3).process input out) := by
  intro input out
  have hlength : ((⟨0, 0, 1⟩ : ResamplerHold).init 2 3).calculateBufferSize 3 = 15 := by
    norm_num [calculateBufferSize, estimateOut, TMath.round, init]
    rfl
  have hsize : out.size = 16 := by decide
  refine @exhausts_of_calculateBufferSize_le 32 ℤ 2 3 ⟨0, 0, 1⟩ input out (by decide)
    (by decide) le_rfl Nat.one_pos ?_
  rw [hsize]
  exact hlength.le.trans (by decide)

end Exhausts

end ResamplerHold

end Tklb
