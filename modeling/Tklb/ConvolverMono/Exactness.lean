import Tklb.ConvolverMono.Processing

/-!
# Where a `ConvolverMono` is exact

With an exact transform, the calls together put out what is `kept` of the convolution,
however the signal was cut (`run_of_loaded`).  What is never added is the overlap: the
offsets of `set` are in the other order, and instead of the second half of what `back`
returns, the first half is copied, to behind the end of the overlap buffer.  So the products
of the taps that lie further into their segment than the frame into its block are lost.

`run_eq_linear_iff` says when nothing is lost, for any response whose last sample is not
silent, block size, signal and calls.

### What is load-bearing

`lost` and `extra` are the two differences between what is put out and the convolution: the taps
that fall into the overlap, and the sample behind the response that `load` takes for a tap where
it is not silent.  `kept_trim` is the balance of the two, for every frame, and `Lossless` says
that they cancel.  From there the equivalence is one cancellation in the reals for every frame.

A response of a single sample is a case of its own: if there is silence behind it, it is trimmed
to nothing, the convolver counts as not loaded and copies its input.  `lossless_forall_iff` makes
the condition independent of the signal, with an impulse for every tap; there, and only there,
the threshold has to be positive.
-/

namespace Tklb

open Foundation Finset

namespace ConvolverMono

/-! ### Several calls -/

section Run

variable {w : ℕ} {fft : Fft ℝ} {channel : ℕ}

/-- Consecutive calls, each with an input and a target: what they put out on a channel, one
after the other. -/
def run (fft : Fft ℝ) (channel : ℕ) : ConvolverMono w ℝ →
    List (AudioBuffer w ℝ × AudioBuffer w ℝ) → Option (List ℝ)
  | _, [] => some []
  | c, (inBuf, outBuf) :: calls => do
      let (c, outBuf) ← c.process fft inBuf outBuf channel
      let rest ← run fft channel c calls
      return (List.range inBuf.mValidSize).map (outBuf.sample channel) ++ rest

/-- The signal that is cut into the inputs of the calls. -/
def signal (channel : ℕ) (calls : List (AudioBuffer w ℝ × AudioBuffer w ℝ)) : List ℝ :=
  calls.flatMap fun call => (List.range call.1.mValidSize).map (call.1.sample channel)

/-- Both buffers of a call have the channel, and the target has room for the input.  The other
channels may hold anything, and there may be any number of them. -/
structure Accepts (channel : ℕ) (call : AudioBuffer w ℝ × AudioBuffer w ℝ) : Prop where
  input : channel < call.1.mChannels
  output : channel < call.2.mChannels
  le_size : call.1.mValidSize ≤ call.2.size

/-- The frames of a signal that is cut in two. -/
theorem range_split {f : ℕ → ℝ} {L length : ℕ} {s : ℕ → ℝ} {rest : List ℝ}
    (h : (List.range length).map s ++ rest = (List.range L).map f) :
    (∀ i < length, s i = f i) ∧
      rest = (List.range (L - length)).map (fun i => f (length + i)) ∧ length ≤ L := by
  have hlength := congrArg List.length h
  rw [List.length_append, List.length_map, List.length_map, List.length_range,
    List.length_range] at hlength
  obtain ⟨d, rfl⟩ := Nat.exists_eq_add_of_le (show length ≤ L by omega)
  rw [List.range_add, List.map_append, List.map_map] at h
  obtain ⟨hhead, hrest⟩ := List.append_inj h (by simp)
  refine ⟨fun i hi => ?_, ?_, by omega⟩
  · exact List.map_inj_left.mp hhead i (List.mem_range.mpr hi)
  · rw [hrest, Nat.add_sub_cancel_left]
    rfl

/-- **The run rule.**  A property of the convolver that every call keeps, at the frame it
has reached, and what the calls put out. -/
theorem run_eq {f x : ℕ → ℝ} (P : ConvolverMono w ℝ → ℕ → Prop)
    (hcall : ∀ c n, ∀ call : AudioBuffer w ℝ × AudioBuffer w ℝ, P c n → Accepts channel call →
      (∀ i < call.1.mValidSize, call.1.sample channel i = x (n + i)) →
      ∃ c' out', c.process fft call.1 call.2 channel = some (c', out') ∧
        P c' (n + call.1.mValidSize) ∧
        ∀ i < call.1.mValidSize, out'.sample channel i = f (n + i))
    {calls : List (AudioBuffer w ℝ × AudioBuffer w ℝ)} {c : ConvolverMono w ℝ} {n L : ℕ}
    (hP : P c n) (haccepts : ∀ call ∈ calls, Accepts channel call)
    (hsignal : signal channel calls = (List.range L).map fun i => x (n + i)) :
    run fft channel c calls = some ((List.range L).map fun i => f (n + i)) := by
  induction calls generalizing c n L with
  | nil =>
      obtain rfl : L = 0 := by simpa [signal] using hsignal.symm
      rfl
  | cons call calls ih =>
      obtain ⟨inBuf, outBuf⟩ := call
      obtain ⟨hin, hrest, hle⟩ := range_split hsignal
      obtain ⟨c', out', hprocess, hP', hout⟩ :=
        hcall c n _ hP (haccepts _ List.mem_cons_self) hin
      simp only [← Nat.add_assoc] at hrest
      have htail := ih hP' (fun call h => haccepts call (List.mem_cons_of_mem _ h)) hrest
      obtain ⟨d, rfl⟩ := Nat.exists_eq_add_of_le hle
      have hhead : (List.range inBuf.mValidSize).map (out'.sample channel) =
          (List.range inBuf.mValidSize).map fun i => f (n + i) :=
        List.map_congr_left fun i hi => hout i (List.mem_range.mp hi)
      rw [run, hprocess]
      simp only [Option.bind_eq_bind, Option.bind_some, htail, hhead, List.range_add,
        List.map_append, List.map_map, Nat.add_sub_cancel_left]
      simp only [Function.comp_def, Nat.add_assoc]
      rfl

end Run

/-! ### What is lost -/

section Lost

variable {silence : ℝ} {block length n : ℕ} {h x : ℕ → ℝ}

/-- The linear convolution of a signal with `length` taps. -/
def linear (h x : ℕ → ℝ) (length n : ℕ) : ℝ :=
  ∑ m ∈ range (n + 1), if m < length then h m * x (n - m) else 0

/-- The products that are not computed. -/
def lost (block : ℕ) (h x : ℕ → ℝ) (length n : ℕ) : ℝ :=
  ∑ m ∈ range (n + 1), if m < length ∧ n % block < m % block then h m * x (n - m) else 0

/-- The product with the sample behind the response, which is loaded when it is not silent. -/
noncomputable def extra (silence : ℝ) (block : ℕ) (h x : ℕ → ℝ) (length n : ℕ) : ℝ :=
  if ¬ Silent silence (h length) ∧ length ≤ n ∧ length % block ≤ n % block then
    h length * x (n - length)
  else 0

/-- **Nothing is lost** of the convolution of the first `L` samples of `x` with the response
`h 0, …, h (length - 1)`.  A response of one sample, with silence behind it, is not loaded. -/
def Lossless (silence : ℝ) (block : ℕ) (h x : ℕ → ℝ) (length L : ℕ) : Prop :=
  if length = 1 ∧ Silent silence (h 1) then ∀ n < L, h 0 * x n = x n
  else ∀ n < L, lost block h x length n = extra silence block h x length n

theorem kept_add_lost :
    kept block (taps h length) x n + lost block h x length n = linear h x length n := by
  rw [kept, lost, linear, ← sum_add_distrib]
  refine sum_congr rfl fun m _ => ?_
  unfold taps
  by_cases hm : m < length
  · by_cases hkept : m % block ≤ n % block
    · have hnot : ¬ (m < length ∧ n % block < m % block) := fun hl =>
        absurd hl.2 (Nat.not_lt.mpr hkept)
      rw [if_pos hkept, if_pos hm, if_neg hnot, if_pos hm, add_zero]
    · rw [if_neg hkept, if_pos ⟨hm, Nat.lt_of_not_le hkept⟩, if_pos hm, zero_add]
  · have hnot : ¬ (m < length ∧ n % block < m % block) := fun hl => hm hl.1
    rw [if_neg hm, if_neg hnot, if_neg hm, zero_mul, ite_self, zero_add]

theorem taps_succ (h : ℕ → ℝ) (length m : ℕ) :
    taps h (length + 1) m = taps h length m + if m = length then h length else 0 := by
  unfold taps
  rcases Nat.lt_trichotomy m length with hlt | rfl | hgt
  · rw [if_pos (Nat.lt_succ_of_lt hlt), if_pos hlt, if_neg hlt.ne, add_zero]
  · rw [if_pos (Nat.lt_succ_self m), if_neg (lt_irrefl m), if_pos rfl, zero_add]
  · rw [if_neg (Nat.not_lt.mpr hgt), if_neg (Nat.not_lt.mpr hgt.le), if_neg hgt.ne', add_zero]

theorem kept_taps_succ (block : ℕ) (h x : ℕ → ℝ) (length n : ℕ) :
    kept block (taps h (length + 1)) x n = kept block (taps h length) x n +
      if length ≤ n ∧ length % block ≤ n % block then h length * x (n - length) else 0 := by
  have hterm : ∀ m, (if m % block ≤ n % block then taps h (length + 1) m * x (n - m) else 0) =
      (if m % block ≤ n % block then taps h length m * x (n - m) else 0) +
        if m = length then
          if length % block ≤ n % block then h length * x (n - length) else 0 else 0 := by
    intro m
    rw [taps_succ]
    by_cases hm : m = length
    · subst hm
      by_cases hkept : m % block ≤ n % block
      · simp only [if_pos hkept, if_true, add_mul]
      · simp only [if_neg hkept, if_true, add_zero]
    · rw [if_neg hm, if_neg hm, add_zero, add_zero]
  rw [kept, kept, sum_congr rfl fun m _ => hterm m, sum_add_distrib, sum_ite_eq']
  simp only [mem_range, Nat.lt_succ_iff, ite_and]

theorem linear_one : linear h x 1 n = h 0 * x n := by
  rw [linear, sum_range_succ', sum_eq_zero fun m _ => if_neg (by omega), zero_add,
    if_pos Nat.one_pos, Nat.sub_zero]

end Lost

/-! ### The whole run -/

section Whole

variable {B : BufferType} {fft : Fft ℝ} {ir : AudioBuffer B.sizeBits ℝ}
  {silence : ℝ} {blockSize irChannel channel L : ℕ} {x : ℕ → ℝ}
  {calls : List (AudioBuffer B.sizeBits ℝ × AudioBuffer B.sizeBits ℝ)}

/-- **However the signal is cut**, the convolver puts out what is kept of the convolution with
the taps that were loaded. -/
theorem run_of_loaded (hfft : fft.IsRealDft (2 * powerOf2 blockSize)) (hfit : Fits B blockSize)
    (hloaded : trim silence (ir.sample irChannel) ir.mValidSize ≠ 0)
    (haccepts : ∀ call ∈ calls, Accepts channel call)
    (hsignal : signal channel calls = (List.range L).map x) :
    run fft channel (start.load B fft silence ir blockSize irChannel) calls =
      some ((List.range L).map (kept (powerOf2 blockSize) (taps (ir.sample irChannel)
        (trim silence (ir.sample irChannel) ir.mValidSize + 1)) x)) := by
  have hg : ∀ m, (trim silence (ir.sample irChannel) ir.mValidSize + 1) ⌈/⌉ powerOf2 blockSize *
      powerOf2 blockSize ≤ m →
      taps (ir.sample irChannel) (trim silence (ir.sample irChannel) ir.mValidSize + 1) m = 0 := by
    intro m hm
    have hceil := le_smul_ceilDiv (powerOf2_pos blockSize)
      (b := trim silence (ir.sample irChannel) ir.mValidSize + 1)
    rw [smul_eq_mul, Nat.mul_comm] at hceil
    exact if_neg (Nat.not_lt.mpr (hceil.trans hm))
  have hframes : signal channel calls = (List.range L).map fun i => x (0 + i) := by
    simpa only [Nat.zero_add] using hsignal
  have hrun := run_eq (fun c n => c.Running _ _ _ x n)
    (fun c n call hc _ hin => hc.process hfft hg hin) (load_running x hfft hfit hloaded) haccepts
    hframes
  simpa only [Nat.zero_add] using hrun

/-- A convolver without a response copies its input. -/
theorem run_of_not_loaded (hloaded : trim silence (ir.sample irChannel) ir.mValidSize = 0)
    (haccepts : ∀ call ∈ calls, Accepts channel call)
    (hsignal : signal channel calls = (List.range L).map x) :
    run fft channel (start.load B fft silence ir blockSize irChannel) calls =
      some ((List.range L).map x) := by
  have hcall : ∀ (c : ConvolverMono B.sizeBits ℝ) (n : ℕ)
      (call : AudioBuffer B.sizeBits ℝ × AudioBuffer B.sizeBits ℝ), c = start →
      Accepts channel call →
      (∀ i < call.1.mValidSize, call.1.sample channel i = x (n + i)) →
      ∃ c' out', c.process fft call.1 call.2 channel = some (c', out') ∧ c' = start ∧
        ∀ i < call.1.mValidSize, out'.sample channel i = x (n + i) := by
    rintro _ n ⟨inBuf, outBuf⟩ rfl haccept hin
    refine ⟨start, outBuf.setBuffer inBuf 0 0 0, if_pos rfl, rfl, fun i hi => ?_⟩
    have hroom : i < outBuf.size := hi.trans_le haccept.le_size
    have hwrites := AudioBuffer.writes_setBuffer (b := outBuf) inBuf 0 0 (Nat.zero_le _)
    have hcopied := hwrites.written channel haccept.output haccept.input i
    rw [if_pos rfl, Nat.zero_add] at hcopied
    rw [hcopied (lt_min hi hroom)]
    exact hin i hi
  have hstart : start.load B fft silence ir blockSize irChannel = start := if_pos hloaded
  have hframes : signal channel calls = (List.range L).map fun i => x (0 + i) := by
    simpa only [Nat.zero_add] using hsignal
  rw [hstart]
  have hrun := run_eq (fun c _ => c = start) hcall rfl haccepts hframes
  simpa only [Nat.zero_add] using hrun

theorem trim_of_not_silent {h : ℕ → ℝ} {length : ℕ} (hlast : ¬ Silent silence (h length)) :
    trim silence h length = length := by
  cases length with
  | zero => rfl
  | succ length => exact if_neg hlast

/-- A response that is loaded has its taps, and the sample behind them if it is not silent. -/
theorem kept_trim {h : ℕ → ℝ} {length : ℕ} (hvalid : 0 < length)
    (hlast : ¬ Silent silence (h (length - 1))) (hloaded : ¬ (length = 1 ∧ Silent silence (h 1))) :
    trim silence h length ≠ 0 ∧ ∀ block x n, kept block (taps h (trim silence h length + 1)) x n +
      lost block h x length n = linear h x length n + extra silence block h x length n := by
  by_cases hsilent : Silent silence (h length)
  · obtain ⟨last, rfl⟩ := Nat.exists_eq_add_of_le' hvalid
    have htrim : trim silence h (last + 1) = last :=
      (if_pos hsilent).trans (trim_of_not_silent hlast)
    rw [htrim]
    refine ⟨?_, fun block x n => ?_⟩
    · rintro rfl
      exact hloaded ⟨rfl, hsilent⟩
    · rw [kept_add_lost, extra, if_neg fun hex => hex.1 hsilent, add_zero]
  · rw [trim_of_not_silent hsilent]
    refine ⟨hvalid.ne', fun block x n => ?_⟩
    have hextra : extra silence block h x length n =
        if length ≤ n ∧ length % block ≤ n % block then h length * x (n - length) else 0 := by
      simp only [extra, hsilent, not_false_eq_true, true_and]
    rw [kept_taps_succ, ← hextra, add_right_comm, kept_add_lost]

/-- **When the convolver convolves.**  For a response whose last sample is not silent, the
calls together put out the linear convolution of the signal with the response exactly if
nothing is lost. -/
theorem run_eq_linear_iff (hfft : fft.IsRealDft (2 * powerOf2 blockSize))
    (hfit : Fits B blockSize) (hvalid : 0 < ir.mValidSize)
    (hlast : ¬ Silent silence (ir.sample irChannel (ir.mValidSize - 1)))
    (haccepts : ∀ call ∈ calls, Accepts channel call)
    (hsignal : signal channel calls = (List.range L).map x) :
    run fft channel (start.load B fft silence ir blockSize irChannel) calls =
        some ((List.range L).map (linear (ir.sample irChannel) x ir.mValidSize)) ↔
      Lossless silence (powerOf2 blockSize) (ir.sample irChannel) x ir.mValidSize L := by
  unfold Lossless
  by_cases hcopy : ir.mValidSize = 1 ∧ Silent silence (ir.sample irChannel 1)
  · have htrim : trim silence (ir.sample irChannel) ir.mValidSize = 0 := by
      rw [hcopy.1]
      exact if_pos hcopy.2
    rw [if_pos hcopy, run_of_not_loaded htrim haccepts hsignal, Option.some_inj,
      List.map_inj_left, hcopy.1]
    simp only [List.mem_range, linear_one, eq_comm]
  · obtain ⟨hloaded, hkept⟩ := kept_trim hvalid hlast hcopy
    rw [if_neg hcopy, run_of_loaded hfft hfit hloaded haccepts hsignal, Option.some_inj,
      List.map_inj_left]
    simp only [List.mem_range]
    refine forall₂_congr fun n _ => ?_
    have hsum := hkept (powerOf2 blockSize) x n
    constructor
    · intro heq
      rw [heq] at hsum
      exact add_left_cancel hsum
    · intro heq
      rw [heq] at hsum
      exact add_right_cancel hsum

end Whole

/-- All taps are at the beginnings of segments, and none is behind the response. -/
def AtStarts (silence : ℝ) (block : ℕ) (h : ℕ → ℝ) (length : ℕ) : Prop :=
  if length = 1 ∧ Silent silence (h 1) then h 0 = 1
  else Silent silence (h length) ∧ ∀ m < length, m % block ≠ 0 → h m = 0

theorem lost_impulse {block length n m : ℕ} {h : ℕ → ℝ} (hm : m ≤ n) :
    lost block h (fun j => if j = n - m then 1 else 0) length n =
      if m < length ∧ n % block < m % block then h m else 0 := by
  rw [lost, sum_eq_single m]
  · rw [if_pos rfl, mul_one]
  · intro k hk hne
    rw [mem_range] at hk
    rw [if_neg (show ¬ n - k = n - m by omega), mul_zero, ite_self]
  · exact fun hnot => absurd (mem_range.mpr (Nat.lt_succ_of_le hm)) hnot

/-- **The responses of which nothing is ever lost**, whatever the signal.  They have their taps at
the beginnings of segments, or are a single 1; for any other response a single impulse shows what is
lost. -/
theorem lossless_forall_iff {silence : ℝ} {block length : ℕ} {h : ℕ → ℝ} (hpos : 0 < silence)
    (hblock : 0 < block) :
    (∀ x L, Lossless silence block h x length L) ↔ AtStarts silence block h length := by
  unfold Lossless AtStarts
  by_cases hcopy : length = 1 ∧ Silent silence (h 1)
  · simp only [if_pos hcopy]
    constructor
    · intro hall
      simpa using hall 1 1 0 Nat.one_pos
    · intro hone x L n _
      rw [hone, one_mul]
  · simp only [if_neg hcopy]
    constructor
    · intro hall
      have hsilent : Silent silence (h length) := by
        by_contra hloud
        have hlost := hall (fun j => if j = length - length then 1 else 0) (length + 1) length
          (Nat.lt_succ_self length)
        rw [lost_impulse le_rfl, if_neg fun hl => lt_irrefl _ hl.1, extra,
          if_pos ⟨hloud, le_rfl, le_rfl⟩, if_pos rfl, mul_one] at hlost
        rw [← hlost, Silent, abs_zero] at hloud
        exact hloud hpos
      refine ⟨hsilent, fun m hm hinside => ?_⟩
      -- the tap meets an impulse at the beginning of the next segment
      obtain ⟨n, hn⟩ : ∃ n, n = (m / block + 1) * block := ⟨_, rfl⟩
      have hle : m ≤ n := by
        have hdiv : m / block * block + m % block = m := Nat.div_add_mod' m block
        have hlt := Nat.mod_lt m hblock
        rw [hn, Nat.succ_mul]
        omega
      have hmod : n % block = 0 := by
        rw [hn, Nat.mul_mod_left]
      have hlost := hall (fun j => if j = n - m then 1 else 0) (n + 1) n (Nat.lt_succ_self n)
      rwa [lost_impulse hle, if_pos ⟨hm, by omega⟩, extra, if_neg fun hex => hex.1 hsilent]
        at hlost
    · rintro ⟨hsilent, htaps⟩ x L n _
      rw [extra, if_neg fun hex => hex.1 hsilent]
      refine sum_eq_zero fun m _ => ?_
      by_cases hin : m < length ∧ n % block < m % block
      · rw [if_pos hin, htaps m hin.1 (by omega), zero_mul]
      · rw [if_neg hin]

/-! ### A response that is convolved, and one that is not -/

/-- The real DFT and its inverse. -/
noncomputable def realFft : Fft ℝ where
  forward N x := (fun k => (realDft N x k).re, fun k => (realDft N x k).im)
  back
    | 0, _, _ => 0
    | N + 1, X, n => realIdft (N + 1) (fun k => ⟨X.1 k, X.2 k⟩) n

theorem isRealDft_realFft (N : ℕ) : realFft.IsRealDft N := by
  refine ⟨fun x k _ => rfl, fun x X hX n hn => ?_⟩
  cases N with
  | zero => exact absurd hn (Nat.not_lt_zero n)
  | succ N =>
      show realIdft (N + 1) _ n = x n
      rw [realIdft, allBins_congr hX]
      exact realIdft_realDft x hn

/-- Buffers of `double`. -/
abbrev doubles : BufferType := ⟨32, 64, 8, 16⟩

theorem fits_doubles : Fits doubles 2 := by
  rw [Fits, show powerOf2 2 = 2 from powerOf2_pow 1]
  decide

theorem accepts_mono {w : ℕ} (cell : ℕ → ℝ) (length : Fin (2 ^ w)) :
    Accepts 0 (AudioBuffer.mono cell length, AudioBuffer.mono 0 length) :=
  ⟨Nat.one_pos, Nat.one_pos, (AudioBuffer.size_mono 0 length).ge⟩

/-- Two taps, two frames apart, and blocks of two: a signal of five frames, cut into three and
two. -/
theorem run_eq_linear_even :
    let response : AudioBuffer 32 ℝ := .mono (fun m => if m = 0 ∨ m = 2 then 1 else 0) 3
    let first : AudioBuffer 32 ℝ := .mono (fun i => i + 1) 3
    let second : AudioBuffer 32 ℝ := .mono (fun i => i + 4) 2
    run realFft 0 (start.load doubles realFft (1 / 1000000) response 2 0)
        [(first, .mono 0 3), (second, .mono 0 2)] = some [1, 2, 4, 6, 8] := by
  intro response first second
  have hresponse : response.sample 0 = fun m => if m = 0 ∨ m = 2 then 1 else 0 :=
    AudioBuffer.sample_mono _ _
  have hfirst : first.sample 0 = fun i : ℕ => (i : ℝ) + 1 := AudioBuffer.sample_mono _ _
  have hsecond : second.sample 0 = fun i : ℕ => (i : ℝ) + 4 := AudioBuffer.sample_mono _ _
  have hlast : ¬ Silent (1 / 1000000) (response.sample 0 2) := by
    rw [hresponse]
    norm_num [Silent]
  have haccepts : ∀ call ∈ [(first, AudioBuffer.mono 0 3), (second, AudioBuffer.mono 0 2)],
      Accepts 0 call := by
    simp only [List.mem_cons, List.not_mem_nil, or_false, forall_eq_or_imp, forall_eq]
    exact ⟨accepts_mono _ _, accepts_mono _ _⟩
  have hsignal : signal 0 [(first, AudioBuffer.mono 0 3), (second, AudioBuffer.mono 0 2)] =
      (List.range 5).map fun i => (i : ℝ) + 1 := by
    show (List.range 3).map (first.sample 0) ++ ((List.range 2).map (second.sample 0) ++ []) = _
    norm_num [hfirst, hsecond, List.range_succ]
  have hlossless : Lossless (1 / 1000000) (powerOf2 2) (response.sample 0)
      (fun i => (i : ℝ) + 1) 3 5 := by
    have hsilent : Silent (1 / 1000000) (response.sample 0 3) := by
      rw [hresponse]
      norm_num [Silent]
    refine (lossless_forall_iff (by norm_num) (powerOf2_pos 2)).mpr ?_ _ _
    rw [AtStarts, if_neg (by decide), show powerOf2 2 = 2 from powerOf2_pow 1]
    refine ⟨hsilent, fun m hm hodd => ?_⟩
    rw [hresponse]
    exact if_neg (by omega)
  have hrun := (run_eq_linear_iff (B := doubles) (isRealDft_realFft _) fits_doubles
    (Nat.succ_pos 2) hlast haccepts hsignal).mpr hlossless
  rw [hrun, hresponse]
  norm_num [response, AudioBuffer.mono, linear, List.range_succ, sum_range_succ]

/-- A delay of one frame, as in the test of the convolvers, with blocks of two: the impulse at
the end of the first block is lost. -/
theorem not_run_eq_linear_delay :
    let delay : AudioBuffer 32 ℝ := .mono (fun m => if m = 1 then 1 else 0) 2
    let impulse : AudioBuffer 32 ℝ := .mono (fun i => if i = 1 then 1 else 0) 3
    realFft.IsRealDft (2 * powerOf2 2) ∧
      ¬ Silent (1 / 1000000) (delay.sample 0 (delay.mValidSize - 1)) ∧
      signal 0 [(impulse, .mono 0 3)] = [0, 1, 0] ∧
      run realFft 0 (start.load doubles realFft (1 / 1000000) delay 2 0) [(impulse, .mono 0 3)] =
        some [0, 0, 0] ∧
      (List.range 3).map (linear (delay.sample 0) (impulse.sample 0) 2) = [0, 0, 1] := by
  intro delay impulse
  have hdelay : delay.sample 0 = fun m => if m = 1 then 1 else 0 := AudioBuffer.sample_mono _ _
  have himpulse : impulse.sample 0 = fun i => if i = 1 then 1 else 0 :=
    AudioBuffer.sample_mono _ _
  have hlast : ¬ Silent (1 / 1000000) (delay.sample 0 1) := by
    rw [hdelay]
    norm_num [Silent]
  have hsilent : Silent (1 / 1000000) (delay.sample 0 2) := by
    rw [hdelay]
    norm_num [Silent]
  have htrim : trim (1 / 1000000) (delay.sample 0) delay.mValidSize = 1 :=
    (if_pos hsilent).trans (trim_of_not_silent hlast)
  have haccepts : ∀ call ∈ [(impulse, AudioBuffer.mono 0 3)], Accepts 0 call := by
    simp only [List.mem_singleton, forall_eq]
    exact accepts_mono _ _
  have hsignal : signal 0 [(impulse, AudioBuffer.mono 0 3)] =
      (List.range 3).map (impulse.sample 0) := List.append_nil _
  have hrun := run_of_loaded (B := doubles) (isRealDft_realFft _) fits_doubles
    (by rw [htrim]; decide) haccepts hsignal
  refine ⟨isRealDft_realFft _, hlast, hsignal.trans ?_, hrun.trans ?_, ?_⟩
  · norm_num [himpulse, List.range_succ]
  · rw [htrim, show powerOf2 2 = 2 from powerOf2_pow 1, hdelay, himpulse]
    norm_num [kept, taps, List.range_succ, sum_range_succ]
  · rw [hdelay, himpulse]
    norm_num [linear, List.range_succ, sum_range_succ]

end ConvolverMono

end Tklb
