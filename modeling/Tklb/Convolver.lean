import Tklb.ConvolverMono.Exactness

/-!
# `Convolver`

An array of `ConvolverMono`s, one for each channel.  `load` loads each channel of the response
into its own convolver, `process` runs the convolvers one after the other, all with the same two
buffers.

A convolver with a response writes to its own channel (`ConvolverMono.sameOthers_processLoop`).
One without a response copies its input to its output, and it copies all channels of it, also
those that other convolvers have written already.  So what is in a channel afterwards depends on
the channels behind it: it is the convolution if all of them have a response, and the input
otherwise (`run_channels`).

### How many convolvers there are

The array has `AudioBuffer::MAX_CHANNELS` elements, a constant that is defined nowhere in the
source; here it is the parameter `maxChannels`.  Neither `load` nor `process` compares the number
of channels with it, so both index behind the array when a buffer has more channels, and then
there is no result.  All results here are for buffers with at most as many channels.

### What is load-bearing

`Processed` is the invariant of the loop over the channels, `channelOutput` the value it keeps:
after `k` channels, a channel has its convolution if no channel between it and `k` was copied
over it.  The step has two cases, a convolver with a response and one without, and each changes
that value in its own way (`channelOutput_succ_of_some`, `channelOutput_succ_of_none`).  What a
single convolver puts out is known from `ConvolverMono.Running.process`; here it is only needed
that it writes to its own channel and that the others keep the buffers they share.

`run_channels` is about any number of calls; that the state between the calls is the one a call
starts with is `Running`, which asks of every channel what the module about one convolver asks.
-/

namespace Tklb

open Foundation

/-- The convolvers of the channels.  Of these, the first `MAX_CHANNELS` are elements of the array;
the functions below have no result where another one is asked for. -/
structure Convolver (w : ℕ) (α : Type) where
  mConvolvers : ℕ → ConvolverMono w α

namespace Convolver

/-- A new convolver. -/
def start {w : ℕ} {α : Type} [Zero α] : Convolver w α := ⟨fun _ => .start⟩

/-- `load(buffer, blockSize)`; no result if the loop over the channels of the response runs
behind the array. -/
def load {α : Type} [Field α] [LinearOrder α] (B : BufferType) (fft : Fft α) (silence : α)
    (maxChannels : ℕ) (s : Convolver B.sizeBits α) (buffer : AudioBuffer B.sizeBits α)
    (blockSize : ℕ) : Option (Convolver B.sizeBits α) :=
  if maxChannels < buffer.mChannels then none
  else
    some ⟨countUp buffer.mChannels (fun c mConvolvers =>
      Function.update mConvolvers c ((mConvolvers c).load B fft silence buffer blockSize c))
      s.mConvolvers⟩

/-- An iteration of the loop of `process`: the convolvers and `outBuf` afterwards; no result if
the array has no element `c`. -/
def processChannel {w : ℕ} {α : Type} [CommRing α] (fft : Fft α) (maxChannels : ℕ)
    (inBuf : AudioBuffer w α) (s : (ℕ → ConvolverMono w α) × AudioBuffer w α) (c : ℕ) :
    Option ((ℕ → ConvolverMono w α) × AudioBuffer w α) :=
  if c < maxChannels then
    ((s.1 c).process fft inBuf s.2 c).map fun r => (Function.update s.1 c r.1, r.2)
  else none

/-- `process(inBuf, outBuf)` -/
def process {w : ℕ} {α : Type} [CommRing α] (fft : Fft α) (maxChannels : ℕ) (s : Convolver w α)
    (inBuf outBuf : AudioBuffer w α) : Option (Convolver w α × AudioBuffer w α) :=
  ((List.range inBuf.mChannels).foldlM (processChannel fft maxChannels inBuf)
    (s.mConvolvers, outBuf)).map fun r => (⟨r.1⟩, r.2)

end Convolver

/-! ### What a convolver does to the other channels -/

namespace ConvolverMono

variable {w : ℕ} {fft : Fft ℝ} {inBuf outBuf : AudioBuffer w ℝ} {channel length : ℕ}

/-- The buffers have the same channels, and all of them but one hold the same samples.  The frame of
a call on one channel. -/
structure SameOthers (channel : ℕ) (b b' : AudioBuffer w ℝ) : Prop where
  shape : AudioBuffer.SameShape b b'
  others : ∀ c < b.mChannels, c ≠ channel → ∀ i < b.size, b'.sample c i = b.sample c i

theorem SameOthers.refl (channel : ℕ) (b : AudioBuffer w ℝ) : SameOthers channel b b :=
  ⟨⟨b.cell, rfl⟩, fun _ _ _ _ _ => rfl⟩

theorem SameOthers.trans {b b' b'' : AudioBuffer w ℝ} (h : SameOthers channel b b')
    (h' : SameOthers channel b' b'') : SameOthers channel b b'' where
  shape := by
    obtain ⟨m, rfl⟩ := h.shape
    obtain ⟨m', rfl⟩ := h'.shape
    exact ⟨m', rfl⟩
  others c hc hne i hi := by
    rw [h'.others c (by rwa [h.shape.mChannels]) hne i (by rwa [h.shape.size]),
      h.others c hc hne i hi]

/-- An iteration writes to its channel. -/
theorem sameOthers_processBlock (fft : Fft ℝ) (c : ConvolverMono w ℝ)
    (inBuf : AudioBuffer w ℝ) (processed : ℕ)
    (hchannel : channel < outBuf.mChannels) (hroom : length ≤ outBuf.size) :
    SameOthers channel outBuf
      (c.processBlock fft inBuf outBuf channel length processed).2.2 := by
  obtain ⟨p, hp⟩ : ∃ p, p = min (length - processed) (c.mBlockSize - c.mInputBufferFill) :=
    ⟨_, rfl⟩
  rw [processBlock_eq c inBuf outBuf channel length processed hp rfl]
  refine ⟨⟨_, rfl⟩, fun d hd hne i hi => ?_⟩
  rw [AudioBuffer.withCells_sample]
  refine modifyEach_of_ne fun j hj heq => hne ?_
  exact (AudioBuffer.get_add_injective hd hchannel hi (by omega) heq.symm).1

/-- **A loaded convolver writes to its channel**, and keeps its segments.  This is why the channels
of a convolver can be looked at one by one: what the loop over one channel leaves in the output is
not seen by the others. -/
theorem sameOthers_processLoop (hchannel : channel < outBuf.mChannels)
    (hroom : length ≤ outBuf.size) {fuel processed : ℕ} {c c' : ConvolverMono w ℝ}
    {out' : AudioBuffer w ℝ}
    (h : processLoop fft inBuf channel length fuel processed c outBuf = some (c', out')) :
    SameOthers channel outBuf out' := by
  induction fuel generalizing processed c outBuf with
  | zero =>
      rw [processLoop] at h
      split at h
      · cases h
      · obtain ⟨-, rfl⟩ := Prod.mk.inj (Option.some.inj h)
        exact SameOthers.refl channel outBuf
  | succ fuel ih =>
      rw [processLoop] at h
      split at h
      · have hblock := sameOthers_processBlock fft c inBuf processed hchannel hroom
        refine hblock.trans (ih ?_ ?_ h)
        · rwa [hblock.shape.mChannels]
        · rwa [hblock.shape.size]
      · obtain ⟨-, rfl⟩ := Prod.mk.inj (Option.some.inj h)
        exact SameOthers.refl channel outBuf

end ConvolverMono

/-! ### Calls -/

namespace Convolver

open ConvolverMono

variable {w : ℕ} {fft : Fft ℝ} {chan maxChannels : ℕ}

/-- Consecutive calls, each with an input and a target: the inputs, and the targets afterwards. -/
def run (fft : Fft ℝ) (maxChannels : ℕ) : Convolver w ℝ →
    List (AudioBuffer w ℝ × AudioBuffer w ℝ) → Option (List (AudioBuffer w ℝ × AudioBuffer w ℝ))
  | _, [] => some []
  | s, (inBuf, outBuf) :: calls => do
      let (s, outBuf) ← s.process fft maxChannels inBuf outBuf
      let rest ← run fft maxChannels s calls
      return (inBuf, outBuf) :: rest

/-- What is put out on a channel. -/
def output (channel : ℕ) (results : List (AudioBuffer w ℝ × AudioBuffer w ℝ)) : List ℝ :=
  results.flatMap fun r => (List.range r.1.mValidSize).map (r.2.sample channel)

/-- Both buffers of a call have the channels, and the target has room for the input.  `process`
asserts neither of these. -/
structure Accepts (chan : ℕ) (call : AudioBuffer w ℝ × AudioBuffer w ℝ) : Prop where
  input : call.1.mChannels = chan
  output : chan ≤ call.2.mChannels
  le_size : call.1.mValidSize ≤ call.2.size

/-- The response of a channel: the number of its segments, and its taps.  `none` if the channel
has no response. -/
abbrev Response := Option (ℕ × (ℕ → ℝ))

/-- The convolvers have seen the first `n` frames of the signals.  A channel that has a response has
a convolver that runs with it, and one without has a convolver that was never loaded. -/
def Running (chan block : ℕ) (response : ℕ → Response) (x : ℕ → ℕ → ℝ)
    (mConvolvers : ℕ → ConvolverMono w ℝ) (n : ℕ) : Prop :=
  ∀ c < chan, match response c with
    | some (count, g) => (mConvolvers c).Running block count g (x c) n
    | none => (mConvolvers c).mSegmentCount = 0

/-- What is in a channel after the first `k` convolvers: the input if one of them, from its own on,
has no response. -/
noncomputable def channelOutput (block : ℕ) (response : ℕ → Response) (x : ℕ → ℕ → ℝ)
    (k c n : ℕ) : ℝ :=
  match response c with
  | some (_, g) =>
      if ∀ d < k, c < d → (response d).isSome = true then kept block g (x c) n else x c n
  | none => x c n

/-! ### One call -/

section Call

variable {block : ℕ} {response : ℕ → Response} {x : ℕ → ℕ → ℝ} {n : ℕ}
  {inBuf outBuf : AudioBuffer w ℝ} {mConvolvers : ℕ → ConvolverMono w ℝ}

/-- The first `k` channels have been processed.  Their convolvers have gone on by the valid frames
of the input, the others are as they were, and the samples that were put out are where they belong.
-/
structure Processed (chan block : ℕ) (response : ℕ → Response) (x : ℕ → ℕ → ℝ) (n : ℕ)
    (inBuf outBuf : AudioBuffer w ℝ) (mConvolvers : ℕ → ConvolverMono w ℝ) (k : ℕ)
    (s : (ℕ → ConvolverMono w ℝ) × AudioBuffer w ℝ) : Prop where
  shape : AudioBuffer.SameShape outBuf s.2
  running : Running k block response x s.1 (n + inBuf.mValidSize)
  waiting : ∀ c, k ≤ c → s.1 c = mConvolvers c
  samples : ∀ c < k, ∀ i < inBuf.mValidSize,
    s.2.sample c i = channelOutput block response x k c (n + i)

/-- A convolver with a response leaves the channels in front of it alone. -/
theorem channelOutput_succ_of_some {k c m : ℕ} (hsome : (response k).isSome = true) :
    channelOutput block response x (k + 1) c m = channelOutput block response x k c m := by
  have hiff : (∀ d < k + 1, c < d → (response d).isSome = true) ↔
      ∀ d < k, c < d → (response d).isSome = true := by
    constructor
    · exact fun h d hd => h d (Nat.lt_succ_of_lt hd)
    · intro h d hd hlt
      rcases Nat.lt_succ_iff_lt_or_eq.mp hd with hd | rfl
      · exact h d hd hlt
      · exact hsome
  unfold channelOutput
  split
  · simp only [hiff]
  · rfl

/-- One without a response copies the input to all of them. -/
theorem channelOutput_succ_of_none {k c m : ℕ} (hnone : response k = none) (hc : c ≤ k) :
    channelOutput block response x (k + 1) c m = x c m := by
  unfold channelOutput
  split
  · next hresponse =>
      rw [if_neg]
      intro hall
      rcases hc.lt_or_eq with hlt | rfl
      · have hsome := hall k (Nat.lt_succ_self k) hlt
        rw [hnone] at hsome
        cases hsome
      · rw [hnone] at hresponse
        cases hresponse
  · rfl

/-- A channel with a response: its convolver has gone on, and only its samples have changed. -/
theorem Processed.loaded {k count : ℕ} {g : ℕ → ℝ} {c' : ConvolverMono w ℝ}
    {out' : AudioBuffer w ℝ} {s : (ℕ → ConvolverMono w ℝ) × AudioBuffer w ℝ}
    (hs : Processed chan block response x n inBuf outBuf mConvolvers k s)
    (hresponse : response k = some (count, g)) (hchannel : k < outBuf.mChannels)
    (hroom : inBuf.mValidSize ≤ outBuf.size)
    (hnext : c'.Running block count g (x k) (n + inBuf.mValidSize))
    (hsamples : ∀ i < inBuf.mValidSize, out'.sample k i = kept block g (x k) (n + i))
    (hothers : SameOthers k s.2 out') :
    Processed chan block response x n inBuf outBuf mConvolvers (k + 1)
      (Function.update s.1 k c', out') := by
  have hchannels : s.2.mChannels = outBuf.mChannels := hs.shape.mChannels
  have hsize : s.2.size = outBuf.size := hs.shape.size
  have hsome : (response k).isSome = true := by
    rw [hresponse]
    rfl
  refine ⟨hs.shape.trans hothers.shape, ?_, ?_, ?_⟩
  · intro c hc
    by_cases hck : c = k
    · subst hck
      rw [hresponse]
      dsimp only
      rwa [Function.update_self]
    · dsimp only
      rw [Function.update_of_ne hck]
      exact hs.running c (by omega)
  · intro c hc
    dsimp only
    rw [Function.update_of_ne (by omega)]
    exact hs.waiting c (by omega)
  · intro c hc i hi
    rw [channelOutput_succ_of_some hsome]
    by_cases hck : c = k
    · subst hck
      rw [hsamples i hi, channelOutput, hresponse]
      exact (if_pos fun d hd hlt => absurd hd (by omega)).symm
    · rw [← hs.samples c (by omega) i hi]
      exact hothers.others c (by omega) hck i (by omega)

/-- A channel without one: the input is in all channels up to it. -/
theorem Processed.unloaded {k : ℕ} {s : (ℕ → ConvolverMono w ℝ) × AudioBuffer w ℝ}
    (hs : Processed chan block response x n inBuf outBuf mConvolvers k s)
    (hresponse : response k = none) (hown : (s.1 k).mSegmentCount = 0)
    (hinput : k < inBuf.mChannels) (hchannel : k < outBuf.mChannels)
    (hroom : inBuf.mValidSize ≤ outBuf.size)
    (hin : ∀ c ≤ k, ∀ i < inBuf.mValidSize, inBuf.sample c i = x c (n + i)) :
    Processed chan block response x n inBuf outBuf mConvolvers (k + 1)
      (s.1, s.2.setBuffer inBuf 0 0 0) := by
  have hchannels : s.2.mChannels = outBuf.mChannels := hs.shape.mChannels
  have hsize : s.2.size = outBuf.size := hs.shape.size
  have hwrites := AudioBuffer.writes_setBuffer (b := s.2) inBuf 0 0 (Nat.zero_le _)
  refine ⟨hs.shape.trans hwrites.shape, ?_, fun c hc => hs.waiting c (by omega), ?_⟩
  · intro c hc
    by_cases hck : c = k
    · subst hck
      rw [hresponse]
      exact hown
    · exact hs.running c (by omega)
  · intro c hc i hi
    rw [channelOutput_succ_of_none hresponse (by omega), ← hin c (by omega) i hi]
    have hcopied := hwrites.written c (by omega) (by omega) i
    rw [if_pos rfl, Nat.zero_add] at hcopied
    exact hcopied (lt_min hi (by omega))

/-- **One channel more.**  The convolver of the channel puts out its next samples, those of the
channels before have been put out, and those of the channels behind still wait for theirs. -/
theorem Processed.step (hfft : fft.IsRealDft (2 * block))
    (hg : ∀ c < chan, ∀ count g, response c = some (count, g) → ∀ m, count * block ≤ m → g m = 0)
    (hrunning : Running chan block response x mConvolvers n)
    (haccepts : Accepts chan (inBuf, outBuf))
    (hin : ∀ c < chan, ∀ i < inBuf.mValidSize, inBuf.sample c i = x c (n + i)) {k : ℕ}
    (hk : k < chan) (hmax : chan ≤ maxChannels) {s : (ℕ → ConvolverMono w ℝ) × AudioBuffer w ℝ}
    (hs : Processed chan block response x n inBuf outBuf mConvolvers k s) :
    ∃ s', processChannel fft maxChannels inBuf s k = some s' ∧
      Processed chan block response x n inBuf outBuf mConvolvers (k + 1) s' := by
  obtain ⟨hinput, houtput, hroom⟩ := haccepts
  dsimp only at hinput houtput hroom
  have hown := hrunning k hk
  have hsame : s.1 k = mConvolvers k := hs.waiting k le_rfl
  cases hresponse : response k with
  | some r =>
      obtain ⟨count, g⟩ := r
      rw [hresponse, ← hsame] at hown
      obtain ⟨c', out', hprocess, hnext, hsamples⟩ : ∃ c' out',
          (s.1 k).process fft inBuf s.2 k = some (c', out') ∧
          c'.Running block count g (x k) (n + inBuf.mValidSize) ∧
          ∀ i < inBuf.mValidSize, out'.sample k i = kept block g (x k) (n + i) :=
        hown.process hfft (hg k hk count g hresponse) (hin k hk)
      have hloop := hprocess
      rw [ConvolverMono.process, if_neg (by rw [hown.segmentCount]; exact hown.count_pos.ne')]
        at hloop
      have hothers : SameOthers k s.2 out' := by
        refine sameOthers_processLoop ?_ ?_ hloop
        · rw [hs.shape.mChannels]
          omega
        · rw [hs.shape.size]
          exact hroom
      refine ⟨_, ?_, hs.loaded hresponse (by omega) hroom hnext hsamples hothers⟩
      rw [processChannel, if_pos (hk.trans_le hmax), hprocess]
      rfl
  | none =>
      rw [hresponse, ← hsame] at hown
      have hprocess : (s.1 k).process fft inBuf s.2 k =
          some (s.1 k, s.2.setBuffer inBuf 0 0 0) := if_pos hown
      refine ⟨_, ?_, hs.unloaded hresponse hown (by omega) (by omega) hroom
        fun c hc => hin c (by omega)⟩
      rw [processChannel, if_pos (hk.trans_le hmax), hprocess]
      show some (Function.update s.1 k (s.1 k), s.2.setBuffer inBuf 0 0 0) = _
      rw [Function.update_eq_self]

/-- The loop of `process`. -/
theorem Processed.loop (hfft : fft.IsRealDft (2 * block))
    (hg : ∀ c < chan, ∀ count g, response c = some (count, g) → ∀ m, count * block ≤ m → g m = 0)
    (hrunning : Running chan block response x mConvolvers n)
    (haccepts : Accepts chan (inBuf, outBuf))
    (hin : ∀ c < chan, ∀ i < inBuf.mValidSize, inBuf.sample c i = x c (n + i)) {k : ℕ}
    (hk : k ≤ chan) (hmax : chan ≤ maxChannels) :
    ∃ s, (List.range k).foldlM (processChannel fft maxChannels inBuf) (mConvolvers, outBuf) =
        some s ∧
      Processed chan block response x n inBuf outBuf mConvolvers k s := by
  induction k with
  | zero =>
      exact ⟨_, rfl, ⟨outBuf.cell, rfl⟩, fun c hc => absurd hc (Nat.not_lt_zero c),
        fun _ _ => rfl, fun c hc => absurd hc (Nat.not_lt_zero c)⟩
  | succ k ih =>
      obtain ⟨s, hfold, hprocessed⟩ := ih (by omega)
      obtain ⟨s', hstep, hnext⟩ := hprocessed.step hfft hg hrunning haccepts hin hk hmax
      refine ⟨s', ?_, hnext⟩
      rw [List.range_succ, List.foldlM_append, hfold, Option.bind_eq_bind, Option.bind_some,
        List.foldlM_cons, hstep]
      rfl

end Call

/-- **A call** puts out the next samples of every channel.  Sample `i` of channel `c` is
`channelOutput` at `n + i`: its own convolution, unless the channel or one behind it has no
response. -/
theorem Running.process {block : ℕ} {response : ℕ → Response} {x : ℕ → ℕ → ℝ} {n : ℕ}
    {inBuf outBuf : AudioBuffer w ℝ} {s : Convolver w ℝ} (hfft : fft.IsRealDft (2 * block))
    (hg : ∀ c < chan, ∀ count g, response c = some (count, g) → ∀ m, count * block ≤ m → g m = 0)
    (hrunning : Running chan block response x s.mConvolvers n)
    (haccepts : Accepts chan (inBuf, outBuf)) (hmax : chan ≤ maxChannels)
    (hin : ∀ c < chan, ∀ i < inBuf.mValidSize, inBuf.sample c i = x c (n + i)) :
    ∃ s' out', s.process fft maxChannels inBuf outBuf = some (s', out') ∧
      Running chan block response x s'.mConvolvers (n + inBuf.mValidSize) ∧
      ∀ c < chan, ∀ i < inBuf.mValidSize,
        out'.sample c i = channelOutput block response x chan c (n + i) := by
  have hall : inBuf.mChannels = chan := haccepts.input
  obtain ⟨r, hfold, hprocessed⟩ :=
    Processed.loop hfft hg hrunning haccepts hin (le_refl chan) hmax
  refine ⟨⟨r.1⟩, r.2, ?_, hprocessed.running, hprocessed.samples⟩
  rw [Convolver.process, hall, hfold]
  rfl

/-! ### Consecutive calls -/

section Whole

variable {B : BufferType} {silence : ℝ} {ir : AudioBuffer B.sizeBits ℝ} {blockSize L : ℕ}
  {x : ℕ → ℕ → ℝ}
  {calls : List (AudioBuffer B.sizeBits ℝ × AudioBuffer B.sizeBits ℝ)}

/-- The responses that `load` finds in a buffer. -/
noncomputable def responses (silence : ℝ) (block : ℕ) (buffer : AudioBuffer w ℝ) (c : ℕ) :
    Response :=
  if c < buffer.mChannels ∧ trim silence (buffer.sample c) buffer.mValidSize ≠ 0 then
    some ((trim silence (buffer.sample c) buffer.mValidSize + 1) ⌈/⌉ block,
      taps (buffer.sample c) (trim silence (buffer.sample c) buffer.mValidSize + 1))
  else none

/-- Each channel of the response is in its convolver; a channel that it does not have keeps its
new one. -/
theorem exists_load (fft : Fft ℝ) (silence : ℝ) (blockSize : ℕ)
    (hload : ir.mChannels ≤ maxChannels) :
    ∃ s, start.load B fft silence maxChannels ir blockSize = some s ∧ ∀ c, s.mConvolvers c =
      if c < ir.mChannels then ConvolverMono.start.load B fft silence ir blockSize c
      else .start := by
  refine ⟨_, if_neg (Nat.not_lt.mpr hload), ?_⟩
  refine countUp_invariant (fun k (mConvolvers : ℕ → ConvolverMono B.sizeBits ℝ) => ∀ c,
    mConvolvers c =
      if c < k then ConvolverMono.start.load B fft silence ir blockSize c else .start)
    (fun c => (if_neg (Nat.not_lt_zero c)).symm) ?_
  intro k _ mConvolvers h c
  by_cases hck : c = k
  · subst hck
    rw [Function.update_self, if_pos (Nat.lt_succ_self c), h, if_neg (lt_irrefl c)]
  · rw [Function.update_of_ne hck, h]
    simp only [Nat.lt_succ_iff_lt_or_eq, hck, or_false]

/-- The loaded convolvers have seen nothing. -/
theorem load_running (hfft : fft.IsRealDft (2 * powerOf2 blockSize)) (hfit : Fits B blockSize)
    {mConvolvers : ℕ → ConvolverMono B.sizeBits ℝ} (hloaded : ∀ c, mConvolvers c =
      if c < ir.mChannels then ConvolverMono.start.load B fft silence ir blockSize c
      else .start) :
    Running chan (powerOf2 blockSize) (responses silence (powerOf2 blockSize) ir) x
      mConvolvers 0 := by
  intro c _
  rw [hloaded, responses]
  by_cases hc : c < ir.mChannels
  · by_cases htrim : trim silence (ir.sample c) ir.mValidSize = 0
    · rw [if_neg fun h => h.2 htrim, if_pos hc, ConvolverMono.load, if_pos htrim]
      rfl
    · rw [if_pos ⟨hc, htrim⟩, if_pos hc]
      exact ConvolverMono.load_running (x c) hfft hfit htrim
  · rw [if_neg fun h => hc h.1, if_neg hc]
    rfl

/-- The taps end with the last segment. -/
theorem responses_eq_zero {c count m : ℕ} {g : ℕ → ℝ}
    (h : responses silence (powerOf2 blockSize) ir c = some (count, g))
    (hm : count * powerOf2 blockSize ≤ m) : g m = 0 := by
  unfold responses at h
  split at h
  · obtain ⟨rfl, rfl⟩ := Prod.mk.inj (Option.some.inj h)
    have hceil := le_smul_ceilDiv (powerOf2_pos blockSize)
      (b := trim silence (ir.sample c) ir.mValidSize + 1)
    rw [smul_eq_mul, Nat.mul_comm] at hceil
    exact if_neg (Nat.not_lt.mpr (hceil.trans hm))
  · cases h

/-- The calls, from any frame on. -/
theorem run_of_running {block : ℕ} {response : ℕ → Response} {n : ℕ} {s : Convolver w ℝ}
    {calls : List (AudioBuffer w ℝ × AudioBuffer w ℝ)} (hfft : fft.IsRealDft (2 * block))
    (hg : ∀ c < chan, ∀ count g, response c = some (count, g) → ∀ m, count * block ≤ m → g m = 0)
    (hrunning : Running chan block response x s.mConvolvers n)
    (haccepts : ∀ call ∈ calls, Accepts chan call) (hmax : chan ≤ maxChannels)
    (hsignal : ∀ c < chan, signal c calls = (List.range L).map fun i => x c (n + i)) :
    ∃ results, run fft maxChannels s calls = some results ∧ ∀ c < chan, output c results =
      (List.range L).map fun i => channelOutput block response x chan c (n + i) := by
  induction calls generalizing s n L with
  | nil =>
      refine ⟨[], rfl, fun c hc => ?_⟩
      obtain rfl : L = 0 := by simpa [signal] using (hsignal c hc).symm
      rfl
  | cons call calls ih =>
      obtain ⟨inBuf, outBuf⟩ := call
      have hsplit := fun c (hc : c < chan) => range_split (hsignal c hc)
      obtain ⟨s', out', hprocess, hnext, hout⟩ :=
        hrunning.process hfft hg (haccepts _ List.mem_cons_self) hmax fun c hc => (hsplit c hc).1
      have hrest : ∀ c < chan, signal c calls =
          (List.range (L - inBuf.mValidSize)).map fun i => x c (n + inBuf.mValidSize + i) := by
        intro c hc
        simp only [Nat.add_assoc]
        exact (hsplit c hc).2.1
      obtain ⟨results, hrun, hresults⟩ :=
        ih hnext (fun call h => haccepts call (List.mem_cons_of_mem _ h)) hrest
      refine ⟨(inBuf, out') :: results, ?_, fun c hc => ?_⟩
      · rw [run, hprocess]
        simp only [Option.bind_eq_bind, Option.bind_some, hrun]
        rfl
      · obtain ⟨d, rfl⟩ := Nat.exists_eq_add_of_le (hsplit c hc).2.2
        have hhead : (List.range inBuf.mValidSize).map (out'.sample c) =
            (List.range inBuf.mValidSize).map
              fun i => channelOutput block response x chan c (n + i) :=
          List.map_congr_left fun i hi => hout c hc i (List.mem_range.mp hi)
        have htail := hresults c hc
        rw [Nat.add_sub_cancel_left] at htail
        rw [output, List.flatMap_cons, hhead, List.range_add, List.map_append, List.map_map]
        congr 1
        rw [← output, htail]
        simp only [Function.comp_def, Nat.add_assoc]

end Whole

/-- Three channels of two samples. -/
def threeChannels : AudioBuffer 32 ℝ where
  cell i := i
  mBufferSize := 6
  mValidSize := 2
  mChannels := 3
  buffer_lt := by decide
  valid_lt := by decide
  channels_lt := (by decide : 3 < 256)
  channels_ne := fun _ => Nat.succ_ne_zero 2

theorem sample_threeChannels (c i : ℕ) :
    threeChannels.sample c i = ((wrap 32 (c * 2) + i : ℕ) : ℝ) := rfl

end Convolver

end Tklb
