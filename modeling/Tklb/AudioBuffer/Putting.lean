import Tklb.AudioBuffer.Setting

/-!
# `put`

`put` copies a channel to an array, several channels to several arrays, or all to one
array, frame after frame.  The number of frames is clamped to what is valid behind
`offset`, so nothing more is read as long as no more is valid than there is storage for.

The file has the reads checked, like those of `set`, and the division of
`putInterleaved` too.  What is written is right wherever all can be read
(`putInterleavedChecked_of_le`, `putArrays_of_le`); the number that is returned is not.
`putInterleaved` adds up what it wrote to the requested channels and divides by the
channels of the buffer; `put` returns what was written last.

### Main results

* `put`, `putArrays` and `putInterleavedChecked` are the functions of the source with every read
  compared with the length of the channel and every divisor with zero; they have no result
  where a comparison fails.
* `putArrays_of_le` and `putInterleavedChecked_of_le` are their closed forms, for a buffer that
  has as much storage as is valid.
* `PutsArrays` and `PutsInterleaved` are the promises: which places of the target are written
  and with what, that no other place is, and what number is returned.
* `puts_iff` says when the promises are kept.

### What is load-bearing

The frames that are put are the same in both functions (`framesPut`), and right wherever as much
is stored as is put; the rest of the condition is about the number.  `putInterleaved` returns a
quotient, and the quotient is the number of frames only if all channels were asked for, or if
nothing was put; the cases of `puts_iff` are those of a natural number division.  `put` returns
the number of the last channel it was asked for, which is 0 where the buffer has no such
channel.
-/

namespace Tklb

open Foundation

namespace AudioBuffer

variable {w : ℕ} {α β : Type}

/-! ### The code -/

/-- `put(target, length, channel, offset)`: the number of samples written and the target,
`none` if it reads a frame the channel does not have. -/
def put (conv : α → β) (b : AudioBuffer w α) (target : ℕ → β) (length channel offset : ℕ) :
    Option (ℕ × (ℕ → β)) :=
  if b.mChannels ≤ channel then some (0, target)
  else
    let valid := b.mValidSize
    let length := if length = 0 then valid else length
    let length := min length (wsub w valid offset)
    (copyEach length (fun i => i) (b.readable conv channel offset) target).map (length, ·)

/-- `put(target, length, chan, offset)`: several channels to an array of arrays. -/
def putArrays (conv : α → β) (b : AudioBuffer w α) (target : ℕ → ℕ → β)
    (length chan offset : ℕ) : Option (ℕ × (ℕ → ℕ → β)) :=
  let chan := if chan = 0 then b.mChannels else chan
  countUpOption chan
    (fun c p =>
      (b.put conv (p.2 c) length c offset).map fun q => (q.1, Function.update p.2 c q.2))
    (0, target)

/-- The inner loop of `putInterleaved`, with its reads checked. -/
def interleaveChannelChecked (conv : α → β) (b : AudioBuffer w α) (length chan offset c : ℕ)
    (m : ℕ → β) : Option (ℕ → β) :=
  (countUpOption length
    (fun i (p : ℕ × (ℕ → β)) =>
      (b.readable conv c 0 (wrap w (i + offset))).map fun x =>
        (wrap w (p.1 + chan), Function.update p.2 p.1 x))
    (wrap w c, m)).map Prod.snd

/-- `putInterleaved(buffer, length, offset, chan)`, `none` if it reads a frame the channel
does not have or divides by zero. -/
def putInterleavedChecked (conv : α → β) (b : AudioBuffer w α) (buffer : ℕ → β)
    (length offset chan : ℕ) : Option (ℕ × (ℕ → β)) :=
  let valid := b.mValidSize
  let chan := if chan = 0 then b.mChannels else min chan b.mChannels
  let length := if length = 0 then valid else length
  let length := min (wsub w valid offset) length
  let result := countUpOption chan
    (fun c (p : ℕ × (ℕ → β)) =>
      (b.interleaveChannelChecked conv length chan offset c p.2).map (wrap w (p.1 + length), ·))
    (0, buffer)
  result.bind fun p => if b.mChannels = 0 then none else some (p.1 / b.mChannels, p.2)

/-! ### Without the checks -/

/-- The buffer with its samples converted. -/
def convert (conv : α → β) (b : AudioBuffer w α) : AudioBuffer w β :=
  { b with cell := fun k => conv (b.cell k) }

variable {b : AudioBuffer w α} {conv : α → β} {length channel chan offset n : ℕ}

/-- What is read where all can be read. -/
theorem readable_of_lt {c i : ℕ} (h : offset + i < b.size) :
    b.readable conv c offset i = some (conv (b.sample c (offset + i))) := by
  rw [readable, if_pos h, Nat.add_assoc]
  rfl

theorem readable_of_le {c i : ℕ} (h : b.size ≤ offset + i) :
    b.readable conv c offset i = none :=
  if_neg (Nat.not_lt.mpr h)

theorem interleaveChannelChecked_of_le {c : ℕ} (hfit : ∀ i < n, offset + i < b.size)
    (m : ℕ → β) :
    b.interleaveChannelChecked conv n chan offset c m =
      some ((b.convert conv).interleaveChannel n chan offset c m) := by
  unfold interleaveChannelChecked
  rw [countUpOption_of_some
    (f := fun i p => (wrap w (p.1 + chan), Function.update p.2 p.1
      (conv (b.sample c (wrap w (i + offset))))))
    (fun _ _ => True) trivial fun i hi p _ => ⟨?_, trivial⟩]
  · rfl
  · have hin := hfit i hi
    have hread : 0 + wrap w (i + offset) < b.size := by
      have hlt := b.size_lt
      rw [wrap_of_lt (by omega)]
      omega
    rw [readable_of_lt hread, Option.map_some, Nat.zero_add]

/-- A frame behind the end of the channel is read by the first iteration that gets
there. -/
theorem interleaveChannelChecked_of_lt {c : ℕ} (hn : offset + n ≤ b.mValidSize) (hpos : 0 < n)
    (hout : b.size < offset + n) (m : ℕ → β) :
    b.interleaveChannelChecked conv n chan offset c m = none := by
  unfold interleaveChannelChecked
  rw [countUpOption_of_none (i := n - 1) (by omega), Option.map_none]
  intro p
  have hlt := b.valid_lt
  have hread : b.size ≤ 0 + wrap w (n - 1 + offset) := by
    rw [wrap_of_lt (by omega)]
    omega
  rw [readable_of_le hread, Option.map_none]

/-! ### What is put where -/

/-- How many frames a call puts: as many as were asked for (0 asks for all), and only valid
ones. -/
def framesPut (b : AudioBuffer w α) (length offset : ℕ) : ℕ :=
  min (if length = 0 then b.mValidSize else length) (b.mValidSize - offset)

/-- Of how many channels: as many as were asked for (0 asks for all), if they exist. -/
def channelsPut (b : AudioBuffer w α) (chan : ℕ) : ℕ :=
  min (if chan = 0 then b.mChannels else chan) b.mChannels

theorem channelsPut_le (b : AudioBuffer w α) (chan : ℕ) : b.channelsPut chan ≤ b.mChannels :=
  Nat.min_le_right _ _

theorem channelsPut_pos (hch : b.mChannels ≠ 0) (chan : ℕ) : 0 < b.channelsPut chan := by
  unfold channelsPut
  split <;> omega

/-- The number of frames the loops of `putInterleaved` run over. -/
theorem length_putInterleaved (hoffset : offset ≤ b.mValidSize) :
    min (wsub w b.mValidSize offset) (if length = 0 then b.mValidSize else length) =
      b.framesPut length offset := by
  rw [wsub_of_le b.valid_lt hoffset, Nat.min_comm, framesPut]

theorem chan_putInterleaved (b : AudioBuffer w α) (chan : ℕ) :
    (if chan = 0 then b.mChannels else min chan b.mChannels) = b.channelsPut chan := by
  unfold channelsPut
  split
  · rw [Nat.min_self]
  · rfl

/-- The samples that are put have representable positions. -/
theorem framesPut_mul_lt (hfit : ∀ i < b.framesPut length offset, offset + i < b.size) :
    b.framesPut length offset * b.channelsPut chan < 2 ^ w := by
  have hle : b.framesPut length offset ≤ b.size := by
    refine Nat.le_of_not_lt fun hlt => ?_
    have := hfit b.size hlt
    omega
  exact (Nat.mul_le_mul_left _ (channelsPut_le b chan)).trans_lt (mul_mChannels_lt hle)

theorem add_framesPut_le (hoffset : offset ≤ b.mValidSize) :
    offset + b.framesPut length offset ≤ b.mValidSize := by
  unfold framesPut
  omega

/-- Where all can be read and there is a channel, the checked call is the call on the
converted buffer. -/
theorem putInterleavedChecked_eq (hch : b.mChannels ≠ 0) (hoffset : offset ≤ b.mValidSize)
    (hfit : ∀ i < b.framesPut length offset, offset + i < b.size) (y : ℕ → β) :
    b.putInterleavedChecked conv y length offset chan =
      some ((b.convert conv).putInterleaved y length offset chan) := by
  have hall : ∀ c < b.channelsPut chan, ∀ p : ℕ × (ℕ → β), True →
      (b.interleaveChannelChecked conv (b.framesPut length offset) (b.channelsPut chan) offset c
        p.2).map (wrap w (p.1 + b.framesPut length offset), ·) =
        some (wrap w (p.1 + b.framesPut length offset),
          (b.convert conv).interleaveChannel (b.framesPut length offset) (b.channelsPut chan)
            offset c p.2) ∧ True := by
    intro c _ p _
    rw [interleaveChannelChecked_of_le hfit, Option.map_some]
    exact ⟨rfl, trivial⟩
  unfold putInterleavedChecked
  simp only [length_putInterleaved hoffset, chan_putInterleaved]
  rw [countUpOption_of_some _ trivial hall, Option.bind_some, if_neg hch,
    ← length_putInterleaved hoffset, ← chan_putInterleaved]
  rfl

/-- What is put where all can be read. -/
theorem putInterleavedChecked_of_le (hch : b.mChannels ≠ 0) (hoffset : offset ≤ b.mValidSize)
    (hfit : ∀ i < b.framesPut length offset, offset + i < b.size) (y : ℕ → β) :
    b.putInterleavedChecked conv y length offset chan =
      some (b.channelsPut chan * b.framesPut length offset / b.mChannels,
        modifyGrid (b.channelsPut chan) (b.framesPut length offset)
          (fun c i => c + i * b.channelsPut chan)
          (fun c i _ => conv (b.sample c (offset + i))) y) := by
  rw [putInterleavedChecked_eq hch hoffset hfit]
  exact congrArg some (putInterleaved_eq_modifyGrid (b := b.convert conv)
    (chan_putInterleaved b chan) hoffset (Nat.min_comm _ _) (framesPut_mul_lt hfit))

/-- A frame that is not there is read. -/
theorem putInterleavedChecked_of_lt (hch : b.mChannels ≠ 0) (hoffset : offset ≤ b.mValidSize)
    (hpos : 0 < b.framesPut length offset) (hout : b.size < offset + b.framesPut length offset)
    (y : ℕ → β) : b.putInterleavedChecked conv y length offset chan = none := by
  have hvalid : offset + b.framesPut length offset ≤ _ := add_framesPut_le hoffset
  unfold putInterleavedChecked
  simp only [length_putInterleaved hoffset, chan_putInterleaved]
  rw [countUpOption_first (channelsPut_pos hch chan), Option.bind_none]
  rw [interleaveChannelChecked_of_lt hvalid hpos hout, Option.map_none]

/-- Without channels the last step divides by zero. -/
theorem putInterleavedChecked_of_no_channels (hch : b.mChannels = 0) (y : ℕ → β) :
    b.putInterleavedChecked conv y length offset chan = none := by
  unfold putInterleavedChecked
  simp only [if_pos hch, Option.bind_fun_none]

/-- `put` of a channel. -/
theorem put_of_le (hchannel : channel < b.mChannels) (hoffset : offset ≤ b.mValidSize)
    (hfit : ∀ i < b.framesPut length offset, offset + i < b.size) (y : ℕ → β) :
    b.put conv y length channel offset =
      some (b.framesPut length offset,
        modifyEach (b.framesPut length offset) (fun i => i)
          (fun i _ => conv (b.sample channel (offset + i))) y) := by
  have hread : ∀ i < b.framesPut length offset,
      b.readable conv channel offset i = some (conv (b.sample channel (offset + i))) :=
    fun i hi => readable_of_lt (hfit i hi)
  rw [put, if_neg (Nat.not_le.mpr hchannel)]
  simp only [wsub_of_le b.valid_lt hoffset]
  rw [← framesPut, copyEach_of_some hread, Option.map_some]

theorem put_of_lt (hchannel : channel < b.mChannels) (hoffset : offset ≤ b.mValidSize)
    (hpos : 0 < b.framesPut length offset) (hout : b.size < offset + b.framesPut length offset)
    (y : ℕ → β) : b.put conv y length channel offset = none := by
  have hread : b.readable conv channel offset (b.framesPut length offset - 1) = none :=
    readable_of_le (by omega)
  rw [put, if_neg (Nat.not_le.mpr hchannel)]
  simp only [wsub_of_le b.valid_lt hoffset]
  rw [← framesPut, copyEach_of_none (by omega) hread, Option.map_none]

/-- A channel that does not exist is not put. -/
theorem put_of_no_channel (hchannel : b.mChannels ≤ channel) (y : ℕ → β) :
    b.put conv y length channel offset = some (0, y) :=
  if_pos hchannel

/-- An iteration of `put` to several arrays, where all can be read. -/
def putChannel (conv : α → β) (b : AudioBuffer w α) (length offset c : ℕ)
    (p : ℕ × (ℕ → ℕ → β)) : ℕ × (ℕ → ℕ → β) :=
  if c < b.mChannels then
    (b.framesPut length offset,
      Function.update p.2 c (modifyEach (b.framesPut length offset) (fun i => i)
        (fun i _ => conv (b.sample c (offset + i))) (p.2 c)))
  else (0, p.2)

theorem putArrays_eq_countUp (hoffset : offset ≤ b.mValidSize)
    (hfit : b.mChannels ≠ 0 → ∀ i < b.framesPut length offset, offset + i < b.size)
    (t : ℕ → ℕ → β) :
    b.putArrays conv t length chan offset =
      some (countUp (if chan = 0 then b.mChannels else chan)
        (b.putChannel conv length offset) (0, t)) := by
  refine countUpOption_of_some (fun _ _ => True) trivial fun c _ p _ => ⟨?_, trivial⟩
  unfold putChannel
  by_cases hc : c < b.mChannels
  · rw [if_pos hc, put_of_le hc hoffset (hfit (by omega)), Option.map_some]
  · rw [if_neg hc, put_of_no_channel (Nat.not_lt.mp hc), Option.map_some,
      Function.update_eq_self]

/-- The arrays after `k` iterations. -/
theorem countUp_putChannel (k : ℕ) (t : ℕ → ℕ → β) (c i : ℕ) :
    (countUp k (b.putChannel conv length offset) (0, t)).2 c i =
      if c < min k b.mChannels ∧ i < b.framesPut length offset then
        conv (b.sample c (offset + i))
      else t c i := by
  induction k with
  | zero => exact (if_neg fun h => Nat.not_lt_zero c (h.1.trans_le (Nat.min_le_left _ _))).symm
  | succ k ih =>
      rw [countUp_succ, putChannel]
      by_cases hk : k < b.mChannels
      · rw [if_pos hk]
        dsimp only
        by_cases hck : c = k
        · subst hck
          rw [Function.update_self]
          by_cases hi : i < b.framesPut length offset
          · rw [if_pos ⟨by omega, hi⟩]
            exact modifyEach_addr (fun _ _ _ _ h => h) hi
          · rw [if_neg fun h => hi h.2, modifyEach_of_ne fun j hj => by omega, ih,
              if_neg fun h => hi h.2]
        · rw [Function.update_of_ne hck, ih]
          exact if_congr (by omega) rfl rfl
      · rw [if_neg hk, ih]
        exact if_congr (by omega) rfl rfl

/-- **`put` to several arrays**, where all can be read: the number returned is that of the
last channel asked for. -/
theorem putArrays_of_le (hoffset : offset ≤ b.mValidSize)
    (hfit : b.mChannels ≠ 0 → ∀ i < b.framesPut length offset, offset + i < b.size)
    (conv : α → β) (chan : ℕ) (t : ℕ → ℕ → β) :
    ∃ out, b.putArrays conv t length chan offset =
        some (if 0 < b.channelsPut chan ∧ chan ≤ b.mChannels then b.framesPut length offset else 0,
          out) ∧
      ∀ c i, out c i = if c < b.channelsPut chan ∧ i < b.framesPut length offset then
        conv (b.sample c (offset + i)) else t c i := by
  refine ⟨_, (putArrays_eq_countUp hoffset hfit t).trans
    (congrArg some (Prod.ext ?_ rfl)), countUp_putChannel _ t⟩
  have hchan : b.channelsPut chan = min (if chan = 0 then b.mChannels else chan) b.mChannels := rfl
  generalize hk : (if chan = 0 then b.mChannels else chan) = k at hchan ⊢
  cases k with
  | zero => exact (if_neg fun h => by omega).symm
  | succ k =>
      rw [countUp_succ, putChannel]
      split
      · exact (if_pos ⟨by omega, by split at hk <;> omega⟩).symm
      · exact (if_neg fun h => by split at hk <;> omega).symm

/-- The first channel is already too short. -/
theorem putArrays_of_lt (hch : b.mChannels ≠ 0) (hoffset : offset ≤ b.mValidSize)
    (hpos : 0 < b.framesPut length offset) (hout : b.size < offset + b.framesPut length offset)
    (t : ℕ → ℕ → β) : b.putArrays conv t length chan offset = none := by
  unfold putArrays
  refine countUpOption_first (by split <;> omega) ?_
  rw [put_of_lt (Nat.pos_of_ne_zero hch) hoffset hpos hout, Option.map_none]

/-! ### What the calls promise -/

/-- `putInterleaved` reads nothing outside of the channels and does not divide by zero.  It
writes the frames from `offset` on, one after the other, and nothing else, and returns
their number. -/
def PutsInterleaved (conv : α → β) (b : AudioBuffer w α) (y : ℕ → β)
    (length offset chan : ℕ) : Prop :=
  ∃ out, b.putInterleavedChecked conv y length offset chan =
      some (if b.channelsPut chan = 0 then 0 else b.framesPut length offset, out) ∧
    (∀ i < b.framesPut length offset, ∀ c < b.channelsPut chan,
      out (i * b.channelsPut chan + c) = conv (b.sample c (offset + i))) ∧
    ∀ k, b.framesPut length offset * b.channelsPut chan ≤ k → out k = y k

/-- `put` reads nothing outside of the channels.  It writes the frames from `offset` on to
the array of each channel, and nothing else, and returns their number if there is a
channel. -/
def PutsArrays (conv : α → β) (b : AudioBuffer w α) (t : ℕ → ℕ → β)
    (length chan offset : ℕ) : Prop :=
  ∃ count out, b.putArrays conv t length chan offset = some (count, out) ∧
    (0 < b.channelsPut chan → count = b.framesPut length offset) ∧
    (∀ c < b.channelsPut chan, ∀ i < b.framesPut length offset,
      out c i = conv (b.sample c (offset + i))) ∧
    ∀ c i, ¬ (c < b.channelsPut chan ∧ i < b.framesPut length offset) → out c i = t c i

/-- The samples of all channels, or of none, are as many frames; those of fewer channels
are fewer frames. -/
theorem samples_div_eq_iff (hch : b.mChannels ≠ 0) :
    b.channelsPut chan * n / b.mChannels = n ↔ n = 0 ∨ chan = 0 ∨ b.mChannels ≤ chan := by
  have hpos := Nat.pos_of_ne_zero hch
  by_cases hall : chan = 0 ∨ b.mChannels ≤ chan
  · have hchannels : b.channelsPut chan = b.mChannels := by
      unfold channelsPut
      split <;> omega
    rw [hchannels, Nat.mul_div_cancel_left _ hpos]
    exact iff_of_true rfl (Or.inr hall)
  rcases Nat.eq_zero_or_pos n with rfl | hn
  · rw [Nat.mul_zero, Nat.zero_div]
    exact iff_of_true rfl (Or.inl rfl)
  have hfewer : b.channelsPut chan < b.mChannels := by
    unfold channelsPut
    rw [if_neg fun h => hall (Or.inl h)]
    omega
  have hless : b.channelsPut chan * n / b.mChannels < n := by
    rw [Nat.div_lt_iff_lt_mul hpos, Nat.mul_comm n]
    exact Nat.mul_lt_mul_of_pos_right hfewer hn
  exact iff_of_false hless.ne fun h => h.elim hn.ne' hall

theorem putsInterleaved_iff (hoffset : offset ≤ b.mValidSize) (y : ℕ → β) :
    PutsInterleaved conv b y length offset chan ↔
      b.mChannels ≠ 0 ∧ (b.framesPut length offset = 0 ∨
        (chan = 0 ∨ b.mChannels ≤ chan) ∧ offset + b.framesPut length offset ≤ b.size) := by
  by_cases hch : b.mChannels = 0
  · refine iff_of_false ?_ fun h => h.1 hch
    rintro ⟨out, hcall, -⟩
    rw [putInterleavedChecked_of_no_channels hch] at hcall
    cases hcall
  rw [and_iff_right hch]
  have hpos := channelsPut_pos hch chan
  constructor
  · rintro ⟨out, hcall, -⟩
    refine or_iff_not_imp_left.mpr fun hframes => ?_
    by_cases hout : b.size < offset + b.framesPut length offset
    · rw [putInterleavedChecked_of_lt hch hoffset (Nat.pos_of_ne_zero hframes) hout] at hcall
      cases hcall
    rw [putInterleavedChecked_of_le hch hoffset fun i hi => by omega, if_neg hpos.ne'] at hcall
    have hcount := congrArg Prod.fst (Option.some.inj hcall)
    exact ⟨((samples_div_eq_iff hch).mp hcount).resolve_left hframes, Nat.not_lt.mp hout⟩
  · intro hcond
    have hfit : ∀ i < b.framesPut length offset, offset + i < b.size := fun i hi => by omega
    have hcount : b.channelsPut chan * b.framesPut length offset / b.mChannels =
        b.framesPut length offset :=
      (samples_div_eq_iff hch).mpr (hcond.imp_right And.left)
    have hcall : b.putInterleavedChecked conv y length offset chan = _ :=
      putInterleavedChecked_of_le hch hoffset hfit y
    unfold PutsInterleaved
    rw [hcall, hcount, if_neg hpos.ne']
    refine ⟨_, rfl, ?_, ?_⟩
    · intro i hi c hc
      rw [Nat.add_comm]
      exact modifyGrid_addr (gridInjective_interleaved _ _) hc hi
    · intro k hk
      refine modifyGrid_of_ne fun c hc i hi heq => ?_
      have := channel_add_frame_lt hi hc
      omega

theorem putsArrays_iff (hoffset : offset ≤ b.mValidSize) (t : ℕ → ℕ → β) :
    PutsArrays conv b t length chan offset ↔
      b.mChannels = 0 ∨ b.framesPut length offset = 0 ∨
        chan ≤ b.mChannels ∧ offset + b.framesPut length offset ≤ b.size := by
  constructor
  · rintro ⟨count, out, hcall, hcount, -⟩
    refine or_iff_not_imp_left.mpr fun hch => or_iff_not_imp_left.mpr fun hframes => ?_
    have hpos := Nat.pos_of_ne_zero hframes
    by_cases hout : b.size < offset + b.framesPut length offset
    · rw [putArrays_of_lt hch hoffset hpos hout] at hcall
      cases hcall
    refine ⟨Nat.le_of_not_lt fun hmore => ?_, Nat.not_lt.mp hout⟩
    -- the last channel asked for does not exist
    have hfit : ∀ i < b.framesPut length offset, offset + i < b.size := fun i hi => by omega
    obtain ⟨out', hcall', -⟩ := putArrays_of_le hoffset (fun _ => hfit) conv chan t
    rw [hcall', if_neg fun h => by omega] at hcall
    have hzero : 0 = count := congrArg Prod.fst (Option.some.inj hcall)
    have := hcount (channelsPut_pos hch chan)
    omega
  · intro hcond
    have hfit : b.mChannels ≠ 0 → ∀ i < b.framesPut length offset, offset + i < b.size :=
      fun hch i hi => by omega
    obtain ⟨out, hcall, hsamples⟩ := putArrays_of_le hoffset hfit conv chan t
    refine ⟨_, out, hcall, fun hpos => ?_, ?_, ?_⟩
    · have hch := channelsPut_le b chan
      split <;> omega
    · intro c hc i hi
      rw [hsamples, if_pos ⟨hc, hi⟩]
    · intro c i hnot
      rw [hsamples, if_neg hnot]

/-- **The number that `put` and `putInterleaved` return.**  `putInterleaved` keeps its
promise if and only if there is a channel and it is asked for all of them (or more), or for
no frame; `put`, unless it is asked for more channels than there are.  Of both it has to be
true that as many frames as are put are also stored. -/
theorem puts_iff (conv : α → β) (b : AudioBuffer w α) (y : ℕ → β) (t : ℕ → ℕ → β)
    (length chan offset : ℕ) (hoffset : offset ≤ b.mValidSize) :
    (PutsInterleaved conv b y length offset chan ↔
      b.mChannels ≠ 0 ∧ (b.framesPut length offset = 0 ∨
        (chan = 0 ∨ b.mChannels ≤ chan) ∧ offset + b.framesPut length offset ≤ b.size)) ∧
    (PutsArrays conv b t length chan offset ↔
      b.mChannels = 0 ∨ b.framesPut length offset = 0 ∨
        chan ≤ b.mChannels ∧ offset + b.framesPut length offset ≤ b.size) :=
  ⟨putsInterleaved_iff hoffset y, putsArrays_iff hoffset t⟩

/-- Two channels, of which all are asked for. -/
theorem puts_iff_stereo :
    PutsInterleaved id stereo id 0 1 2 ∧ PutsArrays id stereo (fun _ => id) 0 2 1 := by
  obtain ⟨hinterleaved, harrays⟩ := puts_iff id stereo id (fun _ => id) 0 2 1 (by decide)
  exact ⟨hinterleaved.mpr (by decide), harrays.mpr (by decide)⟩

/-- Three frames of the first of two channels: all are written, and one is reported.  Asked
for three of the two channels, `put` reports none.  A buffer without channels divides by
zero. -/
theorem not_puts_stereo :
    ¬ PutsInterleaved id stereo id 0 0 1 ∧ ¬ PutsArrays id stereo (fun _ => id) 0 3 0 ∧
      ¬ PutsInterleaved id (initial : AudioBuffer 8 ℕ) id 0 0 0 := by
  refine ⟨?_, ?_, ?_⟩
  · rintro ⟨out, hcall, -⟩
    have hcount : (stereo.putInterleavedChecked id id 0 0 1).map Prod.fst = some 1 := by decide
    rw [hcall] at hcount
    cases hcount
  · rintro ⟨count, out, hcall, hreported, -⟩
    have hcount : (stereo.putArrays id (fun _ => id) 0 3 0).map Prod.fst = some 0 := by decide
    rw [hcall] at hcount
    have hzero : count = 0 := Option.some.inj hcount
    have hthree : count = 3 := hreported (by decide)
    omega
  · rintro ⟨out, hcall, -⟩
    rw [putInterleavedChecked_of_no_channels rfl] at hcall
    cases hcall

end AudioBuffer

end Tklb
