import Mathlib.Data.Rat.Floor
import Mathlib.Tactic.Linarith
import Tklb.AudioBuffer

/-!
# The loop of a resampler

A resampler goes over the output frames of a channel, maps each of them to a frame of the
input, and stops when this frame tells that the input has ended or when there is no room
for another one.  `accesses` lists the frames that `process` reads and writes, one channel
after the other, for a given way of mapping the frames and a given test for the end.

Where the test is passed from some output frame on, `accesses` is known explicitly
(`channelAccesses_eq`, `mem_accesses`), and `inside_iff` says what has to be checked for
all accesses to stay inside the buffers.

### What is load-bearing

The two resamplers have the same loop and differ in the frame they read and in the test that
ends the loop.  So the accesses are defined here with both as arguments, and each resampler is
connected to its own instance: the theorems `processChannels_eq_foldl` say that what `process`
does is to perform these accesses and to count them.  Without them this file would say nothing
about the code.

`inside_iff` reduces the question to frames that are read.  What is written is always in the
output, since the loop counts up to its size.
-/

namespace Tklb

open Foundation

/-- `round(v)`: the nearest integer, and the one away from zero between two of them. -/
def TMath.round (v : ℚ) : ℤ := if 0 < v then ⌊v + 1 / 2⌋ else ⌈v - 1 / 2⌉

/-- The half between two integers is rounded up, if it is positive. -/
theorem TMath.toNat_round {v : ℚ} (h : 0 ≤ v) : (TMath.round v).toNat = ⌊v + 1 / 2⌋₊ := by
  unfold TMath.round
  rcases h.lt_or_eq with hpos | rfl
  · rw [if_pos hpos, Int.floor_toNat]
  · have hhalf : ⌊(1 / 2 : ℚ)⌋₊ = 0 := Nat.floor_eq_zero.mpr (by norm_num)
    norm_num [hhalf]

namespace Resampler

theorem factor_pos {rateIn rateOut : ℕ} (hin : 0 < rateIn) (hout : 0 < rateOut) {factor : ℚ}
    (hrates : factor = rateIn / rateOut) : 0 < factor := by
  rw [hrates]
  positivity

/-- `out[channel][write] = … in[channel][read] …` -/
structure Access where
  channel : ℕ
  read : ℕ
  write : ℕ

/-- The loop over the output frames of a channel, which maps output frame `o` to input frame
`index o`; the last arguments are `out.size() - output` and `output`. -/
def channelAccesses (index : ℕ → ℕ) (ended : ℕ → Bool) (channel : ℕ) : ℕ → ℕ → List Access
  | 0, _ => []
  | rest + 1, output =>
      if ended (index output) then []
      else ⟨channel, index output, output⟩ ::
        channelAccesses index ended channel rest (output + 1)

/-- The accesses of all `channels`, to an output of `size` frames. -/
def accesses (index : ℕ → ℕ) (ended : ℕ → Bool) (channels size : ℕ) : List Access :=
  (List.range channels).flatMap fun c => channelAccesses index ended c size 0

/-- Only frames of the input are read and only frames of the output are written, and these
are, in every channel, the first `count` ones. -/
structure Inside {w : ℕ} {α : Type} (input out : AudioBuffer w α) (count : ℕ)
    (l : List Access) : Prop where
  channel : ∀ a ∈ l, a.channel < input.mChannels ∧ a.channel < out.mChannels
  read : ∀ a ∈ l, a.read < input.mValidSize
  write : ∀ a ∈ l, a.write < out.size
  written : ∀ c < input.mChannels, ∀ o, (∃ a ∈ l, a.channel = c ∧ a.write = o) ↔ o < count

section Accesses

variable {index : ℕ → ℕ} {ended : ℕ → Bool} {stop : ℕ}

/-- **The accesses of a channel**, if output frame `stop` is the first one to be mapped behind
the input. -/
theorem channelAccesses_eq (hended : ∀ o, ended (index o) ↔ stop ≤ o) (c : ℕ) :
    ∀ {rest output : ℕ}, channelAccesses index ended c rest output =
      (List.range' output (min rest (stop - output))).map fun o => ⟨c, index o, o⟩
  | 0, output => by rw [Nat.zero_min]; rfl
  | rest + 1, output => by
      rw [channelAccesses]
      by_cases hstop : stop ≤ output
      · rw [if_pos ((hended output).mpr hstop), Nat.sub_eq_zero_of_le hstop, Nat.min_zero]
        rfl
      · have hmore : min (rest + 1) (stop - output) = min rest (stop - (output + 1)) + 1 := by
          omega
        rw [if_neg (mt (hended output).mp hstop), channelAccesses_eq hended, hmore,
          List.range'_succ, List.map_cons]

theorem mem_accesses (hended : ∀ o, ended (index o) ↔ stop ≤ o) {channels size : ℕ}
    {a : Access} :
    a ∈ accesses index ended channels size ↔
      a.channel < channels ∧ a.read = index a.write ∧ a.write < min size stop := by
  simp only [accesses, List.mem_flatMap, List.mem_range, channelAccesses_eq hended,
    List.mem_map, List.mem_range'_1, Nat.sub_zero, Nat.zero_add]
  constructor
  · rintro ⟨c, hc, o, ⟨-, ho⟩, rfl⟩
    exact ⟨hc, rfl, ho⟩
  · rintro ⟨hc, hread, hwrite⟩
    exact ⟨a.channel, hc, a.write, ⟨Nat.zero_le _, hwrite⟩, by rw [← hread]⟩

/-- **Staying inside.**  All that can go wrong is a frame that is read. -/
theorem inside_iff {w : ℕ} {α : Type} {input out : AudioBuffer w α}
    (hended : ∀ o, ended (index o) ↔ stop ≤ o) (hchannels : input.mChannels ≤ out.mChannels) :
    Inside input out (min out.size stop)
        (accesses index ended input.mChannels out.size) ↔
      input.mChannels = 0 ∨ ∀ o < min out.size stop, index o < input.mValidSize := by
  constructor
  · intro hinside
    refine (Nat.eq_zero_or_pos input.mChannels).imp_right fun hpos o ho => ?_
    have hmem := (mem_accesses hended (a := ⟨0, index o, o⟩)).mpr ⟨hpos, rfl, ho⟩
    exact hinside.read _ hmem
  · intro hread
    refine ⟨fun a ha => ?_, fun a ha => ?_, fun a ha => ?_, fun c hc o => ?_⟩
    · have hchannel := ((mem_accesses hended).mp ha).1
      exact ⟨hchannel, hchannel.trans_le hchannels⟩
    · obtain ⟨hchannel, hindex, hwrite⟩ := (mem_accesses hended).mp ha
      rw [hindex]
      exact hread.resolve_left (Nat.ne_zero_of_lt hchannel) _ hwrite
    · exact ((mem_accesses hended).mp ha).2.2.trans_le (Nat.min_le_left _ _)
    · constructor
      · rintro ⟨a, ha, -, rfl⟩
        exact ((mem_accesses hended).mp ha).2.2
      · intro ho
        exact ⟨⟨c, index o, o⟩, (mem_accesses hended).mpr ⟨hc, rfl, ho⟩, rfl, rfl⟩

end Accesses

theorem inside_of_no_channels {w : ℕ} {α : Type} {input out : AudioBuffer w α}
    {index : ℕ → ℕ} {ended : ℕ → Bool} {count : ℕ} (hnone : input.mChannels = 0) :
    Inside input out count (accesses index ended input.mChannels out.size) := by
  rw [hnone]
  exact ⟨nofun, nofun, nofun, fun c hc => absurd hc (by omega)⟩

/-- A call that goes through its accesses in order goes through those of one channel after
the other. -/
theorem foldl_accesses {S : Type} (index : ℕ → ℕ) (ended : ℕ → Bool) (channels size : ℕ)
    (step : S → Access → S) (s : S) :
    (accesses index ended channels size).foldl step s =
      countUp channels (fun c s => (channelAccesses index ended c size 0).foldl step s) s :=
  foldl_flatMap_range channels _ step s

end Resampler

end Tklb
