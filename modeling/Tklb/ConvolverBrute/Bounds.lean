import Tklb.ConvolverBrute

/-!
# What `process` divides by and reads

For each channel of the output `process` takes two remainders, by the number of channels of
the input and of the impulse response (`divisors`).  For each frame it visits some taps
(`mem_taps_iff`); each of them reads a frame of the impulse response and one of the input.

The sizes are unsigned, and where one is 0 the subtraction of 1 wraps: without an impulse
response the last tap of a frame is the frame itself, and without input frames the first one
is 0 (`jmn_zero`).  So the frame 0 is always visited with its tap 0, and with
nothing there it is read all the same: `processesInBounds_iff`.

### What is load-bearing

The three parts of `ProcessesInBounds` fail in different ways.  A remainder by zero is taken for
every channel of the output, before any frame is looked at, so no channels on one side are
enough.  A read out of bounds needs an empty side, and then frame 0 makes one
(`first_mem_taps`).  And an output that should be unchanged is changed by what was read there.
With frames on both sides all three hold, by `process_convolves`.  The condition therefore only
speaks of what is empty; no length is compared with another.
-/

namespace Tklb

open Foundation

namespace ConvolverBrute

variable {w : ℕ} {α : Type} {ir input out : AudioBuffer w α} {n i : ℕ}

/-- The divisors of the remainders `c % in.channels()` and `c % mIr.channels()`, in
order. -/
def divisors (ir input out : AudioBuffer w α) : List ℕ :=
  (List.range out.mChannels).flatMap fun _ => [input.mChannels, ir.mChannels]

/-- There is nothing to convolve with, or nothing to convolve.  Then one is subtracted
from a size of zero, or a remainder is taken by zero. -/
def Empty (ir input : AudioBuffer w α) : Prop :=
  ir.size = 0 ∨ ir.mChannels = 0 ∨ input.mValidSize = 0 ∨ input.mChannels = 0

/-- `process` divides by no zero, stays inside the impulse response and the valid frames of
the input, and without one of them leaves the output as it is. -/
structure ProcessesInBounds [CommRing α] (ir input out : AudioBuffer w α) : Prop where
  divisors : ∀ d ∈ divisors ir input out, d ≠ 0
  reads : ∀ t ∈ taps ir input out, t.j < ir.size ∧ t.k < input.mValidSize
  unchanged : Empty ir input → ∀ c < out.mChannels, ∀ i < out.size,
    (process ir input out).sample c i = out.sample c i

theorem mem_divisors {d : ℕ} : d ∈ divisors ir input out ↔
    0 < out.mChannels ∧ (d = input.mChannels ∨ d = ir.mChannels) := by
  simp only [divisors, List.mem_flatMap, List.mem_range, List.mem_pair]
  constructor
  · rintro ⟨c, hc, hd⟩
    exact ⟨Nat.zero_lt_of_lt hc, hd⟩
  · rintro ⟨hpos, hd⟩
    exact ⟨0, hpos, hd⟩

/-! ### The taps that are visited -/

theorem taps_eq (ir input out : AudioBuffer w α) : taps ir input out =
    (List.range out.mChannels).flatMap fun c => (List.range out.size).flatMap fun i =>
      (List.range (jmx w ir.size i + 1 - jmn w input.mValidSize i)).flatMap fun t =>
        [⟨c, i, c % ir.mChannels, c % input.mChannels, jmn w input.mValidSize i + t,
          wsub w i (jmn w input.mValidSize i + t)⟩] := by
  unfold taps forTaps countFrom
  simp only [countUp_append, List.nil_append]

/-- **The taps** of a frame are those from `jmn` to `jmx`.  A tap is one product of the sum; the
bounds are computed in `Size`, so they are the intended ones only as long as nothing is subtracted
from something smaller. -/
theorem mem_taps_iff {t : Tap} : t ∈ taps ir input out ↔
    ∃ c < out.mChannels, ∃ i < out.size, ∃ j, jmn w input.mValidSize i ≤ j ∧
      j ≤ jmx w ir.size i ∧
      t = ⟨c, i, c % ir.mChannels, c % input.mChannels, j, wsub w i j⟩ := by
  simp only [taps_eq, List.mem_flatMap, List.mem_range, List.mem_singleton]
  constructor
  · rintro ⟨c, hc, i, hi, t, ht, rfl⟩
    exact ⟨c, hc, i, hi, _, Nat.le_add_right _ t, by omega, rfl⟩
  · rintro ⟨c, hc, i, hi, j, hfirst, hlast, rfl⟩
    obtain ⟨t, rfl⟩ := Nat.exists_eq_add_of_le hfirst
    exact ⟨c, hc, i, hi, t, by omega, rfl⟩

theorem wsub_zero_one (w : ℕ) : wsub w 0 1 = 2 ^ w - 1 := by
  have hpos := Nat.two_pow_pos w
  rw [wsub, Nat.add_zero, wrap_of_lt (by omega)]

/-- Without input frames the first tap is 0. -/
theorem jmn_zero (hi : i + 1 < 2 ^ w) : jmn w 0 i = 0 := by
  rw [jmn, wsub_zero_one, if_neg (by omega)]

/-- Frame 0 starts with its tap 0. -/
theorem jmn_first (hw : 1 < 2 ^ w) {ng : ℕ} (hng : ng < 2 ^ w) : jmn w ng 0 = 0 := by
  rcases Nat.eq_zero_or_pos ng with rfl | hpos
  · exact jmn_zero (by omega)
  · rw [jmn, wsub_of_le hng hpos]
    split
    · rw [wsub_of_le (by omega) ‹_›, Nat.zero_sub]
    · rfl

/-- Frame 0 is visited with its tap 0, whatever there is. -/
theorem first_mem_taps (hchan : 0 < out.mChannels) (hsize : 0 < out.size) :
    ⟨0, 0, 0 % ir.mChannels, 0 % input.mChannels, 0, wsub w 0 0⟩ ∈ taps ir input out := by
  have hw : 1 < 2 ^ w := lt_of_le_of_lt hsize out.size_lt
  rw [mem_taps_iff]
  exact ⟨0, hchan, 0, hsize, 0, (jmn_first hw input.valid_lt).le, Nat.zero_le _, rfl⟩

/-! ### When `process` stays in bounds -/

/-- **`process` stays in bounds** if there are channels to take remainders by and, unless the
output has no room, frames to convolve on both sides; or if there is no output. -/
theorem processesInBounds_iff [CommRing α] (ir input out : AudioBuffer w α) :
    ProcessesInBounds ir input out ↔
      out.mChannels = 0 ∨ (0 < input.mChannels ∧ 0 < ir.mChannels ∧
        (out.size = 0 ∨ (0 < ir.size ∧ 0 < input.mValidSize))) := by
  constructor
  · intro h
    rcases Nat.eq_zero_or_pos out.mChannels with hzero | hchan
    · exact Or.inl hzero
    · refine Or.inr ⟨Nat.pos_of_ne_zero ?_, Nat.pos_of_ne_zero ?_, ?_⟩
      · exact h.divisors _ (mem_divisors.mpr ⟨hchan, Or.inl rfl⟩)
      · exact h.divisors _ (mem_divisors.mpr ⟨hchan, Or.inr rfl⟩)
      · rcases Nat.eq_zero_or_pos out.size with hnone | hsize
        · exact Or.inl hnone
        · obtain ⟨hj, hk⟩ := h.reads _ (first_mem_taps hchan hsize)
          exact Or.inr ⟨hj, Nat.zero_lt_of_lt hk⟩
  · intro h
    refine ⟨fun d hd => ?_, fun t ht => ?_, fun hempty c hc i hi => ?_⟩
    · obtain ⟨hchan, hd⟩ := mem_divisors.mp hd
      obtain ⟨hinput, hir, -⟩ := h.resolve_left hchan.ne'
      rcases hd with rfl | rfl
      · exact hinput.ne'
      · exact hir.ne'
    · obtain ⟨c, hc, i, hi, j, hfirst, hlast, rfl⟩ := mem_taps_iff.mp ht
      obtain ⟨-, -, hsizes⟩ := h.resolve_left (Nat.zero_lt_of_lt hc).ne'
      obtain ⟨hnf, hng⟩ := hsizes.resolve_left (Nat.zero_lt_of_lt hi).ne'
      have hlt := hi.trans out.size_lt
      obtain ⟨hj, hle, hk⟩ := (mem_taps hnf hng ir.size_lt input.valid_lt hlt).mp
        ⟨hfirst, Nat.lt_succ_of_le hlast⟩
      exact ⟨hj, (wsub_of_le hlt hle).trans_lt hk⟩
    · -- with frames in the output there are some on both sides
      obtain ⟨hinput, hir, hsizes⟩ := h.resolve_left (Nat.zero_lt_of_lt hc).ne'
      obtain ⟨hnf, hng⟩ := hsizes.resolve_left (Nat.zero_lt_of_lt hi).ne'
      rcases hempty with hzero | hzero | hzero | hzero
      · exact absurd hzero hnf.ne'
      · exact absurd hzero hir.ne'
      · exact absurd hzero hng.ne'
      · exact absurd hzero hinput.ne'

/-- Nothing was loaded. -/
theorem not_processesInBounds_initial : ¬ ProcessesInBounds (AudioBuffer.initial : AudioBuffer 32 ℤ)
    ⟨fun _ => 1, 4, 4, 1, by decide, by decide, by decide, by decide⟩
    ⟨fun _ => 0, 4, 4, 1, by decide, by decide, by decide, by decide⟩ := by
  intro h
  exact h.divisors 0 (mem_divisors.mpr ⟨by decide, Or.inr rfl⟩) rfl

end ConvolverBrute

end Tklb
