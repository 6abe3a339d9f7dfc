import Mathlib.Algebra.CharZero.Defs
import Mathlib.Tactic.FieldSimp
import Mathlib.Tactic.Ring
import Tklb.FFTOoura

/-!
# There and back

`forward` stores a block of `2 * H` samples as `H + 1` bins: bin `0` is real, and so is bin
`H`, whose value `rdft` has left in the place of the imaginary part of bin `0`.  `back` puts
the value there again, so `rdft` gets back the array it made (`interleave_bins`), and scales
what it gives by what the two transforms multiply by together.

Blocks are `2 * H` samples apart on one side and `H + 1` bins on the other.  Both runs keep an
invariant that says where the pointers are and what has been written for the blocks so far
(`Forwarded`, `Restored`), from one lemma for each iteration (`forwardBlock_spec`,
`backBlock_spec`).

### What is load-bearing

Both functions walk through two arrays at once, in strides that are not the same, and compare
pointers for the end.  The lemmas about an iteration say where each pointer is afterwards
(`forwardBlock_spec`, `backBlock_spec`), and the invariants are about the number of blocks, from
which the pointers are computed.  That one block does not overwrite another needs the room in
the output, and that the two channels are disjoint (`Forwarded.step`, `Restored.step`).

Of the transform in the middle it is only used that a call with the opposite sign multiplies by
half the length (`Inverts`), for arrays of that length; `back` divides by it at the end, with
`multiply` of a constant, so for the build with vectors its target has to be aligned.
`rdftTwo`, a transform that is right for two numbers only, shows that the assumption can be met.
-/

namespace Tklb

open Foundation

namespace FFTOoura

variable {w : ℕ} {α : Type}

/-- **Going over pairs.**  A loop over the two samples of each pair moves both pointers on by
one in every iteration, so what it writes for a pair depends on the number of the pair. -/
theorem pairLoop_spec {H real imaginary : ℕ} {m : ℕ → α}
    {body : ℕ → ℕ × ℕ × (ℕ → α) → Option (ℕ × ℕ × (ℕ → α))}
    {write : ℕ → ℕ → ℕ → (ℕ → α) → ℕ → α}
    (hbody : ∀ p r i m, body p (r, i, m) = some (r + 1, i + 1, write p r i m))
    (P : ℕ → (ℕ → α) → Prop) (hstart : P 0 m)
    (hstep : ∀ j < H, ∀ m, P j m → P (j + 1) (write (j * 2) (real + j) (imaginary + j) m)) :
    ∃ m', (pointerLoop (H * 2) 2 body (H * 2) 0 (real, imaginary, m)).map (fun s => s.2.2) =
      some m' ∧ P H m' := by
  obtain ⟨s, hloop, -, -, hs⟩ := pointerLoop_of_start Nat.two_pos rfl
    (fun j (s : ℕ × ℕ × (ℕ → α)) => s.1 = real + j ∧ s.2.1 = imaginary + j ∧ P j s.2.2)
    (fun j hj ⟨r, i, m⟩ ⟨hreal, himaginary, hdone⟩ => by
      dsimp only at hreal himaginary hdone
      subst hreal himaginary
      exact ⟨_, hbody (j * 2) (real + j) (imaginary + j) m, Nat.add_assoc _ _ _,
        Nat.add_assoc _ _ _, hstep j hj m hdone⟩)
    (Nat.le_mul_of_pos_right H Nat.two_pos) (s := (real, imaginary, m)) ⟨rfl, rfl, hstart⟩
  exact ⟨s.2.2, by rw [hloop]; rfl, hs⟩

/-! ### The bins of a block -/

section Bins

variable [Ring α]

/-- What `rdft` makes of the samples `x 0, …, x (N - 1)`. -/
def spectrum (rdft : Rdft α) (N : ℕ) (x : ℕ → α) (i : ℕ) : α :=
  if h : i < N then rdft N 1 (fun j => x j) ⟨i, h⟩ else 0

/-- The real parts of the bins `0, …, H` that `rdft` has packed into `a`. -/
def realBin (H : ℕ) (a : ℕ → α) (j : ℕ) : α := if j = H then a 1 else a (2 * j)

/-- Their imaginary parts. -/
def imaginaryBin (H : ℕ) (a : ℕ → α) (j : ℕ) : α :=
  if j = 0 ∨ j = H then 0 else -a (2 * j + 1)

/-- `j` pairs of samples have been taken apart.  Even cells are the real parts and odd ones the
imaginary parts, with the sign of the source; other cells were not written. -/
structure Deinterleaved (b : ℕ → α) (real imaginary : ℕ) (m : ℕ → α) (j : ℕ)
    (m' : ℕ → α) : Prop where
  reals : ∀ t < j, m' (real + t) = b (2 * t)
  imaginaries : ∀ t < j, m' (imaginary + t) = -b (2 * t + 1)
  kept : ∀ a, (∀ t < j, a ≠ real + t ∧ a ≠ imaginary + t) → m' a = m a

theorem Deinterleaved.step {b m m' : ℕ → α} {real imaginary j : ℕ}
    (h : Deinterleaved b real imaginary m j m')
    (hapart : ∀ s ≤ j, ∀ t ≤ j, real + s ≠ imaginary + t) :
    Deinterleaved b real imaginary m (j + 1)
      (Function.update (Function.update m' (real + j) (b (j * 2))) (imaginary + j)
        (-b (j * 2 + 1))) where
  reals := by
    intro t ht
    rw [Function.update_of_ne (hapart t (by omega) j le_rfl)]
    rcases Nat.lt_succ_iff_lt_or_eq.mp ht with hlt | rfl
    · rw [Function.update_of_ne (by omega), h.reals t hlt]
    · rw [Function.update_self, Nat.mul_comm]
  imaginaries := by
    intro t ht
    rcases Nat.lt_succ_iff_lt_or_eq.mp ht with hlt | rfl
    · rw [Function.update_of_ne (by omega),
        Function.update_of_ne (hapart j le_rfl t (by omega)).symm, h.imaginaries t hlt]
    · rw [Function.update_self, Nat.mul_comm]
  kept := by
    intro a ha
    have hlast := ha j (Nat.lt_succ_self j)
    rw [Function.update_of_ne hlast.2, Function.update_of_ne hlast.1]
    exact h.kept a fun t ht => ha t (Nat.lt_succ_of_lt ht)

/-- The loop ends when all pairs are taken apart. -/
theorem deinterleave_spec {H real imaginary : ℕ} {b m : ℕ → α}
    (hapart : ∀ s < H, ∀ t < H, real + s ≠ imaginary + t) :
    ∃ m', deinterleave (H * 2) b real imaginary m = some m' ∧
      Deinterleaved b real imaginary m H m' := by
  refine pairLoop_spec (fun _ _ _ _ => rfl) (Deinterleaved b real imaginary m)
    ⟨nofun, nofun, fun _ _ => rfl⟩ fun j hj m' hdone => ?_
  exact hdone.step fun s hs t ht => hapart s (by omega) t (by omega)

/-- The bins of a block have been written, and nothing else.  There are `H + 1` of them, the first
and the last with an imaginary part of zero. -/
structure BlockWritten (H : ℕ) (a : ℕ → α) (real imaginary : ℕ) (m m' : ℕ → α) : Prop where
  reals : ∀ t ≤ H, m' (real + t) = realBin H a t
  imaginaries : ∀ t ≤ H, m' (imaginary + t) = imaginaryBin H a t
  kept : ∀ k, (∀ t ≤ H, k ≠ real + t ∧ k ≠ imaginary + t) → m' k = m k

/-- What `forward` does to the first and the last bin. -/
theorem Deinterleaved.blockWritten {H real imaginary : ℕ} {a m m' : ℕ → α} (hpos : 0 < H)
    (hapart : ∀ s ≤ H, ∀ t ≤ H, real + s ≠ imaginary + t)
    (h : Deinterleaved a real imaginary m H m') :
    BlockWritten H a real imaginary m
      (Function.update (Function.update (Function.update m' (real + H) (-m' imaginary))
        imaginary 0) (imaginary + H) 0) where
  reals := by
    intro t ht
    have hfirst := hapart t ht 0 hpos.le
    rw [Nat.add_zero] at hfirst
    rw [Function.update_of_ne (hapart t ht H le_rfl), Function.update_of_ne hfirst, realBin]
    rcases ht.lt_or_eq with hlt | rfl
    · rw [Function.update_of_ne (by omega), if_neg hlt.ne, h.reals t hlt]
    · have hnyquist := h.imaginaries 0 hpos
      rw [Nat.add_zero] at hnyquist
      rw [Function.update_self, if_pos rfl, hnyquist, neg_neg]
  imaginaries := by
    intro t ht
    rw [imaginaryBin]
    by_cases hedge : t = 0 ∨ t = H
    · rw [if_pos hedge]
      rcases hedge with rfl | rfl
      · rw [Function.update_of_ne (by omega), Nat.add_zero, Function.update_self]
      · rw [Function.update_self]
    · rw [if_neg hedge, Function.update_of_ne (by omega), Function.update_of_ne (by omega),
        Function.update_of_ne (hapart H le_rfl t ht).symm, h.imaginaries t (by omega)]
  kept := by
    intro k hk
    have hfirst := (hk 0 hpos.le).2
    rw [Nat.add_zero] at hfirst
    rw [Function.update_of_ne (hk H le_rfl).2, Function.update_of_ne hfirst,
      Function.update_of_ne (hk H le_rfl).1]
    exact h.kept k fun t ht => hk t ht.le

end Bins

/-! ### The working buffer -/

/-- A buffer for blocks of `N` samples.  What is in it does not matter, since every block fills it
first. -/
structure Ready (N : ℕ) (b : AudioBuffer w α) : Prop where
  channels : b.mChannels = 1
  size : b.size = N
  valid : b.mValidSize = N

theorem Ready.withCells {N : ℕ} {b : AudioBuffer w α} (h : Ready N b) (m : ℕ → α) :
    Ready N (b.withCells m) :=
  ⟨h.channels, h.size, h.valid⟩

theorem Ready.setChannel {N : ℕ} {b : AudioBuffer w α} (h : Ready N b) (x : ℕ → α)
    (length channel offset : ℕ) : Ready N (b.setChannel x length channel offset) := by
  obtain ⟨m, hm⟩ := b.exists_setChannel_eq_withCells x length channel offset
  rw [hm]
  exact h.withCells m

theorem Ready.sample_setChannel {N : ℕ} {b : AudioBuffer w α} (h : Ready N b) (x : ℕ → α)
    {i : ℕ} (hi : i < N) : (b.setChannel x N 0 0).sample 0 i = x i := by
  have hchannel : 0 < b.mChannels := h.channels ▸ Nat.one_pos
  have hsize := h.size
  rw [AudioBuffer.sample_setChannel hchannel (by omega) hchannel (by omega),
    if_pos ⟨rfl, Nat.zero_le _, by omega⟩, Nat.sub_zero]

/-- A new transform is ready for blocks of whole chunks. -/
theorem construct_ready [Zero α] {B : BufferType} {size : Fin (2 ^ B.sizeBits)}
    (hchunk : chunk B ∣ size) : Ready size (construct (α := α) B size true).mBuffer where
  channels := construct_mBuffer_mChannels true
  size := by rw [construct_mBuffer_size, if_pos rfl, (wrap_roundUp_eq_iff size.isLt).mpr hchunk]
  valid := by
    have hone : (1 : ℕ) ≠ (AudioBuffer.initial : AudioBuffer B.sizeBits α).mChannels := nofun
    rw [construct, AudioBuffer.resizeLength, AudioBuffer.resize, if_neg fun h => hone h.1]
    rfl

/-- Putting all of the working buffer. -/
theorem Ready.put {N : ℕ} {b : AudioBuffer w α} (h : Ready N b) (y : ℕ → α) :
    b.put id y N 0 0 =
      some (N, modifyEach N (fun i => i) (fun i _ => b.sample 0 i) y) := by
  have hframes : b.framesPut N 0 = N := by
    rw [AudioBuffer.framesPut, h.valid, ite_id, Nat.sub_zero, Nat.min_self]
  have hput : b.put id y N 0 0 = some (b.framesPut N 0, modifyEach (b.framesPut N 0)
      (fun i => i) (fun i _ => id (b.sample 0 (0 + i))) y) :=
    AudioBuffer.put_of_le (h.channels ▸ Nat.one_pos) (Nat.zero_le _)
      (by rw [hframes, h.size]; omega) y
  rw [hput, hframes]
  simp only [id, Nat.zero_add]

/-- `rdft` of the samples of the buffer. -/
theorem Ready.sample_transform [Ring α] {rdft : Rdft α} {N : ℕ} {b : AudioBuffer w α}
    (h : Ready N b) (isgn : ℤ) {i : ℕ} (hi : i < N) :
    (transform rdft isgn b).sample 0 i = rdft N isgn (fun j => b.sample 0 j) ⟨i, hi⟩ := by
  obtain rfl := h.size
  rw [transform, h.sample_setChannel _ hi, dif_pos hi]

theorem Ready.transform [Ring α] (rdft : Rdft α) {N : ℕ} {b : AudioBuffer w α} (h : Ready N b)
    (isgn : ℤ) : Ready N (transform rdft isgn b) :=
  h.setChannel _ _ _ _

/-- The bins of all blocks have a place of their own. -/
theorem bins_apart {output : AudioBuffer w α} {H k : ℕ} (hchannels : output.mChannels = 2)
    (hroom : k * (H + 1) ≤ output.size) {c d b b' t t' : ℕ} (hc : c < 2) (hd : d < 2)
    (hb : b < k) (hb' : b' < k) (ht : t ≤ H) (ht' : t' ≤ H)
    (h : output.get c + (b * (H + 1) + t) = output.get d + (b' * (H + 1) + t')) :
    c = d ∧ b = b' ∧ t = t' := by
  have hinside : ∀ b < k, ∀ t ≤ H, b * (H + 1) + t < output.size := by
    intro b hb t ht
    have hrow : (b + 1) * (H + 1) ≤ k * (H + 1) := Nat.mul_le_mul_right _ hb
    rw [Nat.succ_mul] at hrow
    omega
  obtain ⟨hcd, hcell⟩ := AudioBuffer.get_add_injective (hchannels ▸ hc) (hchannels ▸ hd)
    (hinside b hb t ht) (hinside b' hb' t' ht') h
  exact ⟨hcd, stride_injective (Nat.lt_succ_of_le ht) (Nat.lt_succ_of_le ht') hcell⟩

/-- The number of bins of `k` blocks. -/
theorem wrap_resultSize {H k : ℕ} (hpos : 0 < H) (hfit : k * (H + 1) < 2 ^ w) :
    wrap w ((H * 2 / 2 + 1) * (k * (H * 2) / (H * 2))) = k * (H + 1) := by
  rw [Nat.mul_div_cancel _ Nat.two_pos, Nat.mul_div_cancel _ (by omega), Nat.mul_comm (H + 1),
    wrap_of_lt hfit]

theorem resultSize_eq {f : FFTOoura w α} {H k : ℕ} (hpos : 0 < H)
    (hready : Ready (H * 2) f.mBuffer) (hfit : k * (H + 1) < 2 ^ w) :
    f.resultSize (k * (H * 2)) = some (k * (H + 1)) := by
  rw [resultSize, hready.size]
  exact (if_neg (by omega)).trans (congrArg some (wrap_resultSize hpos hfit))

/-! ### `forward` -/

section Forward

variable [Ring α] {rdft : Rdft α} {input output : AudioBuffer w α} {H : ℕ}

/-- The block of the input at `p`. -/
def block (input : AudioBuffer w α) (p i : ℕ) : α := input.sample 0 (p + i)

/-- **An iteration of `forward`** writes the bins of its block.  It writes `H + 1` cells of each
channel and moves both pointers on by as many; the working buffer is overwritten and may be used
again. -/
theorem forwardBlock_spec (rdft : Rdft α) (input : AudioBuffer w α) (hpos : 0 < H)
    {s : ForwardState w α} (hready : Ready (H * 2) s.mBuffer)
    (hapart : ∀ t ≤ H, ∀ u ≤ H, s.real + t ≠ s.imaginary + u) (p : ℕ) :
    ∃ s', forwardBlock rdft input p s = some s' ∧
      s'.real = s.real + (H + 1) ∧ s'.imaginary = s.imaginary + (H + 1) ∧
      Ready (H * 2) s'.mBuffer ∧
      BlockWritten H (spectrum rdft (H * 2) (block input p)) s.real s.imaginary s.output
        s'.output := by
  have hfilled := hready.setChannel (fun i => input.cell (input.get 0 + p + i)) (H * 2) 0 0
  have hhalf : H * 2 / 2 = H := Nat.mul_div_cancel _ Nat.two_pos
  have hspectrum : ∀ i < H * 2, (transform rdft 1 (s.mBuffer.setChannel
      (fun i => input.cell (input.get 0 + p + i)) (H * 2) 0 0)).sample 0 i =
      spectrum rdft (H * 2) (block input p) i := by
    intro i hi
    rw [hfilled.sample_transform 1 hi, spectrum, dif_pos hi]
    congr 1
    funext j
    rw [hready.sample_setChannel _ j.isLt, block, AudioBuffer.sample, Nat.add_assoc]
  obtain ⟨m, hloop, hm⟩ := deinterleave_spec (H := H) (m := s.output)
    (b := (transform rdft 1 (s.mBuffer.setChannel
      (fun i => input.cell (input.get 0 + p + i)) (H * 2) 0 0)).sample 0)
    fun t ht u hu => hapart t ht.le u hu.le
  have hm' : Deinterleaved (spectrum rdft (H * 2) (block input p)) s.real s.imaginary s.output
      H m := by
    refine ⟨fun t ht => ?_, fun t ht => ?_, hm.kept⟩
    · rw [hm.reals t ht, hspectrum _ (by omega)]
    · rw [hm.imaginaries t ht, hspectrum _ (by omega)]
  rw [forwardBlock, hready.size, hhalf, hloop]
  exact ⟨_, rfl, rfl, rfl, hfilled.transform rdft 1, hm'.blockWritten hpos hapart⟩

/-- The bins of the first `j` blocks have been written.  Both pointers are behind them, and the
working buffer is ready for the next block. -/
structure Forwarded (rdft : Rdft α) (H : ℕ) (input output : AudioBuffer w α) (j : ℕ)
    (s : ForwardState w α) : Prop where
  real : s.real = output.get 0 + j * (H + 1)
  imaginary : s.imaginary = output.get 1 + j * (H + 1)
  ready : Ready (H * 2) s.mBuffer
  reals : ∀ b < j, ∀ t ≤ H, s.output (output.get 0 + (b * (H + 1) + t)) =
    realBin H (spectrum rdft (H * 2) (block input (b * (H * 2)))) t
  imaginaries : ∀ b < j, ∀ t ≤ H, s.output (output.get 1 + (b * (H + 1) + t)) =
    imaginaryBin H (spectrum rdft (H * 2) (block input (b * (H * 2)))) t

/-- **One block does not overwrite another.**  The bins of the blocks before are in other cells, as
long as there is room for all blocks in the output. -/
theorem Forwarded.step (hpos : 0 < H) {j k : ℕ} (hchannels : output.mChannels = 2)
    (hroom : k * (H + 1) ≤ output.size) (hj : j < k) {s : ForwardState w α}
    (hs : Forwarded rdft H input output j s) :
    ∃ s', forwardBlock rdft input (j * (H * 2)) s = some s' ∧
      Forwarded rdft H input output (j + 1) s' := by
  have hapart : ∀ t ≤ H, ∀ u ≤ H, s.real + t ≠ s.imaginary + u := by
    intro t ht u hu heq
    rw [hs.real, hs.imaginary, Nat.add_assoc, Nat.add_assoc] at heq
    exact absurd (bins_apart hchannels hroom Nat.two_pos Nat.one_lt_two hj hj ht hu heq).1
      Nat.zero_ne_one
  obtain ⟨s', hcall, hreal, himaginary, hready, hwritten⟩ :=
    forwardBlock_spec rdft input hpos hs.ready hapart (j * (H * 2))
  have hkept : ∀ c < 2, ∀ b < j, ∀ t ≤ H, s'.output (output.get c + (b * (H + 1) + t)) =
      s.output (output.get c + (b * (H + 1) + t)) := by
    intro c hc b hb t ht
    refine hwritten.kept _ fun u hu => ⟨fun heq => ?_, fun heq => ?_⟩
    · rw [hs.real, Nat.add_assoc] at heq
      have := bins_apart hchannels hroom hc Nat.two_pos (hb.trans hj) hj ht hu heq
      omega
    · rw [hs.imaginary, Nat.add_assoc] at heq
      have := bins_apart hchannels hroom hc Nat.one_lt_two (hb.trans hj) hj ht hu heq
      omega
  refine ⟨s', hcall, ?_, ?_, hready, fun b hb t ht => ?_, fun b hb t ht => ?_⟩
  · rw [hreal, hs.real, Nat.add_assoc, Nat.succ_mul]
  · rw [himaginary, hs.imaginary, Nat.add_assoc, Nat.succ_mul]
  · rcases Nat.lt_succ_iff_lt_or_eq.mp hb with hlt | rfl
    · rw [hkept 0 Nat.two_pos b hlt t ht, hs.reals b hlt t ht]
    · rw [← Nat.add_assoc, ← hs.real, hwritten.reals t ht]
  · rcases Nat.lt_succ_iff_lt_or_eq.mp hb with hlt | rfl
    · rw [hkept 1 Nat.one_lt_two b hlt t ht, hs.imaginaries b hlt t ht]
    · rw [← Nat.add_assoc, ← hs.imaginary, hwritten.imaginaries t ht]

/-- What `forward` leaves in the output for `k` blocks.  All bins of all blocks, one block behind
the other in either channel, and their number is the number of valid frames. -/
structure Transformed (rdft : Rdft α) (H k : ℕ) (input result : AudioBuffer w α) : Prop where
  channels : result.mChannels = 2
  valid : result.mValidSize = k * (H + 1)
  room : k * (H + 1) ≤ result.size
  reals : ∀ b < k, ∀ t ≤ H, result.sample 0 (b * (H + 1) + t) =
    realBin H (spectrum rdft (H * 2) (block input (b * (H * 2)))) t
  imaginaries : ∀ b < k, ∀ t ≤ H, result.sample 1 (b * (H + 1) + t) =
    imaginaryBin H (spectrum rdft (H * 2) (block input (b * (H * 2)))) t

/-- **`forward`** transforms the input block by block.  The input has whole blocks only, and the
output two channels; all bins of all blocks are in their places afterwards. -/
theorem forward_spec (hpos : 0 < H) {f : FFTOoura w α} (hready : Ready (H * 2) f.mBuffer) {k : ℕ}
    (hvalid : input.mValidSize = k * (H * 2)) (hchannels : output.mChannels = 2)
    (hroom : k * (H + 1) ≤ output.size) :
    ∃ g result, f.forward rdft input output = some (g, result) ∧ Ready (H * 2) g.mBuffer ∧
      Transformed rdft H k input result := by
  have hstep : 0 < H * 2 := Nat.mul_pos hpos Nat.two_pos
  have hbins := wrap_resultSize hpos (hroom.trans_lt output.size_lt)
  have hstart : Forwarded rdft H input output 0
      ⟨output.get 0, output.get 1, f.mBuffer, output.cell⟩ :=
    ⟨by rw [Nat.zero_mul, Nat.add_zero], by rw [Nat.zero_mul, Nat.add_zero], hready, nofun, nofun⟩
  obtain ⟨s, hloop, hs⟩ := pointerLoop_of_start hstep rfl (Forwarded rdft H input output)
    (fun j hj s hs => hs.step hpos hchannels hroom hj) (Nat.le_mul_of_pos_right k hstep) hstart
  refine ⟨{ f with mBuffer := s.mBuffer },
    (output.withCells s.output).setValidSize (k * (H + 1)), ?_, hs.ready, ?_⟩
  · rw [forward, hready.size, hvalid, hloop, hbins]
    exact if_neg (by omega)
  · exact ⟨hchannels, Nat.min_eq_right hroom, hroom, hs.reals, hs.imaginaries⟩

end Forward

/-! ### `back` -/

section Interleave

variable [DivisionRing α]

/-- `j` pairs of samples have been put together.  It is the inverse of `Deinterleaved`, one pair
after the other. -/
structure Interleaved (bins : ℕ → α) (real imaginary start j : ℕ) (m : ℕ → α) : Prop where
  evens : ∀ t < j, m (start + 2 * t) = bins (real + t)
  odds : ∀ t < j, m (start + (2 * t + 1)) = -bins (imaginary + t)

theorem Interleaved.step {bins m : ℕ → α} {real imaginary start j : ℕ}
    (h : Interleaved bins real imaginary start j m) :
    Interleaved bins real imaginary start (j + 1)
      (Function.update (Function.update m (start + j * 2) (bins (real + j)))
        (start + (j * 2 + 1)) (-bins (imaginary + j))) where
  evens := by
    intro t ht
    rw [Function.update_of_ne (by omega)]
    rcases Nat.lt_succ_iff_lt_or_eq.mp ht with hlt | rfl
    · rw [Function.update_of_ne (by omega), h.evens t hlt]
    · rw [Nat.mul_comm, Function.update_self]
  odds := by
    intro t ht
    rcases Nat.lt_succ_iff_lt_or_eq.mp ht with hlt | rfl
    · rw [Function.update_of_ne (by omega), Function.update_of_ne (by omega), h.odds t hlt]
    · rw [Nat.mul_comm, Function.update_self]

/-- The loop ends when all pairs are put together. -/
theorem interleave_spec (H : ℕ) (bins : ℕ → α) (real imaginary start : ℕ) (m : ℕ → α) :
    ∃ m', interleave (H * 2) bins real imaginary start m = some m' ∧
      Interleaved bins real imaginary start H m' := by
  exact pairLoop_spec (fun _ _ _ _ => rfl) (Interleaved bins real imaginary start)
    ⟨nofun, nofun⟩ fun j _ m' hdone => hdone.step

/-- **Packing** the bins gives the array they were taken from.  The last real bin is stored where
the imaginary part of the first one would be, because that one is zero. -/
theorem Interleaved.packed {bins m a : ℕ → α} {H real imaginary start : ℕ}
    (h : Interleaved bins real imaginary start H m)
    (hreals : ∀ t ≤ H, bins (real + t) = realBin H a t)
    (himaginaries : ∀ t ≤ H, bins (imaginary + t) = imaginaryBin H a t) {i : ℕ}
    (hi : i < H * 2) :
    Function.update m (start + 1) (bins (real + H)) (start + i) = a i := by
  by_cases hone : i = 1
  · -- the place of the last bin
    rw [hone, Function.update_self, hreals H le_rfl, realBin, if_pos rfl]
  · rw [Function.update_of_ne (by omega)]
    obtain ⟨t, rfl | rfl⟩ := Nat.even_or_odd' i
    · rw [h.evens t (by omega), hreals t (by omega), realBin, if_neg (by omega)]
    · rw [h.odds t (by omega), himaginaries t (by omega), imaginaryBin, if_neg (by omega),
        neg_neg]

end Interleave

section Back

variable [Field α] {rdft : Rdft α} {input output : AudioBuffer w α} {H : ℕ}
  {build : Build} {dst : ℕ}

/-- The transform back undoes the transform, up to a factor.  The factor is the one of the transform
that is used, half the length, by which the class divides. -/
def Inverts (rdft : Rdft α) (N : ℕ) : Prop :=
  ∀ a : Fin N → α, rdft N (-1) (rdft N 1 a) = fun i => (N : α) / (2 : ℕ) * a i

theorem Ready.multiplyValue {N : ℕ} {b : AudioBuffer w α} (h : Ready N b)
    (hdst : AudioBuffer.StartsAligned build dst) (v : α) :
    ∃ b', b.multiplyValue build dst v = some b' ∧ Ready N b' ∧
      ∀ i < N, b'.sample 0 i = b.sample 0 i * v := by
  have hruns : AudioBuffer.ValueRuns build b dst := by
    cases build with
    | scalar => exact trivial
    | simd stride =>
        intro _ c hc
        obtain rfl : c = 0 := by
          have := h.channels
          omega
        rw [AudioBuffer.get_eq hc, Nat.zero_mul]
        exact hdst
  refine ⟨b.mixedValue (· * ·) v, AudioBuffer.mixValue_eq_some_iff.mpr ⟨hruns, rfl⟩,
    h.withCells _, fun i hi => ?_⟩
  have hchannel : 0 < b.mChannels := h.channels ▸ Nat.one_pos
  have hsize := h.size
  have hvalid := h.valid
  rw [AudioBuffer.mixedValue, AudioBuffer.sample_modifyGrid (by omega) hchannel (by omega),
    if_pos (by omega)]

/-- **An iteration of `back`** writes the samples that the bins of its block were made from. -/
theorem backBlock_spec [CharZero α] (hpos : 0 < H) (hinverts : Inverts rdft (H * 2))
    (hdst : AudioBuffer.StartsAligned build dst) {s : BackState w α}
    (hready : Ready (H * 2) s.mBuffer) {x : ℕ → α} {p : ℕ}
    (hreals : ∀ t ≤ H, input.cell (input.get 0 + p + t) = realBin H (spectrum rdft (H * 2) x) t)
    (himaginaries : ∀ t ≤ H, input.cell (s.imaginary + t) =
      imaginaryBin H (spectrum rdft (H * 2) x) t) :
    ∃ s', backBlock rdft build dst input p s = some s' ∧
      s'.imaginary = s.imaginary + (H + 1) ∧ s'.out = s.out + H * 2 ∧
      Ready (H * 2) s'.mBuffer ∧ (∀ i < H * 2, s'.output (s.out + i) = x i) ∧
      ∀ a, (∀ i < H * 2, a ≠ s.out + i) → s'.output a = s.output a := by
  have hhalf : H * 2 / 2 = H := Nat.mul_div_cancel _ Nat.two_pos
  obtain ⟨m, hloop, hm⟩ := interleave_spec H input.cell (input.get 0 + p) s.imaginary
    (s.mBuffer.get 0) s.mBuffer.cell
  obtain ⟨packed, hpacked⟩ : ∃ b, b = s.mBuffer.withCells (Function.update m
    (s.mBuffer.get 0 + 1) (input.cell (input.get 0 + p + H))) := ⟨_, rfl⟩
  have hreadyPacked : Ready (H * 2) packed := hpacked ▸ hready.withCells _
  -- `rdft` gets the array that it made of the samples
  have hsame : (fun j : Fin (H * 2) => packed.sample 0 j) =
      rdft (H * 2) 1 fun j => x j := by
    funext j
    rw [hpacked]
    refine (hm.packed hreals himaginaries j.isLt).trans ?_
    rw [spectrum, dif_pos j.isLt]
  have hback : ∀ i < H * 2, (FFTOoura.transform rdft (-1) packed).sample 0 i =
      ((H * 2 : ℕ) : α) / (2 : ℕ) * x i := by
    intro i hi
    rw [hreadyPacked.sample_transform (-1) hi, hsame, hinverts]
  obtain ⟨scaled, hscale, hreadyScaled, hscaled⟩ := (hreadyPacked.transform rdft
    (-1)).multiplyValue hdst ((2 : ℕ) / ((H * 2 : ℕ) : α))
  have hresult : ∀ i < H * 2, scaled.sample 0 i = x i := by
    intro i hi
    have hne : ((H * 2 : ℕ) : α) ≠ 0 := Nat.cast_ne_zero.mpr (by omega)
    have htwo : ((2 : ℕ) : α) ≠ 0 := Nat.cast_ne_zero.mpr two_ne_zero
    rw [hscaled i hi, hback i hi]
    field_simp
  rw [backBlock, hready.size, hhalf, hloop, Option.bind_some]
  dsimp only
  rw [← hpacked, hscale, Option.bind_some, hreadyScaled.size, hreadyScaled.put, Option.map_some]
  refine ⟨_, rfl, rfl, rfl, hreadyScaled, fun i hi => ?_, fun a ha => ?_⟩ <;> dsimp only
  · rw [if_pos (Nat.le_add_right _ _), Nat.add_sub_cancel_left,
      modifyEach_addr (fun _ _ _ _ h => h) hi, hresult i hi]
  · split
    · rename_i hle
      rw [modifyEach_of_ne fun i hi heq => ha i hi (by omega), Nat.add_sub_cancel' hle]
    · rfl

/-- The samples of the first `j` blocks have been written, and nothing else.  Both pointers are
behind them; the kept cells are the frame of the whole loop. -/
structure Restored (H : ℕ) (x : ℕ → α) (input output : AudioBuffer w α) (j : ℕ)
    (s : BackState w α) : Prop where
  imaginary : s.imaginary = input.get 1 + j * (H + 1)
  out : s.out = output.get 0 + j * (H * 2)
  ready : Ready (H * 2) s.mBuffer
  samples : ∀ i < j * (H * 2), s.output (output.get 0 + i) = x i
  kept : ∀ a, (∀ i < j * (H * 2), a ≠ output.get 0 + i) → s.output a = output.cell a

/-- **One block after the other.**  The samples of the blocks before are kept, and nothing but the
cells of this block is written. -/
theorem Restored.step [CharZero α] (hpos : 0 < H) (hinverts : Inverts rdft (H * 2))
    (hdst : AudioBuffer.StartsAligned build dst) {samples spectra : AudioBuffer w α} {j k : ℕ}
    (hbins : Transformed rdft H k samples spectra) (hj : j < k) {s : BackState w α}
    (hs : Restored H (samples.sample 0) spectra output j s) :
    ∃ s', backBlock rdft build dst spectra (j * (H + 1)) s = some s' ∧
      Restored H (samples.sample 0) spectra output (j + 1) s' := by
  obtain ⟨s', hcall, himaginary, hout, hready, hwritten, hkept⟩ :=
    backBlock_spec hpos hinverts hdst hs.ready (x := block samples (j * (H * 2)))
      (p := j * (H + 1)) (fun t ht => by
        rw [← hbins.reals j hj t ht, AudioBuffer.sample, Nat.add_assoc])
      (fun t ht => by
        rw [← hbins.imaginaries j hj t ht, hs.imaginary, AudioBuffer.sample, Nat.add_assoc])
  refine ⟨s', hcall, ?_, ?_, hready, fun i hi => ?_, fun a ha => ?_⟩
  · rw [himaginary, hs.imaginary, Nat.add_assoc, Nat.succ_mul]
  · rw [hout, hs.out, Nat.add_assoc, Nat.succ_mul]
  · rw [Nat.succ_mul] at hi
    rcases Nat.lt_or_ge i (j * (H * 2)) with hlt | hge
    · rw [hkept _ fun t ht heq => ?_, hs.samples i hlt]
      rw [hs.out] at heq
      omega
    · obtain ⟨t, rfl⟩ := Nat.exists_eq_add_of_le hge
      rw [← Nat.add_assoc, ← hs.out, hwritten t (by omega), block]
  · rw [hkept a fun t ht heq => ?_, hs.kept a fun i hi => ha i ?_]
    · rw [Nat.succ_mul]
      omega
    · rw [hs.out, Nat.add_assoc] at heq
      refine ha _ ?_ heq
      rw [Nat.succ_mul]
      omega

/-- **`back`** writes the samples that the bins were made from.  All of them come back, and no cell
of the output behind the samples of the last block is written. -/
theorem back_spec [CharZero α] (hpos : 0 < H) (hinverts : Inverts rdft (H * 2))
    (hdst : AudioBuffer.StartsAligned build dst) {f : FFTOoura w α}
    (hready : Ready (H * 2) f.mBuffer) {samples spectra : AudioBuffer w α} {k : ℕ}
    (hbins : Transformed rdft H k samples spectra) :
    ∃ g restored, f.back rdft build dst spectra output = some (g, restored) ∧
      Ready (H * 2) g.mBuffer ∧
      (∀ i < k * (H * 2), restored.sample 0 i = samples.sample 0 i) ∧
      ∀ a, (∀ i < k * (H * 2), a ≠ output.get 0 + i) → restored.cell a = output.cell a := by
  have hstep : 0 < H + 1 := H.succ_pos
  have hhalf : H * 2 / 2 = H := Nat.mul_div_cancel _ Nat.two_pos
  have hstart : Restored H (samples.sample 0) spectra output 0
      ⟨spectra.get 1, output.get 0, f.mBuffer, output.cell⟩ :=
    ⟨by rw [Nat.zero_mul, Nat.add_zero], by rw [Nat.zero_mul, Nat.add_zero], hready,
      fun i hi => absurd hi (by omega), fun _ _ => rfl⟩
  obtain ⟨s, hloop, hs⟩ := pointerLoop_of_start hstep rfl
    (Restored H (samples.sample 0) spectra output)
    (fun j hj s hs => hs.step hpos hinverts hdst hbins hj) (Nat.le_mul_of_pos_right k hstep)
    hstart
  refine ⟨{ f with mBuffer := s.mBuffer }, output.withCells s.output, ?_, hs.ready, hs.samples,
    hs.kept⟩
  rw [back, hready.size, hhalf, hbins.valid, hloop]
  rfl

/-- `forward` has made `spectra` of the samples, and `back` has made the samples of them: the
bins of every block are there, the value of the first and the last bin among them, and the
output holds the samples and has not been written outside of them. -/
structure RoundTrip (rdft : Rdft α) (N k : ℕ) (samples spectra output restored : AudioBuffer w α) :
    Prop where
  bins : Transformed rdft (N / 2) k samples spectra
  dc : ∀ b < k, spectra.sample 0 (b * (N / 2 + 1)) =
    spectrum rdft N (block samples (b * N)) 0
  nyquist : ∀ b < k, spectra.sample 0 (b * (N / 2 + 1) + N / 2) =
    spectrum rdft N (block samples (b * N)) 1
  recovered : ∀ i < k * N, restored.sample 0 i = samples.sample 0 i
  inside : ∀ i < k * N, output.get 0 + i < output.mBufferSize
  kept : ∀ a, (∀ i < k * N, a ≠ output.get 0 + i) → restored.cell a = output.cell a

/-- **There and back.**  For every even length that is a whole number of chunks, every number of
blocks and every input, `forward` and `back` return the input. -/
theorem back_forward [CharZero α] {B : BufferType} {N : Fin (2 ^ B.sizeBits)}
    (hN : 2 ≤ (N : ℕ)) (heven : 2 ∣ (N : ℕ)) (hchunk : chunk B ∣ N) (hinverts : Inverts rdft N)
    (hdst : AudioBuffer.StartsAligned build dst) {k : ℕ}
    {samples bins output : AudioBuffer B.sizeBits α} (hvalid : samples.mValidSize = k * N)
    (hchannels : bins.mChannels = 2) (hbins : k * (N / 2 + 1) ≤ bins.size)
    (hmono : 0 < output.mChannels) (houtput : k * N ≤ output.size) :
    let f : FFTOoura B.sizeBits α := construct B N true
    f.resultSize (k * N) = some (k * (N / 2 + 1)) ∧
      ∃ g spectra h restored, f.forward rdft samples bins = some (g, spectra) ∧
        g.back rdft build dst spectra output = some (h, restored) ∧
        RoundTrip rdft N k samples spectra output restored := by
  intro f
  obtain ⟨H, hH⟩ : ∃ H, (N : ℕ) = H * 2 := ⟨N / 2, (Nat.div_mul_cancel heven).symm⟩
  have hready : Ready (N : ℕ) f.mBuffer := construct_ready hchunk
  have hhalf : H * 2 / 2 = H := Nat.mul_div_cancel _ Nat.two_pos
  rw [hH] at hN hvalid hbins houtput hinverts hready ⊢
  rw [hhalf] at hbins ⊢
  have hpos : 0 < H := by omega
  obtain ⟨g, spectra, hforward, hready', htransformed⟩ :=
    forward_spec hpos hready hvalid hchannels hbins
  obtain ⟨h, restored, hback, -, hsamples, hkept⟩ :=
    back_spec hpos hinverts hdst hready' htransformed
  refine ⟨resultSize_eq hpos hready (hbins.trans_lt bins.size_lt), g, spectra, h, restored,
    hforward, hback, ?_⟩
  refine ⟨by rwa [hhalf], fun b hb => ?_, fun b hb => ?_, hsamples, fun i hi => ?_, hkept⟩
  · have hdc := htransformed.reals b hb 0 hpos.le
    rw [realBin, if_neg hpos.ne, Nat.add_zero, Nat.mul_zero] at hdc
    rwa [hhalf]
  · have hnyquist := htransformed.reals b hb H le_rfl
    rw [realBin, if_pos rfl] at hnyquist
    rwa [hhalf]
  · exact AudioBuffer.get_add_lt hmono (hi.trans_le houtput)

/-- `rdft` of two numbers; with more of them it does more. -/
def rdftTwo : Rdft ℚ := fun n isgn a i =>
  if h : 1 < n then
    let a₀ := a ⟨0, by omega⟩
    let a₁ := a ⟨1, h⟩
    if (i : ℕ) = 0 then if 0 ≤ isgn then a₀ + a₁ else a₀ - 1 / 2 * (a₀ - a₁)
    else if (i : ℕ) = 1 then if 0 ≤ isgn then a₀ - a₁ else 1 / 2 * (a₀ - a₁)
    else a i
  else a i

/-- Two blocks of two `double`s. -/
theorem back_forward_two :
    let f : FFTOoura 32 ℚ := construct ⟨32, 64, 8, 16⟩ 2 true
    let samples : AudioBuffer 32 ℚ :=
      ⟨fun i => i + 1, 4, 4, 1, by decide, by decide, by decide, by decide⟩
    let bins : AudioBuffer 32 ℚ := ⟨0, 8, 0, 2, by decide, by decide, by decide, by decide⟩
    let output : AudioBuffer 32 ℚ := ⟨0, 4, 0, 1, by decide, by decide, by decide, by decide⟩
    f.resultSize 4 = some 4 ∧
      ∃ g spectra h restored, f.forward rdftTwo samples bins = some (g, spectra) ∧
        g.back rdftTwo .scalar 0 spectra output = some (h, restored) ∧
        RoundTrip rdftTwo 2 2 samples spectra output restored := by
  intro f samples bins output
  have hinverts : Inverts rdftTwo 2 := by
    intro a
    refine funext (Fin.forall_fin_two.mpr ⟨?_, ?_⟩)
    · simp [rdftTwo]
      ring
    · simp [rdftTwo]
      ring
  exact @back_forward ℚ _ rdftTwo .scalar 0 _ ⟨32, 64, 8, 16⟩ 2 le_rfl (dvd_refl 2) (by decide)
    hinverts trivial 2 samples bins output rfl rfl (by decide) (by decide) (by decide)

end Back

end FFTOoura

end Tklb
