import Tklb.Foundation.RealDft
import Tklb.FFTOoura.RoundTrip
import Tklb.Ooura.Reuse

/-!
# The transform of `FFTOoura` is the discrete Fourier transform

`forward` and `back` are about any `rdft`.  This is the one the class has, with the tables of its
constructor (`ooura`).  Its spectrum is the conjugate of the one that `forward` stores: `forward`
negates the imaginary parts, so the bins it writes are those of `realDft` (`bin_ooura`), and
`back` inverts it (`inverts_ooura`).

`uses` is any number of calls of `forward` and `back` of one object.

### What is load-bearing

* `inverts_ooura` and `bin_ooura` are the two facts about the routines of `Ooura` that the class
  rests on: they invert one another, and the bins are those of the mathematical transform.  The
  sign convention of the routines is the opposite one, and the negation in `forward` makes up
  for it.
* `exists_spectrum` says that any bins, as long as the first and the last are real, are those of
  some samples; so `back` may be called with bins that no `forward` has made, such as a product
  of spectra.
* `Accepted` is what the class asserts of the arguments, and that the first and last bin are
  real.
* `Answered` is about one call; `use_answered` also says that the tables are as they were, which
  is what makes `uses_answered` an induction over the calls.

Samples are real numbers here, and cosines and sines exact; nothing is claimed about rounding.
-/

namespace Tklb

open Foundation

namespace FFTOoura

/-- `rdft` with the tables of the constructor; `ip` and `w` are what `mIp` and `mW` held before. -/
def ooura {α : Type} [Field α] (trig : Trigonometry α) (ip : ℕ → ℕ) (w : ℕ → α) : Rdft α :=
  fun n isgn a i =>
    let t := Ooura.tables trig n ip w
    (Ooura.rdft n isgn (fun j => if h : j < n then a ⟨j, h⟩ else 0) t.1 t.2).2 i

section Exact

variable {p : ℕ} {ip : ℕ → ℕ} {w : ℕ → ℝ}

/-- What it does to the first samples of an array. -/
theorem ooura_eq (isgn : ℤ) (a : ℕ → ℝ) {i : ℕ} (hi : i < 2 ^ (p + 1)) :
    ooura Ooura.realTrig ip w (2 ^ (p + 1)) isgn (fun j => a j) ⟨i, hi⟩ =
      (Ooura.rdft (2 ^ (p + 1)) isgn a (Ooura.tables Ooura.realTrig (2 ^ (p + 1)) ip w).1
        (Ooura.tables Ooura.realTrig (2 ^ (p + 1)) ip w).2).2 i := by
  have hprep := Ooura.prepared_tables ip w p
  have hsame : ∀ j < 2 ^ (p + 1), (if h : j < 2 ^ (p + 1) then
      (fun j : Fin (2 ^ (p + 1)) => a j) ⟨j, h⟩ else 0) = a j := fun j hj => dif_pos hj
  exact Ooura.rdft_congr hprep hprep isgn hsame hi

/-- **The transform back** undoes the transform.  The assumption that `FFTOoura.RoundTrip` makes on
`rdft` is thus met by the transform that is used, for every size. -/
theorem inverts_ooura : Inverts (ooura Ooura.realTrig ip w) (2 ^ (p + 1)) := by
  intro a
  have hprep := Ooura.prepared_tables ip w p
  funext i
  obtain ⟨x, rfl⟩ : ∃ x : ℕ → ℝ, a = fun j : Fin (2 ^ (p + 1)) => x j :=
    ⟨fun j => if h : j < 2 ^ (p + 1) then a ⟨j, h⟩ else 0, by
      funext j
      show a j = dite _ _ _
      rw [dif_pos j.isLt]⟩
  have hforward : ooura Ooura.realTrig ip w (2 ^ (p + 1)) 1 (fun j : Fin (2 ^ (p + 1)) => x j) =
      fun j : Fin (2 ^ (p + 1)) => (Ooura.rdft (2 ^ (p + 1)) 1 x
        (Ooura.tables Ooura.realTrig (2 ^ (p + 1)) ip w).1
        (Ooura.tables Ooura.realTrig (2 ^ (p + 1)) ip w).2).2 j := by
    funext j
    exact ooura_eq 1 x j.isLt
  rw [hforward, ooura_eq (-1) (Ooura.rdft (2 ^ (p + 1)) 1 x
      (Ooura.tables Ooura.realTrig (2 ^ (p + 1)) ip w).1
      (Ooura.tables Ooura.realTrig (2 ^ (p + 1)) ip w).2).2 i.isLt,
    Ooura.backward_forward hprep hprep Int.one_nonneg (by decide) x i.isLt]
  congr 1
  push_cast
  exact (mul_div_cancel_right₀ _ two_ne_zero).symm

/-! ### The bins -/

/-- The transform of the source goes the other way round. -/
theorem conj_realSpectrum (x : ℕ → ℝ) (k : ℕ) :
    starRingEnd ℂ (Ooura.realSpectrum p x k) = realDft (2 ^ (p + 1)) x k := by
  rw [Ooura.realSpectrum, dftSum, map_sum, realDft]
  refine Finset.sum_congr rfl fun n _ => ?_
  rw [map_mul, Complex.conj_ofReal, map_pow, Ooura.conj_root, inv_pow, Ooura.root_eq,
    ← Complex.exp_nat_mul, ← Complex.exp_neg]
  congr 2
  push_cast
  ring

/-- What `ooura` leaves is packed. -/
theorem packed_spectrum (p : ℕ) (ip : ℕ → ℕ) (w x : ℕ → ℝ) : ∃ b, Ooura.Packed p x b ∧
    ∀ i < 2 ^ (p + 1), spectrum (ooura Ooura.realTrig ip w) (2 ^ (p + 1)) x i = b i := by
  have hprep := Ooura.prepared_tables ip w p
  refine ⟨_, (Ooura.rdft_forward hprep Int.one_nonneg x).2, fun i hi => ?_⟩
  rw [spectrum, dif_pos hi, ooura_eq 1 x hi]

/-- **The bins of `forward`** are those of the discrete Fourier transform.  With the packed array
taken apart as `forward` does, real and imaginary part of each bin up to the middle are those of the
transform in `Foundation.RealDft`. -/
theorem bin_ooura (ip : ℕ → ℕ) (w x : ℕ → ℝ) {k : ℕ} (hk : k ≤ 2 ^ p) :
    (⟨realBin (2 ^ p) (spectrum (ooura Ooura.realTrig ip w) (2 ^ (p + 1)) x) k,
      imaginaryBin (2 ^ p) (spectrum (ooura Ooura.realTrig ip w) (2 ^ (p + 1)) x) k⟩ : ℂ) =
      realDft (2 ^ (p + 1)) x k := by
  obtain ⟨b, hpacked, hsame⟩ := packed_spectrum p ip w x
  have hpos := Nat.two_pow_pos p
  have hwhole : 2 ^ (p + 1) = 2 * 2 ^ p := Nat.pow_succ'
  rw [← conj_realSpectrum]
  rcases Nat.eq_zero_or_pos k with rfl | hfirst
  · rw [← hpacked.first, realBin, imaginaryBin, if_neg hpos.ne, if_pos (Or.inl rfl),
      hsame _ (by omega), Complex.conj_ofReal]
    rfl
  · rcases hk.lt_or_eq with hlt | rfl
    · rw [← hpacked.bins k hfirst hlt, realBin, imaginaryBin, if_neg hlt.ne, if_neg (by omega),
        hsame _ (by omega), hsame _ (by omega)]
      rfl
    · rw [← hpacked.last, realBin, imaginaryBin, if_pos rfl, if_pos (Or.inr rfl),
        hsame _ (by omega), Complex.conj_ofReal]
      rfl

/-! ### `back` of any spectrum -/

/-- **Every array is a spectrum.**  So bins that were changed, or made up, can be transformed back
as well, as long as the first and the last one are real. -/
theorem exists_spectrum (a : ℕ → ℝ) : ∃ x : ℕ → ℝ, ∀ i < 2 ^ (p + 1),
    spectrum (ooura Ooura.realTrig ip w) (2 ^ (p + 1)) x i = a i := by
  have hprep := Ooura.prepared_tables ip w p
  have hne : ((2 ^ p : ℕ) : ℝ) ≠ 0 := Nat.cast_ne_zero.mpr (Nat.two_pow_pos p).ne'
  refine ⟨(Ooura.rdft (2 ^ (p + 1)) (-1) (fun j => a j / (2 ^ p : ℕ))
    (Ooura.tables Ooura.realTrig (2 ^ (p + 1)) ip w).1
    (Ooura.tables Ooura.realTrig (2 ^ (p + 1)) ip w).2).2, fun i hi => ?_⟩
  rw [spectrum, dif_pos hi, ooura_eq 1 _ hi,
    Ooura.forward_backward hprep hprep Int.one_nonneg (by decide) _ hi, mul_div_cancel₀ _ hne]

/-- The array that `back` packs the bins of a block into. -/
def packBins {α : Type} [Neg α] (H : ℕ) (re im : ℕ → α) (i : ℕ) : α :=
  if i = 1 then re H else if i % 2 = 0 then re (i / 2) else -im (i / 2)

/-- The bins of a block depend on its array only. -/
theorem bins_congr {H : ℕ} (hpos : 0 < H) {a a' : ℕ → ℝ} (h : ∀ i < H * 2, a i = a' i) {t : ℕ}
    (ht : t ≤ H) : realBin H a t = realBin H a' t ∧ imaginaryBin H a t = imaginaryBin H a' t := by
  rw [realBin, realBin, imaginaryBin, imaginaryBin, h 1 (by omega)]
  by_cases hlast : t = H
  · rw [if_pos hlast, if_pos hlast, if_pos (Or.inr hlast), if_pos (Or.inr hlast)]
    exact ⟨rfl, rfl⟩
  · rw [if_neg hlast, if_neg hlast, h _ (by omega), h _ (by omega)]
    exact ⟨rfl, rfl⟩

theorem realBin_packBins {H : ℕ} (re im : ℕ → ℝ) {t : ℕ} (ht : t ≤ H) :
    realBin H (packBins H re im) t = re t := by
  rw [realBin]
  rcases ht.lt_or_eq with hlt | rfl
  · rw [if_neg hlt.ne, packBins, if_neg (by omega), if_pos (by omega),
      Nat.mul_div_cancel_left _ Nat.two_pos]
  · rw [if_pos rfl, packBins, if_pos rfl]

theorem imaginaryBin_packBins {H : ℕ} (re im : ℕ → ℝ) (hfirst : im 0 = 0) (hlast : im H = 0)
    (t : ℕ) : imaginaryBin H (packBins H re im) t = im t := by
  rw [imaginaryBin]
  by_cases hends : t = 0 ∨ t = H
  · rw [if_pos hends]
    rcases hends with rfl | rfl
    · exact hfirst.symm
    · exact hlast.symm
  · rw [if_neg hends, packBins, if_neg (by omega), if_neg (by omega),
      show (2 * t + 1) / 2 = t by omega, neg_neg]

/-- Every block of a spectrum is the spectrum of some samples, if its ends are real. -/
theorem exists_transformed (ip : ℕ → ℕ) (w : ℕ → ℝ) {v H k : ℕ} (hH : H * 2 = 2 ^ (p + 1))
    {spectra : AudioBuffer v ℝ}
    (hchannels : spectra.mChannels = 2) (hvalid : spectra.mValidSize = k * (H + 1))
    (hroom : k * (H + 1) ≤ spectra.size)
    (hreal : ∀ b < k, spectra.sample 1 (b * (H + 1)) = 0 ∧
      spectra.sample 1 (b * (H + 1) + H) = 0) :
    ∃ samples : AudioBuffer v ℝ,
      Transformed (ooura Ooura.realTrig ip w) H k samples spectra := by
  have hpos : 0 < H := by
    have := Nat.two_pow_pos (p + 1)
    omega
  have hblock : ∀ b, ∃ x : ℕ → ℝ, ∀ i < H * 2,
      spectrum (ooura Ooura.realTrig ip w) (H * 2) x i =
        packBins H (fun t => spectra.sample 0 (b * (H + 1) + t))
          (fun t => spectra.sample 1 (b * (H + 1) + t)) i := by
    intro b
    rw [hH]
    exact exists_spectrum _
  choose x hx using hblock
  obtain ⟨samples, hsamples⟩ : ∃ samples : AudioBuffer v ℝ,
      samples.sample 0 = fun i => x (i / (H * 2)) (i % (H * 2)) :=
    ⟨AudioBuffer.mono _ ⟨0, Nat.two_pow_pos v⟩, AudioBuffer.sample_mono _ _⟩
  have hspectrum : ∀ b, spectrum (ooura Ooura.realTrig ip w) (H * 2)
      (block samples (b * (H * 2))) = spectrum (ooura Ooura.realTrig ip w) (H * 2) (x b) := by
    intro b
    have hinput : (fun j : Fin (H * 2) => block samples (b * (H * 2)) j) =
        fun j : Fin (H * 2) => x b j := by
      funext j
      rw [block, hsamples]
      dsimp only
      rw [Nat.add_comm, Nat.add_mul_div_right _ _ (by omega),
        Nat.add_mul_mod_self_right, Nat.div_eq_of_lt j.isLt, Nat.mod_eq_of_lt j.isLt,
        Nat.zero_add]
    funext i
    rw [spectrum, spectrum, hinput]
  refine ⟨samples, hchannels, hvalid, hroom, fun b _ t ht => ?_, fun b hb t ht => ?_⟩
  · rw [hspectrum, (bins_congr hpos (hx b) ht).1, realBin_packBins _ _ ht]
  · rw [hspectrum, (bins_congr hpos (hx b) ht).2]
    exact (imaginaryBin_packBins _ (fun t => spectra.sample 1 (b * (H + 1) + t)) (hreal b hb).1
      (hreal b hb).2 t).symm

end Exact

/-! ### Runs of `forward` and `back` -/

/-- A call, with its input and its target. -/
inductive Use (v : ℕ) (α : Type) where
  | forward (input output : AudioBuffer v α)
  | back (input output : AudioBuffer v α)

/-- The transform and the target afterwards. -/
def use {v : ℕ} {α : Type} [Field α] (rdft : Rdft α) (build : Build) (dst : ℕ)
    (f : FFTOoura v α) : Use v α → Option (FFTOoura v α × AudioBuffer v α)
  | .forward input output => f.forward rdft input output
  | .back input output => f.back rdft build dst input output

/-- Consecutive calls: what each leaves in its target. -/
def uses {v : ℕ} {α : Type} [Field α] (rdft : Rdft α) (build : Build) (dst : ℕ) :
    FFTOoura v α → List (Use v α) → Option (List (AudioBuffer v α))
  | _, [] => some []
  | f, call :: calls => do
      let (f, result) ← f.use rdft build dst call
      let results ← uses rdft build dst f calls
      return result :: results

section Uses

variable {p : ℕ} {ip : ℕ → ℕ} {w : ℕ → ℝ} {v : ℕ}

/-- What `forward` and `back` assert of their arguments, and that the first and the last bin of
a block are real, for `back`. -/
def Accepted (H : ℕ) : Use v ℝ → Prop
  | .forward input output =>
      output.mChannels = 2 ∧ ∃ k, input.mValidSize = k * (H * 2) ∧ k * (H + 1) ≤ output.size
  | .back input output =>
      input.mChannels = 2 ∧ ∃ k, input.mValidSize = k * (H + 1) ∧ k * (H + 1) ≤ input.size ∧
        k * (H * 2) ≤ output.size ∧
        ∀ b < k, input.sample 1 (b * (H + 1)) = 0 ∧ input.sample 1 (b * (H + 1) + H) = 0

/-- The bins in `spectra` are the transform of the samples, block by block. -/
def IsSpectrumOf (H k : ℕ) (samples spectra : AudioBuffer v ℝ) : Prop :=
  ∀ b < k, ∀ t ≤ H,
    (⟨spectra.sample 0 (b * (H + 1) + t), spectra.sample 1 (b * (H + 1) + t)⟩ : ℂ) =
      realDft (H * 2) (block samples (b * (H * 2))) t

/-- What a call leaves in its target.  A call of `forward` has written the bins of its input, and a
call of `back` the samples of which its input has the bins. -/
def Answered (H : ℕ) : Use v ℝ → AudioBuffer v ℝ → Prop
  | .forward input _, result =>
      ∀ k, input.mValidSize = k * (H * 2) → result.mValidSize = k * (H + 1) ∧
        IsSpectrumOf H k input result
  | .back input output, result =>
      ∀ k, input.mValidSize = k * (H + 1) → IsSpectrumOf H k result input ∧
        ∀ a, (∀ i < k * (H * 2), a ≠ output.get 0 + i) → result.cell a = output.cell a

theorem Transformed.isSpectrumOf {H k : ℕ} (hH : H * 2 = 2 ^ (p + 1))
    {samples spectra : AudioBuffer v ℝ}
    (h : Transformed (ooura Ooura.realTrig ip w) H k samples spectra) :
    IsSpectrumOf H k samples spectra := by
  intro b hb t ht
  have hhalf : H = 2 ^ p := by
    rw [Nat.pow_succ] at hH
    omega
  rw [h.reals b hb t ht, h.imaginaries b hb t ht]
  have hbin := bin_ooura ip w (block samples (b * (H * 2)))
    (hhalf ▸ ht)
  rwa [← hH, ← hhalf] at hbin

/-- **One call** is answered, and leaves the transform ready for the next. -/
theorem use_answered (ip : ℕ → ℕ) (w : ℕ → ℝ) {H : ℕ} (hH : H * 2 = 2 ^ (p + 1))
    {build : Build} {dst : ℕ} (hdst : AudioBuffer.StartsAligned build dst) {f : FFTOoura v ℝ}
    (hready : Ready (H * 2) f.mBuffer) {call : Use v ℝ} (hcall : Accepted H call) :
    ∃ g result, f.use (ooura Ooura.realTrig ip w) build dst call = some (g, result) ∧
      Ready (H * 2) g.mBuffer ∧ Answered H call result := by
  have hpos : 0 < H := by
    have := Nat.two_pow_pos (p + 1)
    omega
  cases call with
  | forward input output =>
      obtain ⟨hchannels, k, hvalid, hroom⟩ := hcall
      obtain ⟨g, result, hforward, hready', htransformed⟩ :
          ∃ g result, f.forward (ooura Ooura.realTrig ip w) input output = some (g, result) ∧
            Ready (H * 2) g.mBuffer ∧
            Transformed (ooura Ooura.realTrig ip w) H k input result :=
        forward_spec hpos hready hvalid hchannels hroom
      refine ⟨g, result, hforward, hready', fun k' hk' => ?_⟩
      obtain rfl : k' = k := Nat.eq_of_mul_eq_mul_right (by omega) (hk'.symm.trans hvalid)
      exact ⟨htransformed.valid, htransformed.isSpectrumOf hH⟩
  | back input output =>
      obtain ⟨hchannels, k, hvalid, hroom, -, hreal⟩ := hcall
      obtain ⟨samples, htransformed⟩ :=
        exists_transformed ip w hH hchannels hvalid hroom hreal
      have hinverts : Inverts (ooura Ooura.realTrig ip w) (H * 2) := hH ▸ inverts_ooura
      obtain ⟨g, restored, hback, hready', hsamples, hkept⟩ :=
        back_spec hpos hinverts hdst hready htransformed
      refine ⟨g, restored, hback, hready', fun k' hk' => ?_⟩
      obtain rfl : k' = k := Nat.eq_of_mul_eq_mul_right (by omega) (hk'.symm.trans hvalid)
      refine ⟨fun b hb t ht => ?_, hkept⟩
      rw [htransformed.isSpectrumOf hH b hb t ht]
      refine realDft_congr (fun i hi => ?_) t
      have hrow : (b + 1) * (H * 2) ≤ k' * (H * 2) := Nat.mul_le_mul_right _ hb
      rw [Nat.succ_mul] at hrow
      rw [block, block, hsamples _ (by omega)]

/-- **Any number of calls.**  Transforms of one object in any order and of any input are answered
one after the other, each as if the object had just been constructed. -/
theorem uses_answered {H : ℕ} (hH : H * 2 = 2 ^ (p + 1)) {build : Build} {dst : ℕ}
    (hdst : AudioBuffer.StartsAligned build dst) {f : FFTOoura v ℝ}
    (hready : Ready (H * 2) f.mBuffer) {calls : List (Use v ℝ)}
    (hcalls : ∀ call ∈ calls, Accepted H call) :
    ∃ results, f.uses (ooura Ooura.realTrig ip w) build dst calls = some results ∧
      List.Forall₂ (Answered H) calls results := by
  induction calls generalizing f with
  | nil => exact ⟨[], rfl, List.Forall₂.nil⟩
  | cons call calls ih =>
      obtain ⟨g, result, huse, hready', hanswer⟩ :=
        use_answered ip w hH hdst hready (hcalls call List.mem_cons_self)
      obtain ⟨results, huses, hanswers⟩ :=
        ih hready' fun c hc => hcalls c (List.mem_cons_of_mem _ hc)
      refine ⟨result :: results, ?_, List.Forall₂.cons hanswer hanswers⟩
      rw [uses, huse]
      simp only [Option.bind_eq_bind, Option.bind_some, huses]
      rfl

end Uses

end FFTOoura

end Tklb
