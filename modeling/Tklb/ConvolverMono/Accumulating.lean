import Tklb.AudioBuffer.Mixing
import Tklb.ConvolverMono.Buffers

/-!
# The two builds of `complexMultiply`

With `TKLB_NO_SIMD` the loop over the bins adds the product of the spectra to the
accumulator (`complexMultiply`).  Otherwise the whole vectors of `stride` bins come first,
and what is left is added bin by bin.  The vectors are not added: their bins are overwritten
with the product (`bins_multiplyLanes`).

So the builds agree exactly when there is nothing yet in the accumulator where the vectors
are (`buildsAccumulate_iff`).  That is the case for the first of the segments that `process`
adds up, and for none of the others.

That vectors are loaded from and stored to aligned addresses is not part of this file.

### What is load-bearing

Both builds are folds over the bins, and a bin is two samples, one in each channel, so a step
changes two cells that belong together; `bins` reads both at once.  The two loops have a rule
each, about a stretch of bins, with everything outside of it unchanged.  `vectorize_eq` says
that the vectors and the rest together are all bins.

An accumulator that is empty where the vectors are is the exact condition, as a product is added
to it by one build and put in its place by the other; the equivalence has no hypothesis on the
products, since the condition does not depend on them.
-/

namespace Tklb

open Foundation

namespace ConvolverMono

variable {w : ℕ} {α : Type} [CommRing α]

/-- `aReal[i] * bReal[i] - aImag[i] * bImag[i]` -/
def productReal (a b : AudioBuffer w α) (i : ℕ) : α :=
  a.sample 0 i * b.sample 0 i - a.sample 1 i * b.sample 1 i

/-- `aReal[i] * bImag[i] + aImag[i] * bReal[i]` -/
def productImag (a b : AudioBuffer w α) (i : ℕ) : α :=
  a.sample 0 i * b.sample 1 i + a.sample 1 i * b.sample 0 i

/-- `xsimd::store_aligned(bufferOut[c] + i, v)` -/
def storeLanes (out : AudioBuffer w α) (stride c i : ℕ) (v : ℕ → α) (m : ℕ → α) : ℕ → α :=
  fun k => if out.get c + i ≤ k ∧ k < out.get c + i + stride then v (k - (out.get c + i)) else m k

/-- One iteration of the loop over vectors. -/
def multiplyLanes (out a b : AudioBuffer w α) (stride i : ℕ) (m : ℕ → α) : ℕ → α :=
  let m := storeLanes out stride 0 i (fun l => productReal a b (i + l)) m
  storeLanes out stride 1 i (fun l => productImag a b (i + l)) m

/-- `complexMultiply` with vectors of `stride` samples. -/
def complexMultiplySimd (stride : ℕ) (out a b : AudioBuffer w α) : AudioBuffer w α :=
  let size := out.size
  let vectorize := size - size % stride
  let m := countUp (vectorize / stride) (fun j => multiplyLanes out a b stride (j * stride))
    out.cell
  out.withCells
    (countUp (size - vectorize) (fun j => multiplyBin out a b (vectorize + j)) m)

/-! ### One iteration -/

variable {out a b : AudioBuffer w α} {stride n i : ℕ}

/-- What is in bin `i` of the accumulator. -/
def bins (out : AudioBuffer w α) (m : ℕ → α) (i : ℕ) : α × α :=
  (m (out.get 0 + i), m (out.get 1 + i))

/-- Bin `i` of the product. -/
def product (a b : AudioBuffer w α) (i : ℕ) : α × α := (productReal a b i, productImag a b i)

/-- An iteration of the loop over bins adds one bin. -/
theorem bins_multiplyBin (hout : out.mChannels = 2) (hn : n < out.size) (hi : i < out.size)
    (m : ℕ → α) :
    bins out (multiplyBin out a b n m) i = bins out m i + if i = n then product a b i else 0 := by
  have hcell : ∀ {c d : ℕ}, c < 2 → d < 2 → out.get c + i = out.get d + n → c = d ∧ i = n :=
    fun hc hd heq => AudioBuffer.get_add_injective (by omega) (by omega) hi hn heq
  have hother : out.get 1 + n ≠ out.get 0 + n := fun heq =>
    absurd (AudioBuffer.get_add_injective (b := out) (by omega) (by omega) hn hn heq).1
      (by omega)
  have hfirst : out.get 0 + i ≠ out.get 1 + n := fun heq =>
    absurd (hcell (by omega) (by omega) heq).1 (by omega)
  have hsecond : out.get 1 + i ≠ out.get 0 + n := fun heq =>
    absurd (hcell (by omega) (by omega) heq).1 (by omega)
  simp only [bins, multiplyBin]
  by_cases hin : i = n
  · subst hin
    rw [if_pos rfl, Function.update_of_ne hfirst, Function.update_self, Function.update_self,
      Function.update_of_ne hother]
    rfl
  · have hne : ∀ {c : ℕ}, c < 2 → out.get c + i ≠ out.get c + n := fun hc heq =>
      hin (hcell hc hc heq).2
    rw [if_neg hin, add_zero, Function.update_of_ne hfirst, Function.update_of_ne (hne (by omega)),
      Function.update_of_ne (hne (by omega)), Function.update_of_ne hsecond]

omit [CommRing α] in
/-- A store is seen in its own lanes only. -/
theorem storeLanes_apply (hout : out.mChannels = 2) {c d : ℕ} (hc : c < 2) (hd : d < 2)
    (hfit : n + stride ≤ out.size) (hi : i < out.size) (v : ℕ → α) (m : ℕ → α) :
    storeLanes out stride c n v m (out.get d + i) =
      if c = d ∧ n ≤ i ∧ i < n + stride then v (i - n) else m (out.get d + i) := by
  unfold storeLanes
  by_cases hin : c = d ∧ n ≤ i ∧ i < n + stride
  · obtain ⟨rfl, hlo, hhi⟩ := hin
    rw [if_pos (by omega), if_pos ⟨rfl, hlo, hhi⟩]
    congr 1
    omega
  · rw [if_neg hin, if_neg]
    rintro ⟨hlo, hhi⟩
    obtain ⟨l, hl⟩ := Nat.exists_eq_add_of_le hlo
    rw [Nat.add_assoc] at hl
    have hsame := AudioBuffer.get_add_injective (by omega : d < out.mChannels) (by omega : c < _)
      hi (by omega) hl
    exact hin ⟨hsame.1.symm, by omega, by omega⟩

/-- An iteration of the loop over vectors overwrites `stride` bins. -/
theorem bins_multiplyLanes (hout : out.mChannels = 2) (hfit : n + stride ≤ out.size)
    (hi : i < out.size) (m : ℕ → α) :
    bins out (multiplyLanes out a b stride n m) i =
      if n ≤ i ∧ i < n + stride then product a b i else bins out m i := by
  have hindex : n ≤ i → n + (i - n) = i := fun h => Nat.add_sub_of_le h
  unfold bins multiplyLanes
  rw [storeLanes_apply hout (by omega) (by omega) hfit hi,
    storeLanes_apply hout (by omega) (by omega) hfit hi,
    storeLanes_apply hout (by omega) (by omega) hfit hi,
    storeLanes_apply hout (by omega) (by omega) hfit hi]
  by_cases hin : n ≤ i ∧ i < n + stride
  · simp [hin, hindex hin.1, product]
  · simp [hin]

/-! ### The loops -/

/-- **The loop over bins** adds the product.  What was in the accumulator before stays in the sum,
which is what makes it one. -/
theorem bins_countUp_multiplyBin (hout : out.mChannels = 2) {first : ℕ}
    (hfit : first + n ≤ out.size) (hi : i < out.size) (m : ℕ → α) :
    bins out (countUp n (fun j => multiplyBin out a b (first + j)) m) i =
      bins out m i + if first ≤ i ∧ i < first + n then product a b i else 0 := by
  induction n with
  | zero => simp [show ¬ (first ≤ i ∧ i < first) by omega]
  | succ n ih =>
      rw [countUp_succ, bins_multiplyBin hout (by omega) hi, ih (by omega)]
      by_cases heq : i = first + n
      · simp [heq]
      · rw [if_neg heq, add_zero]
        congr 2
        simp only [eq_iff_iff]
        omega

/-- **The loop over vectors** leaves the product.  What was in the accumulator before is lost: the
vectors are stored and not added. -/
theorem bins_countUp_multiplyLanes (hout : out.mChannels = 2) (hfit : n * stride ≤ out.size)
    (hi : i < out.size) (m : ℕ → α) :
    bins out (countUp n (fun j => multiplyLanes out a b stride (j * stride)) m) i =
      if i < n * stride then product a b i else bins out m i := by
  induction n with
  | zero => simp
  | succ n ih =>
      rw [Nat.succ_mul] at hfit ⊢
      rw [countUp_succ, bins_multiplyLanes hout hfit hi, ih (by omega)]
      by_cases hlast : n * stride ≤ i ∧ i < n * stride + stride
      · rw [if_pos hlast, if_pos hlast.2]
      · rw [if_neg hlast]
        congr 1
        simp only [eq_iff_iff]
        omega

omit [CommRing α] in
theorem bins_withCells (m : ℕ → α) : bins out (out.withCells m).cell i = bins out m i := rfl

/-- **The scalar build.**  It adds the product to every bin, so segment after segment can be
accumulated. -/
theorem bins_complexMultiply (hout : out.mChannels = 2) (hi : i < out.size) :
    bins out (complexMultiply out a b).cell i = bins out out.cell i + product a b i := by
  have hloop := bins_countUp_multiplyBin (a := a) (b := b) hout
    (show 0 + out.size ≤ out.size by omega) hi out.cell
  simp only [Nat.zero_add, Nat.zero_le, true_and, hi, if_true] at hloop
  exact hloop

/-- **The build with vectors** adds the product behind the last vector, and stores it in
front of that. -/
theorem bins_complexMultiplySimd (hout : out.mChannels = 2) (hi : i < out.size) :
    bins out (complexMultiplySimd stride out a b).cell i =
      if i < out.size - out.size % stride then product a b i
      else bins out out.cell i + product a b i := by
  obtain ⟨hwhole, hcount⟩ := vectorize_eq stride out.size
  have hle : out.size - out.size % stride ≤ out.size := Nat.sub_le _ _
  rw [complexMultiplySimd, bins_withCells, bins_countUp_multiplyBin hout (by omega) hi, hcount,
    bins_countUp_multiplyLanes hout (by omega) hi, ← hwhole]
  by_cases hvector : i < out.size - out.size % stride
  · simp [hvector, show ¬ out.size - out.size % stride ≤ i by omega]
  · rw [if_neg hvector, if_neg hvector, if_pos (by omega)]

/-! ### The builds -/

/-- Both builds add the complex product to the accumulator, at every index.  That is the contract of
`complexMultiply`, for real and imaginary parts, and each build is asked for it by itself. -/
def BuildsAccumulate (stride : ℕ) (out a b : AudioBuffer w α) : Prop :=
  ∀ i < out.size,
    (complexMultiply out a b).sample 0 i = out.sample 0 i + productReal a b i ∧
    (complexMultiply out a b).sample 1 i = out.sample 1 i + productImag a b i ∧
    (complexMultiplySimd stride out a b).sample 0 i = out.sample 0 i + productReal a b i ∧
    (complexMultiplySimd stride out a b).sample 1 i = out.sample 1 i + productImag a b i

/-- **The builds of `complexMultiply`** leave the same accumulator exactly if there was
nothing in it where the whole vectors are. -/
theorem buildsAccumulate_iff (hout : out.mChannels = 2) :
    BuildsAccumulate stride out a b ↔
      ∀ i < out.size - out.size % stride, out.sample 0 i = 0 ∧ out.sample 1 i = 0 := by
  have hscalar : ∀ i < out.size,
      (complexMultiply out a b).sample 0 i = out.sample 0 i + productReal a b i ∧
        (complexMultiply out a b).sample 1 i = out.sample 1 i + productImag a b i :=
    fun i hi => Prod.ext_iff.mp (bins_complexMultiply hout hi)
  have hsimd : ∀ i < out.size,
      ((complexMultiplySimd stride out a b).sample 0 i,
          (complexMultiplySimd stride out a b).sample 1 i) =
        if i < out.size - out.size % stride then product a b i
        else bins out out.cell i + product a b i :=
    fun i hi => bins_complexMultiplySimd hout hi
  constructor
  · intro h i hi
    have hlt : i < out.size := by omega
    obtain ⟨-, -, hreal, himag⟩ := h i hlt
    have hbin := hsimd i hlt
    rw [if_pos hi, hreal, himag] at hbin
    obtain ⟨hreal', himag'⟩ := Prod.mk.inj hbin
    exact ⟨add_eq_right.mp hreal', add_eq_right.mp himag'⟩
  · intro h i hi
    obtain ⟨hreal, himag⟩ := hscalar i hi
    refine ⟨hreal, himag, Prod.mk.inj ((hsimd i hi).trans ?_)⟩
    by_cases hvector : i < out.size - out.size % stride
    · obtain ⟨hzero, hzero'⟩ := h i hvector
      rw [if_pos hvector, hzero, hzero', zero_add, zero_add]
      rfl
    · rw [if_neg hvector]
      rfl

/-- Two channels of four bins, every sample 1. -/
def ones : AudioBuffer 32 ℤ where
  cell _ := 1
  mBufferSize := 8
  mValidSize := 4
  mChannels := 2
  buffer_lt := by decide
  valid_lt := by decide
  channels_lt := (by decide : 2 < 256)
  channels_ne := by decide

/-- An empty accumulator. -/
theorem buildsAccumulate_iff_zero :
    BuildsAccumulate 4 (ones.withCells fun _ => 0) ones ones ↔
      ∀ i < 4, (ones.withCells fun _ => 0).sample 0 i = 0 ∧
        (ones.withCells fun _ => 0).sample 1 i = 0 :=
  buildsAccumulate_iff rfl

/-- A second segment: the imaginary parts should add up to 3. -/
theorem not_buildsAccumulate_ones : ¬ BuildsAccumulate 4 ones ones ones := by
  intro h
  exact absurd (h 0 (by decide)).2.2.2 (by decide)

end ConvolverMono

end Tklb
