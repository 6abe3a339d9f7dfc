import Mathlib.Algebra.Group.Defs
import Tklb.AudioBuffer.Storage

/-!
# `add` and `multiply`

Both add or multiply the samples of another buffer to those of this one, or a constant.
Each has two builds: with `TKLB_NO_SIMD` a loop over the samples, otherwise a loop over
vectors of `Stride` samples and a loop over the samples that are left.  Vectors are
loaded and stored at aligned addresses only, any other address is a fault; an address
counts samples here, so it is aligned if it is a multiple of `Stride`.

The file is the model of the four functions in both builds.  Where the samples of the
source are is left open (`MixChannel`): in a memory of their own, which may hold samples
of another type (`mix`), or in the memory that is written (`mixIn`), so that the source
may be the target itself or overlap it.

`builds_agree_iff` compares the builds: they do the same if and only if all vectors are
aligned.  A vector is loaded before the first of its samples is stored, while the loop
over samples takes turns; that makes no difference, because two aligned vectors overlap
in all of their samples or in none.

### The parameters

The operation on two samples and the operation on two vectors are two parameters, `op` and
`vop`; what is needed of them is that the second is the first one in every lane.  The library
the source uses for vectors loads and stores at aligned addresses only and asserts that they
are, so `loadAligned` and `storeAligned` have no result elsewhere.  A build is a value
(`Build`), and the functions of the source take it as an argument, so that one theorem can
speak of both.

### What is load-bearing

The comparison of the builds is done three times over, each time with one more loop around it:
a vector against its samples (`buildLoop_simd`), a channel (`mix_simd`), all channels
(`mixLoop_simd_iff`).  What carries it is `ReadsAhead`: while the samples of one aligned vector
are stored one after the other, those that the vector has loaded are still there.  For a source
with a memory of its own this is trivial; for a source in the same memory it holds because two
aligned vectors are equal or disjoint, and it fails for unaligned ones, which fault before it
matters.
-/

namespace Tklb

open Foundation

variable {α β : Type}

/-- The scalar build, or one with vectors of `stride` samples. -/
inductive Build
  | scalar
  | simd (stride : ℕ)

/-! ### Loops -/

/-- `xsimd::load_aligned(addr)`, where the samples from `addr` on are `lanes`. -/
def loadAligned (stride addr : ℕ) (lanes : ℕ → β) : Option (ℕ → β) :=
  if stride ∣ addr then some lanes else none

/-- `xsimd::store_aligned(addr, v)`, where the cell `out` has the address `addr`. -/
def storeAligned (stride addr out : ℕ) (v : ℕ → α) (m : ℕ → α) : Option (ℕ → α) :=
  if stride ∣ addr then some fun k => if out ≤ k ∧ k < out + stride then v (k - out) else m k
  else none

/-- `for (i = first; i < first + n; i++) out[i] = f(out[i], in[i])`, where `input m i` is
`in[i]` while the memory holds `m`. -/
def scalarLoop (f : α → β → α) (out : ℕ) (input : (ℕ → α) → ℕ → β) (first n : ℕ) (m : ℕ → α) :
    ℕ → α :=
  countUp n (fun k m =>
    Function.update m (out + (first + k)) (f (m (out + (first + k))) (input m (first + k)))) m

/-- `for (i = 0; i < vectorize; i += Stride)` -/
def vectorLoop (stride vectorize : ℕ) (body : ℕ → (ℕ → α) → Option (ℕ → α)) (m : ℕ → α) :
    Option (ℕ → α) :=
  (List.range (vectorize / stride)).foldlM (fun m j => body (j * stride) m) m

/-- The samples of one channel, in either build. -/
def buildLoop (build : Build) (scalar : ℕ → ℕ → (ℕ → α) → ℕ → α)
    (body : ℕ → ℕ → (ℕ → α) → Option (ℕ → α)) (length : ℕ) (m : ℕ → α) : Option (ℕ → α) :=
  match build with
  | .scalar => some (scalar 0 length m)
  | .simd stride =>
      let vectorize := length - length % stride
      (vectorLoop stride vectorize (body stride) m).map (scalar vectorize (length - vectorize))

/-- One channel of the target and of the source: the cell and the address of `out[0]`,
the address of `in[0]`, and `in[i]` while the target's memory holds `m`. -/
structure MixChannel (α β : Type) where
  out : ℕ
  outAddr : ℕ
  inAddr : ℕ
  input : (ℕ → α) → ℕ → β

namespace MixChannel

/-- `out[i] += in[i]` or `out[i] *= in[i]` for a vector of samples. -/
def vectorBody (vop : β → α → α) (x : MixChannel α β) (stride i : ℕ) (m : ℕ → α) :
    Option (ℕ → α) := do
  let a ← loadAligned stride (x.inAddr + i) fun l => x.input m (i + l)
  let b ← loadAligned stride (x.outAddr + i) fun l => m (x.out + i + l)
  storeAligned stride (x.outAddr + i) (x.out + i) (fun l => vop (a l) (b l)) m

/-- The samples of one channel. -/
def mix (build : Build) (op : α → β → α) (vop : β → α → α) (x : MixChannel α β) :
    ℕ → (ℕ → α) → Option (ℕ → α) :=
  buildLoop build (scalarLoop op x.out x.input) (x.vectorBody vop)

end MixChannel

/-- `out[i] += value` or `out[i] *= value` for a vector of samples. -/
def valueBody (op : α → α → α) (value : α) (out addr stride i : ℕ) (m : ℕ → α) :
    Option (ℕ → α) := do
  let b ← loadAligned stride (addr + i) fun l => m (out + i + l)
  storeAligned stride (addr + i) (out + i) (fun l => op (b l) value) m

/-- `for (c = 0; c < channelCount; c++)` -/
def channelLoop (channelCount : ℕ) (body : ℕ → (ℕ → α) → Option (ℕ → α)) (m : ℕ → α) :
    Option (ℕ → α) :=
  (List.range channelCount).foldlM (fun m c => body c m) m

/-- The loops of `add` and `multiply` of a buffer. -/
def mixLoop (build : Build) (op : α → β → α) (vop : β → α → α) (channelCount : ℕ)
    (channel : ℕ → MixChannel α β) (length : ℕ) : (ℕ → α) → Option (ℕ → α) :=
  channelLoop channelCount fun c => (channel c).mix build op vop length

/-! ### The functions -/

namespace AudioBuffer

variable {w : ℕ}

/-- The number of frames `add` and `multiply` go through. -/
def mixLength (b : AudioBuffer w α) (buffer : AudioBuffer w β) (length offsetSrc offsetDst : ℕ) :
    ℕ :=
  -- the source computes the length that was asked for, and overwrites it
  let _length := if length = 0 then wsub w buffer.mValidSize offsetSrc else length
  min (wsub w buffer.mValidSize offsetSrc) (wsub w b.mValidSize offsetDst)

/-- `add` and `multiply` of a buffer that has a memory of its own; `dst` and `src` are the
addresses at which the two storages start.  `op` is the operation on samples and `vop`
the one on vectors, which takes the source first. -/
def mix (build : Build) (op : α → β → α) (vop : β → α → α) (b : AudioBuffer w α)
    (buffer : AudioBuffer w β) (dst src length offsetSrc offsetDst : ℕ) :
    Option (AudioBuffer w α) :=
  let channel : ℕ → MixChannel α β := fun c =>
    { out := b.get c + offsetDst
      outAddr := dst + b.get c + offsetDst
      inAddr := src + buffer.get c + offsetSrc
      input := fun _ i => buffer.cell (buffer.get c + offsetSrc + i) }
  (mixLoop build op vop (min buffer.mChannels b.mChannels) channel
    (b.mixLength buffer length offsetSrc offsetDst) b.cell).map b.withCells

/-- `add(buffer, length, offsetSrc, offsetDst)` -/
def add [HAdd α β α] [HAdd β α α] (build : Build) (b : AudioBuffer w α)
    (buffer : AudioBuffer w β) (dst src length offsetSrc offsetDst : ℕ) :
    Option (AudioBuffer w α) :=
  b.mix build (· + ·) (· + ·) buffer dst src length offsetSrc offsetDst

/-- `multiply(buffer, length, offsetSrc, offsetDst)` -/
def multiply [HMul α β α] [HMul β α α] (build : Build) (b : AudioBuffer w α)
    (buffer : AudioBuffer w β) (dst src length offsetSrc offsetDst : ℕ) :
    Option (AudioBuffer w α) :=
  b.mix build (· * ·) (· * ·) buffer dst src length offsetSrc offsetDst

/-- The same for two buffers in one memory `m`, which may be the same buffer or overlap;
`b` and `buffer` tell their shapes here. -/
def mixIn (build : Build) (op vop : α → α → α) (m : ℕ → α) (b buffer : AudioBuffer w α)
    (dst src length offsetSrc offsetDst : ℕ) : Option (ℕ → α) :=
  let channel : ℕ → MixChannel α α := fun c =>
    { out := dst + b.get c + offsetDst
      outAddr := dst + b.get c + offsetDst
      inAddr := src + buffer.get c + offsetSrc
      input := fun m i => m (src + buffer.get c + offsetSrc + i) }
  mixLoop build op vop (min buffer.mChannels b.mChannels) channel
    (b.mixLength buffer length offsetSrc offsetDst) m

/-- `add(buffer, length, offsetSrc, offsetDst)` in one memory. -/
def addIn [Add α] (build : Build) (m : ℕ → α) (b buffer : AudioBuffer w α)
    (dst src length offsetSrc offsetDst : ℕ) : Option (ℕ → α) :=
  mixIn build (· + ·) (· + ·) m b buffer dst src length offsetSrc offsetDst

/-- `multiply(buffer, length, offsetSrc, offsetDst)` in one memory. -/
def multiplyIn [Mul α] (build : Build) (m : ℕ → α) (b buffer : AudioBuffer w α)
    (dst src length offsetSrc offsetDst : ℕ) : Option (ℕ → α) :=
  mixIn build (· * ·) (· * ·) m b buffer dst src length offsetSrc offsetDst

/-- `add(value)` and `multiply(value)` -/
def mixValue (build : Build) (op : α → α → α) (b : AudioBuffer w α) (dst : ℕ) (value : α) :
    Option (AudioBuffer w α) :=
  (channelLoop b.mChannels
    (fun c => buildLoop build (scalarLoop op (b.get c) fun _ _ => value)
      (valueBody op value (b.get c) (dst + b.get c)) b.mValidSize)
    b.cell).map b.withCells

/-- `add(value)` -/
def addValue [Add α] (build : Build) (b : AudioBuffer w α) (dst : ℕ) (value : α) :
    Option (AudioBuffer w α) :=
  b.mixValue build (· + ·) dst value

/-- `multiply(value)` -/
def multiplyValue [Mul α] (build : Build) (b : AudioBuffer w α) (dst : ℕ) (value : α) :
    Option (AudioBuffer w α) :=
  b.mixValue build (· * ·) dst value

end AudioBuffer

/-! ### One vector is as many samples -/

section Loops

variable {op : α → β → α} {out : ℕ} {input : (ℕ → α) → ℕ → β} {m : ℕ → α}

/-- A loop over samples can be cut anywhere. -/
theorem scalarLoop_add (first k n : ℕ) :
    scalarLoop op out input (first + k) n (scalarLoop op out input first k m) =
      scalarLoop op out input first (k + n) m := by
  induction n with
  | zero => rfl
  | succ n ih =>
      have hsucc : ∀ (first n : ℕ) (m : ℕ → α), scalarLoop op out input first (n + 1) m =
          Function.update (scalarLoop op out input first n m) (out + (first + n))
            (op (scalarLoop op out input first n m (out + (first + n)))
              (input (scalarLoop op out input first n m) (first + n))) := fun _ _ _ => rfl
      rw [hsucc, ih, ← Nat.add_assoc k n 1, hsucc, Nat.add_assoc first k n]

/-- If no sample that is written is read later on, all can be read first. -/
theorem scalarLoop_eq_store {first n : ℕ}
    (hread : ∀ l < n, ∀ m', (∀ k, k < out + first ∨ out + first + l ≤ k → m' k = m k) →
      input m' (first + l) = input m (first + l)) :
    scalarLoop op out input first n m = fun k =>
      if out + first ≤ k ∧ k < out + first + n then op (m k) (input m (k - out)) else m k := by
  induction n with
  | zero =>
      funext k
      rw [if_neg (by omega)]
      rfl
  | succ n ih =>
      have hbefore := ih fun l hl => hread l (by omega)
      have hinput := hread n (Nat.lt_succ_self n) (scalarLoop op out input first n m) fun k hk => by
        rw [hbefore]
        exact if_neg (by omega)
      have hlast : scalarLoop op out input first n m (out + (first + n)) =
          m (out + (first + n)) := by
        rw [hbefore]
        exact if_neg (by omega)
      show Function.update (scalarLoop op out input first n m) (out + (first + n))
        (op (scalarLoop op out input first n m (out + (first + n)))
          (input (scalarLoop op out input first n m) (first + n))) = _
      rw [hinput, hlast]
      funext k
      by_cases hk : k = out + (first + n)
      · subst hk
        rw [Function.update_self, if_pos (by omega), Nat.add_sub_cancel_left]
      · rw [Function.update_of_ne hk, hbefore]
        dsimp only
        by_cases hin : out + first ≤ k ∧ k < out + first + n
        · rw [if_pos hin, if_pos (by omega)]
        · rw [if_neg hin, if_neg (by omega)]

/-- The whole vectors, and how many there are. -/
theorem vectorize_eq (stride length : ℕ) :
    length - length % stride = length / stride * stride ∧
      (length - length % stride) / stride = length / stride := by
  have hwhole : length - length % stride = length / stride * stride := by
    have := Nat.div_add_mod' length stride
    omega
  refine ⟨hwhole, ?_⟩
  rw [hwhole]
  rcases Nat.eq_zero_or_pos stride with rfl | hpos
  · rw [Nat.div_zero, Nat.div_zero]
  · exact Nat.mul_div_cancel _ hpos

/-- **Vectors.**  If every vector is as many samples, the builds agree.  The two builds then differ
in the order in which they go over the samples and in nothing else: the vectors first, and the rest
one by one. -/
theorem buildLoop_simd {stride length : ℕ} {body : ℕ → ℕ → (ℕ → α) → Option (ℕ → α)}
    (hbody : ∀ j < length / stride, ∀ m, body stride (j * stride) m =
      some (scalarLoop op out input (j * stride) stride m)) :
    buildLoop (.simd stride) (scalarLoop op out input) body length m =
      some (scalarLoop op out input 0 length m) := by
  have hvector : ∀ n ≤ length / stride,
      (List.range n).foldlM (fun m j => body stride (j * stride) m) m =
        some (scalarLoop op out input 0 (n * stride) m) := by
    intro n hn
    induction n with
    | zero =>
        rw [Nat.zero_mul]
        rfl
    | succ n ih =>
        rw [List.range_succ, List.foldlM_append, ih (by omega)]
        show (body stride (n * stride) _ >>= pure) = _
        rw [bind_pure, hbody n (by omega), Nat.succ_mul]
        have hcut := @scalarLoop_add α β op out input m 0 (n * stride) stride
        rw [Nat.zero_add] at hcut
        rw [hcut]
  obtain ⟨hwhole, hcount⟩ := vectorize_eq stride length
  have hle : length / stride * stride ≤ length := Nat.div_mul_le_self _ _
  have hcut := @scalarLoop_add α β op out input m 0 (length / stride * stride)
    (length - length / stride * stride)
  rw [Nat.zero_add, Nat.add_sub_cancel' hle] at hcut
  unfold buildLoop vectorLoop
  dsimp only
  rw [hcount, hvector _ le_rfl, hwhole, Option.map_some, hcut]

/-- A first vector that faults is the end. -/
theorem buildLoop_fault {stride length : ℕ} {scalar : ℕ → ℕ → (ℕ → α) → ℕ → α}
    {body : ℕ → ℕ → (ℕ → α) → Option (ℕ → α)} (hvectors : length / stride ≠ 0)
    (hbody : body stride 0 m = none) :
    buildLoop (.simd stride) scalar body length m = none := by
  obtain ⟨n, hn⟩ := Nat.exists_eq_succ_of_ne_zero hvectors
  unfold buildLoop vectorLoop
  dsimp only
  rw [(vectorize_eq stride length).2, hn, List.range_succ_eq_map, List.foldlM_cons,
    Nat.zero_mul, hbody]
  rfl

end Loops

/-! ### One channel -/

namespace MixChannel

/-- The vectors of a channel are aligned, if there are any.  Both the addresses it reads and those
it writes start at a multiple of the stride; a channel shorter than a vector has none. -/
def Aligned (x : MixChannel α β) (stride length : ℕ) : Prop :=
  length / stride ≠ 0 → stride ∣ x.inAddr ∧ stride ∣ x.outAddr

instance (x : MixChannel α β) (stride length : ℕ) : Decidable (x.Aligned stride length) :=
  inferInstanceAs (Decidable (_ → _))

/-- While the samples of one aligned vector are stored, those of the source stay. -/
def ReadsAhead (x : MixChannel α β) (stride : ℕ) : Prop :=
  stride ∣ x.inAddr → stride ∣ x.outAddr → ∀ i, stride ∣ i → ∀ l < stride,
    ∀ m m' : ℕ → α, (∀ k, k < x.out + i ∨ x.out + i + l ≤ k → m' k = m k) →
      x.input m' (i + l) = x.input m (i + l)

variable {x : MixChannel α β} {op : α → β → α} {vop : β → α → α} {stride : ℕ}

/-- An aligned vector is as many samples. -/
theorem vectorBody_eq (hcomm : ∀ a b, vop b a = op a b) (hreads : x.ReadsAhead stride)
    (hin : stride ∣ x.inAddr) (hout : stride ∣ x.outAddr) {i : ℕ} (hi : stride ∣ i)
    (m : ℕ → α) :
    x.vectorBody vop stride i m = some (scalarLoop op x.out x.input i stride m) := by
  have hread := hreads hin hout i hi
  rw [scalarLoop_eq_store fun l hl m' hm' => hread l hl m m' hm']
  unfold vectorBody loadAligned storeAligned
  simp only [if_pos (Nat.dvd_add hin hi), if_pos (Nat.dvd_add hout hi), Option.bind_eq_bind,
    Option.bind_some]
  congr 1
  funext k
  by_cases hk : x.out + i ≤ k ∧ k < x.out + i + stride
  · obtain ⟨l, rfl⟩ := Nat.exists_eq_add_of_le hk.1
    rw [if_pos hk, if_pos hk, hcomm, Nat.add_sub_cancel_left, Nat.add_assoc,
      Nat.add_sub_cancel_left]
  · rw [if_neg hk, if_neg hk]

/-- **One channel.**  The vectors do what the samples do, or the first one faults. -/
theorem mix_simd (hcomm : ∀ a b, vop b a = op a b) (hreads : x.ReadsAhead stride) (length : ℕ)
    (m : ℕ → α) :
    x.mix (.simd stride) op vop length m =
      if x.Aligned stride length then some (scalarLoop op x.out x.input 0 length m)
      else none := by
  by_cases haligned : x.Aligned stride length
  · rw [if_pos haligned]
    refine buildLoop_simd fun j hj m => ?_
    obtain ⟨hin, hout⟩ := haligned (Nat.ne_zero_of_lt hj)
    exact vectorBody_eq hcomm hreads hin hout (Nat.dvd_mul_left _ _) m
  · rw [if_neg haligned]
    obtain ⟨hvectors, hnot⟩ := not_forall.mp haligned
    refine buildLoop_fault hvectors ?_
    unfold vectorBody loadAligned
    rw [Nat.add_zero, Nat.add_zero]
    by_cases hin : stride ∣ x.inAddr
    · rw [if_pos hin, if_neg fun hout => hnot ⟨hin, hout⟩]
      rfl
    · rw [if_neg hin]
      rfl

/-- A source in a memory of its own. -/
theorem readsAhead_apart {out outAddr inAddr : ℕ} (samples : ℕ → β) :
    (⟨out, outAddr, inAddr, fun _ i => samples i⟩ : MixChannel α β).ReadsAhead stride :=
  fun _ _ _ _ _ _ _ _ _ => rfl

/-- A source in the memory that is written: two aligned vectors are the same one or have
no sample in common. -/
theorem readsAhead_shared {out inAddr : ℕ} :
    (⟨out, out, inAddr, fun m i => m (inAddr + i)⟩ : MixChannel α α).ReadsAhead stride := by
  intro hin hout i hi l hl m m' hm'
  refine hm' _ ?_
  dsimp only at *
  by_contra hmeets
  -- the address read would be less than a vector behind the one written
  obtain ⟨d, hd⟩ := Nat.exists_eq_add_of_le (show inAddr ≤ out by omega)
  rw [hd] at hout
  have hdvd : stride ∣ d := (Nat.dvd_add_right hin).mp hout
  have hle := Nat.le_of_dvd (show 0 < d by omega) hdvd
  omega

end MixChannel

/-- A constant: the vector is aligned, or faults. -/
theorem valueLoop_simd {op : α → α → α} {value : α} {out addr stride length : ℕ} {m : ℕ → α} :
    buildLoop (.simd stride) (scalarLoop op out fun _ _ => value) (valueBody op value out addr)
        length m =
      if length / stride ≠ 0 → stride ∣ addr then
        some (scalarLoop op out (fun _ _ => value) 0 length m)
      else none := by
  split
  · rename_i haligned
    refine buildLoop_simd fun j hj m => ?_
    have haddr := Nat.dvd_add (haligned (Nat.ne_zero_of_lt hj)) (Nat.dvd_mul_left stride j)
    rw [scalarLoop_eq_store fun _ _ _ _ => rfl]
    unfold valueBody loadAligned storeAligned
    simp only [if_pos haddr, Option.bind_eq_bind, Option.bind_some]
    congr 1
    funext k
    by_cases hk : out + j * stride ≤ k ∧ k < out + j * stride + stride
    · rw [if_pos hk, if_pos hk, Nat.add_sub_cancel' hk.1]
    · rw [if_neg hk, if_neg hk]
  · rename_i hnot
    obtain ⟨hvectors, hnot⟩ := not_forall.mp hnot
    refine buildLoop_fault hvectors ?_
    unfold valueBody loadAligned
    rw [Nat.add_zero, if_neg hnot]
    rfl

/-! ### All channels -/

/-- A loop over channels that cannot fault. -/
theorem channelLoop_some {n : ℕ} {body : ℕ → (ℕ → α) → Option (ℕ → α)}
    {body' : ℕ → (ℕ → α) → ℕ → α} (h : ∀ c < n, ∀ m, body c m = some (body' c m)) (m : ℕ → α) :
    channelLoop n body m = some (countUp n body' m) := by
  unfold channelLoop
  induction n with
  | zero => rfl
  | succ n ih =>
      rw [List.range_succ, List.foldlM_append, ih fun c hc => h c (Nat.lt_succ_of_lt hc)]
      show (body n _ >>= pure) = _
      rw [bind_pure, h n (Nat.lt_succ_self n)]
      rfl

/-- A loop over channels faults if one of them does. -/
theorem channelLoop_none {n : ℕ} {body : ℕ → (ℕ → α) → Option (ℕ → α)} {c : ℕ} (hc : c < n)
    (h : ∀ m, body c m = none) (m : ℕ → α) : channelLoop n body m = none := by
  obtain ⟨d, rfl⟩ := Nat.exists_eq_add_of_lt hc
  unfold channelLoop
  rw [show List.range (c + d + 1) = List.range c ++ c :: (List.range d).map (c + 1 + ·) by
    rw [show c + d + 1 = c + 1 + d by omega, List.range_add, List.range_succ]
    simp]
  rw [List.foldlM_append]
  cases (List.range c).foldlM (fun m c => body c m) m with
  | none => rfl
  | some m' =>
      show List.foldlM (fun m c => body c m) m' (c :: _) = none
      rw [List.foldlM_cons, h]
      rfl

section MixLoop

variable {op : α → β → α} {vop : β → α → α} {n stride : ℕ} {channel : ℕ → MixChannel α β}

theorem mixLoop_scalar (length : ℕ) (m : ℕ → α) :
    mixLoop .scalar op vop n channel length m = some (countUp n
      (fun c => scalarLoop op (channel c).out (channel c).input 0 length) m) :=
  channelLoop_some (fun _ _ _ => rfl) m

/-- The SIMD build, when all channels are aligned. -/
theorem mixLoop_aligned (hcomm : ∀ a b, vop b a = op a b)
    (hreads : ∀ c, (channel c).ReadsAhead stride) {length : ℕ}
    (haligned : ∀ c < n, (channel c).Aligned stride length) (m : ℕ → α) :
    mixLoop (.simd stride) op vop n channel length m =
      mixLoop .scalar op vop n channel length m := by
  rw [mixLoop_scalar]
  refine channelLoop_some (fun c hc m => ?_) m
  rw [MixChannel.mix_simd hcomm (hreads c), if_pos (haligned c hc)]

/-- And when one of them is not. -/
theorem mixLoop_fault (hcomm : ∀ a b, vop b a = op a b)
    (hreads : ∀ c, (channel c).ReadsAhead stride) {length c : ℕ} (hc : c < n)
    (hnot : ¬ (channel c).Aligned stride length) (m : ℕ → α) :
    mixLoop (.simd stride) op vop n channel length m = none :=
  channelLoop_none hc (fun m => by rw [MixChannel.mix_simd hcomm (hreads c), if_neg hnot]) m

/-- **All channels.**  The builds agree over a whole buffer exactly if all vectors of all channels
that are mixed are aligned; one that is not makes the SIMD build fault, while the scalar build goes
on. -/
theorem mixLoop_simd_iff (hcomm : ∀ a b, vop b a = op a b)
    (hreads : ∀ c, (channel c).ReadsAhead stride) {length : ℕ} (m : ℕ → α) :
    mixLoop (.simd stride) op vop n channel length m =
        mixLoop .scalar op vop n channel length m ↔
      ∀ c < n, (channel c).Aligned stride length := by
  constructor
  · intro heq c hc
    by_contra hnot
    rw [mixLoop_fault hcomm hreads hc hnot, mixLoop_scalar] at heq
    cases heq
  · exact fun haligned => mixLoop_aligned hcomm hreads haligned m

end MixLoop

namespace AudioBuffer

variable {w : ℕ}

/-- The vectors of `add` and `multiply` are aligned in the channels both buffers have, if
there is a whole vector. -/
def MixAligned (stride : ℕ) (b : AudioBuffer w α) (buffer : AudioBuffer w β)
    (dst src length offsetSrc offsetDst : ℕ) : Prop :=
  b.mixLength buffer length offsetSrc offsetDst / stride ≠ 0 →
    ∀ c < min buffer.mChannels b.mChannels,
      stride ∣ src + buffer.get c + offsetSrc ∧ stride ∣ dst + b.get c + offsetDst

/-- The vectors of the channels are aligned, if there is a whole vector. -/
def ValueAligned (stride : ℕ) (b : AudioBuffer w α) (dst : ℕ) : Prop :=
  b.mValidSize / stride ≠ 0 → ∀ c < b.mChannels, stride ∣ dst + b.get c

section Builds

variable {b : AudioBuffer w α} {dst src length offsetSrc offsetDst stride : ℕ}

/-- In one memory. -/
theorem mixIn_simd_iff {op vop : α → α → α} {buffer : AudioBuffer w α} {m : ℕ → α}
    (hcomm : ∀ x y, vop y x = op x y) :
    mixIn (.simd stride) op vop m b buffer dst src length offsetSrc offsetDst =
        mixIn .scalar op vop m b buffer dst src length offsetSrc offsetDst ↔
      MixAligned stride b buffer dst src length offsetSrc offsetDst := by
  refine (mixLoop_simd_iff hcomm (fun c => MixChannel.readsAhead_shared) m).trans ?_
  exact ⟨fun h hvectors c hc => h c hc hvectors, fun h c hc hvectors => h hvectors c hc⟩

theorem mixValue_scalar {op : α → α → α} {value : α} :
    b.mixValue .scalar op dst value = some (b.withCells (countUp b.mChannels
      (fun c => scalarLoop op (b.get c) (fun _ _ => value) 0 b.mValidSize) b.cell)) :=
  congrArg (Option.map b.withCells) (channelLoop_some (fun _ _ _ => rfl) b.cell)

theorem mixValue_fault {op : α → α → α} {value : α} (h : ¬ ValueAligned stride b dst) :
    b.mixValue (.simd stride) op dst value = none := by
  obtain ⟨hvectors, hnot⟩ := not_forall.mp h
  obtain ⟨c, hnot⟩ := not_forall.mp hnot
  obtain ⟨hc, hnot⟩ := not_forall.mp hnot
  refine congrArg (Option.map b.withCells) (channelLoop_none hc (fun m => ?_) b.cell)
  rw [valueLoop_simd, if_neg fun haligned => hnot (haligned hvectors)]

theorem mixValue_simd_iff {op : α → α → α} {value : α} :
    b.mixValue (.simd stride) op dst value = b.mixValue .scalar op dst value ↔
      ValueAligned stride b dst := by
  rw [mixValue_scalar]
  constructor
  · intro heq
    by_contra hnot
    rw [mixValue_fault hnot] at heq
    cases heq
  · intro haligned
    refine congrArg (Option.map b.withCells) (channelLoop_some (fun c hc m => ?_) b.cell)
    rw [valueLoop_simd, if_pos fun hvectors => haligned hvectors c hc]

/-- **The builds agree.**  For every length, every pair of offsets and every place of the
two buffers in memory: the SIMD build of `add` and `multiply` does what the scalar build
does if and only if all its vectors are aligned, and faults otherwise.  Sums and products
of two samples do not depend on the order. -/
theorem builds_agree_iff [AddCommMagma α] [CommMagma α] (m : ℕ → α)
    (b buffer : AudioBuffer w α) (dst src length offsetSrc offsetDst stride : ℕ) (value : α) :
    (addIn (.simd stride) m b buffer dst src length offsetSrc offsetDst =
        addIn .scalar m b buffer dst src length offsetSrc offsetDst ↔
      MixAligned stride b buffer dst src length offsetSrc offsetDst) ∧
    (multiplyIn (.simd stride) m b buffer dst src length offsetSrc offsetDst =
        multiplyIn .scalar m b buffer dst src length offsetSrc offsetDst ↔
      MixAligned stride b buffer dst src length offsetSrc offsetDst) ∧
    (b.addValue (.simd stride) dst value = b.addValue .scalar dst value ↔
      ValueAligned stride b dst) ∧
    (b.multiplyValue (.simd stride) dst value = b.multiplyValue .scalar dst value ↔
      ValueAligned stride b dst) :=
  ⟨mixIn_simd_iff fun x y => add_comm y x, mixIn_simd_iff fun x y => mul_comm y x,
    mixValue_simd_iff, mixValue_simd_iff⟩

/-- Frames from the second one on: the addresses are not aligned, and the first vector is
a fault. -/
theorem not_builds_agree_at_offset :
    let b : AudioBuffer 8 ℕ := ⟨id, 8, 8, 1, by decide, by decide, by decide, by decide⟩
    (addIn .scalar id b b 0 16 0 1 0).isSome ∧ addIn (.simd 4) id b b 0 16 0 1 0 = none ∧
      addIn (.simd 4) id b b 0 16 0 1 0 ≠ addIn .scalar id b b 0 16 0 1 0 := by
  intro b
  have hfault : addIn (.simd 4) id b b 0 16 0 1 0 = none :=
    Option.isNone_iff_eq_none.mp (by decide)
  refine ⟨rfl, hfault, fun heq => ?_⟩
  rw [hfault] at heq
  cases heq

end Builds

/-! ### Buffers as `resize` lays them out -/

section Whole

variable {B : BufferType} {b buffer : AudioBuffer B.sizeBits α}

/-- The channels start at multiples of the stride. -/
theorem Whole.dvd_get (h : b.Whole) {c : ℕ} (hc : c < b.mChannels) : stride B ∣ b.get c := by
  rw [get_eq hc]
  rcases h.2 with hone | hdvd
  · rw [show c = 0 by omega, Nat.zero_mul]
    exact Nat.dvd_zero _
  · exact hdvd.mul_left c

/-- Between buffers whose storage and channels are aligned, the offsets decide. -/
theorem Whole.mixAligned_iff (hb : b.Whole) (hbuffer : buffer.Whole) {dst src : ℕ}
    (hdst : stride B ∣ dst) (hsrc : stride B ∣ src)
    (hchannels : 0 < min buffer.mChannels b.mChannels) (length offsetSrc offsetDst : ℕ) :
    MixAligned (stride B) b buffer dst src length offsetSrc offsetDst ↔
      (b.mixLength buffer length offsetSrc offsetDst / stride B ≠ 0 →
        stride B ∣ offsetSrc ∧ stride B ∣ offsetDst) := by
  have hiff : ∀ c < min buffer.mChannels b.mChannels,
      (stride B ∣ src + buffer.get c + offsetSrc ∧ stride B ∣ dst + b.get c + offsetDst ↔
        stride B ∣ offsetSrc ∧ stride B ∣ offsetDst) := fun c hc =>
    and_congr (Nat.dvd_add_right (Nat.dvd_add hsrc (hbuffer.dvd_get (by omega))))
      (Nat.dvd_add_right (Nat.dvd_add hdst (hb.dvd_get (by omega))))
  refine forall_congr' fun _ => ?_
  exact ⟨fun h => (hiff 0 hchannels).mp (h 0 hchannels), fun h c hc => (hiff c hc).mpr h⟩

end Whole

end AudioBuffer

end Tklb
