import Tklb.AudioBuffer

/-!
# Interleaved samples

An interleaved array holds frame after frame; sample `c` of frame `i` is at
`i * chan + c`.  `setFromInterleaved` spreads such an array over the channels of
a buffer and `putInterleaved` collects it again.  Both walk through the array
with a stride, one channel at a time, in unsigned arithmetic and with clamped
lengths.

`setFromInterleaved_cell` and `putInterleaved_eq` say what they do in closed
form; `interleaved_round_trip`, that they are inverse to each other on any
stretch of frames, in both orders.

### Main results

* `deinterleaveChannel` and `interleaveChannel` are the inner loops of the source, with two
  counters each, one of which runs through the array in steps of `chan`.
* `setFromInterleaved_cell` replaces the two nested loops by one equation for a cell: which
  sample of the array is in it, or that it is what it was.
* `putInterleaved_eq_modifyGrid` does the same for the array that is written.
* `interleaved_round_trip` puts the two together, in both orders, with the frames in front of
  and behind the stretch unchanged.

### What is load-bearing

All of this needs that no index wraps.  The sums and products of the source are in `Size`, and
`i * chan + c` for the last frame has to fit; the hypotheses of the round trip are the ones
under which the source's own clamping makes that so, and nothing else.  That the samples of
different frames and channels go to different places is arithmetic of strides
(`Foundation.stride_injective`), used once for the array and once for the buffer.
-/

namespace Tklb.AudioBuffer

open Foundation

variable {w : ℕ} {α : Type}

/-! ### The interleaved layout -/

/-- Every position of an interleaved array belongs to one frame and channel. -/
theorem exists_frame_channel {k n ch : ℕ} (h : k < n * ch) :
    ∃ i < n, ∃ c < ch, k = c + i * ch := by
  have hch : 0 < ch := Nat.pos_of_ne_zero fun h0 => by simp [h0] at h
  refine ⟨k / ch, ?_, k % ch, Nat.mod_lt k hch, ?_⟩
  · exact (Nat.div_lt_iff_lt_mul hch).mpr h
  · rw [Nat.mul_comm]
    exact (Nat.mod_add_div k ch).symm

/-- The positions of the samples of `n` frames are the first `n * ch`. -/
theorem channel_add_frame_lt {i n c ch : ℕ} (hi : i < n) (hc : c < ch) :
    c + i * ch < n * ch := by
  have hrow : (i + 1) * ch ≤ n * ch := Nat.mul_le_mul_right ch hi
  rw [Nat.add_mul, Nat.one_mul] at hrow
  omega

/-- Different samples have different positions. -/
theorem gridInjective_interleaved (n ch : ℕ) :
    GridInjective ch n fun c i => c + i * ch := by
  intro c hc i _ d hd j _ h
  simp only [Nat.add_comm _ (_ * ch)] at h
  have hsame := stride_injective hc hd h
  exact ⟨hsame.2, hsame.1⟩

/-! ### `setFromInterleaved` -/

section SetFromInterleaved

variable {b : AudioBuffer w α} {x : ℕ → α} {length n offsetSrc offsetDst : ℕ}

/-- One channel, when the positions it reads are representable. -/
theorem deinterleaveChannel_eq {ch start c : ℕ}
    (hposition : ∀ i < n, c + start + i * ch < 2 ^ w) (hfit : offsetDst + n ≤ b.size)
    (m : ℕ → α) :
    b.deinterleaveChannel x n ch start offsetDst c m =
      modifyEach n (fun i => b.get c + offsetDst + i) (fun i _ => x (c + start + i * ch)) m := by
  unfold deinterleaveChannel
  rw [countUp_stride hposition
    (fun i j (m : ℕ → α) => Function.update m (b.get c + wrap w (i + offsetDst)) (x j))]
  unfold modifyEach
  apply countUp_congr
  intro i hi
  have hframe : i + offsetDst < 2 ^ w := by
    have := b.size_lt
    omega
  funext m
  rw [wrap_of_lt hframe, Nat.add_comm i offsetDst, ← Nat.add_assoc]

/-- **`setFromInterleaved` in closed form.**  Frame `offsetSrc + i` of the array
goes to frame `offsetDst + i` of the buffer, as far as the buffer reaches. -/
theorem setFromInterleaved_cell (hpos : 1 ≤ n) (hn : n = min (b.size - offsetDst) length)
    (hindex : (offsetSrc + n) * b.mChannels ≤ 2 ^ w) :
    (b.setFromInterleaved x length b.mChannels offsetSrc offsetDst).cell =
      modifyGrid b.mChannels n (fun c i => b.get c + offsetDst + i)
        (fun c i _ => x ((offsetSrc + i) * b.mChannels + c)) b.cell := by
  have hroom : min (wsub w b.size offsetDst) length = n := by
    rw [wsub_of_le b.size_lt (by omega), hn]
  have hposition : ∀ c < b.mChannels, ∀ i < n,
      c + offsetSrc * b.mChannels + i * b.mChannels < 2 ^ w := by
    intro c hc i hi
    have := channel_add_frame_lt (Nat.add_lt_add_left hi offsetSrc) hc
    rw [Nat.add_mul] at this
    omega
  unfold setFromInterleaved modifyGrid
  simp only [hroom, Nat.min_self, withCells_cell]
  apply countUp_congr
  intro c hc
  have hstart : wrap w (offsetSrc * b.mChannels) = offsetSrc * b.mChannels :=
    wrap_of_lt (by have := hposition c hc 0 hpos; omega)
  funext m
  rw [hstart, deinterleaveChannel_eq (hposition c hc) (by omega)]
  congr 1
  funext i _
  rw [Nat.add_mul, Nat.add_comm _ c, Nat.add_assoc]

theorem setFromInterleaved_mValidSize (hpos : 1 ≤ n)
    (hn : n = min (b.size - offsetDst) length) (ch : ℕ) :
    (b.setFromInterleaved x length ch offsetSrc offsetDst).mValidSize = offsetDst + n := by
  have hlt := b.size_lt
  show wrap w (offsetDst + min (wsub w b.size offsetDst) length) = offsetDst + n
  rw [wsub_of_le hlt (by omega), ← hn, wrap_of_lt (by omega)]

/-- The samples after `setFromInterleaved`. -/
theorem sample_setFromInterleaved (hpos : 1 ≤ n) (hn : n = min (b.size - offsetDst) length)
    (hindex : (offsetSrc + n) * b.mChannels ≤ 2 ^ w) {c i : ℕ} (hc : c < b.mChannels)
    (hi : i < b.size) :
    (b.setFromInterleaved x length b.mChannels offsetSrc offsetDst).sample c i =
      if offsetDst ≤ i ∧ i < offsetDst + n then
        x ((offsetSrc + (i - offsetDst)) * b.mChannels + c)
      else b.sample c i := by
  have hfit : offsetDst + n ≤ b.size := by omega
  rw [← sample_modifyGrid (f := fun c i _ => x ((offsetSrc + i) * b.mChannels + c)) hfit hc hi,
    ← setFromInterleaved_cell hpos hn hindex]
  rfl

end SetFromInterleaved

/-! ### `putInterleaved` -/

section PutInterleaved

variable {b : AudioBuffer w α} {y : ℕ → α} {length offset n : ℕ}

/-- One channel, when the positions it writes are representable. -/
theorem interleaveChannel_eq {ch c : ℕ} (hposition : ∀ i < n, c + i * ch < 2 ^ w)
    (hvalid : offset + n ≤ b.mValidSize) (m : ℕ → α) :
    b.interleaveChannel n ch offset c m =
      modifyEach n (fun i => c + i * ch) (fun i _ => b.sample c (offset + i)) m := by
  unfold interleaveChannel
  rw [countUp_stride hposition
    (fun i j (m : ℕ → α) => Function.update m j (b.cell (b.get c + wrap w (i + offset))))]
  unfold modifyEach
  apply countUp_congr
  intro i hi
  have hframe : i + offset < 2 ^ w := by
    have := b.valid_lt
    omega
  funext m
  rw [wrap_of_lt hframe, Nat.add_comm i offset]
  rfl

/-- **`putInterleaved` in closed form.**  It writes frame after frame of the channels it is
asked for, and divides the number of samples by the number of channels of the buffer. -/
theorem putInterleaved_eq_modifyGrid {chan ch : ℕ}
    (hch : (if chan = 0 then b.mChannels else min chan b.mChannels) = ch)
    (hoffset : offset ≤ b.mValidSize)
    (hn : n = min (b.mValidSize - offset) (if length = 0 then b.mValidSize else length))
    (hindex : n * ch < 2 ^ w) :
    b.putInterleaved y length offset chan =
      (ch * n / b.mChannels,
        modifyGrid ch n (fun c i => c + i * ch) (fun c i _ => b.sample c (offset + i)) y) := by
  have hlength : min (wsub w b.mValidSize offset)
      (if length = 0 then b.mValidSize else length) = n := by
    rw [wsub_of_le b.valid_lt hoffset, hn]
  have hvalid : offset + n ≤ b.mValidSize := by omega
  have hcount : ∀ c < ch, 0 + c * n < 2 ^ w := by
    intro c hc
    have hle : c * n ≤ ch * n := Nat.mul_le_mul_right n hc.le
    rw [Nat.mul_comm ch] at hle
    omega
  -- the number of samples is counted by a second loop variable
  have hloop := countUp_stride hcount
    (fun c _ (m : ℕ → α) => b.interleaveChannel n ch offset c m) y
  rw [wrap_of_lt (Nat.two_pow_pos w), Nat.zero_add, Nat.mul_comm ch n,
    wrap_of_lt hindex] at hloop
  unfold putInterleaved
  simp only [hch, hlength, hloop, Nat.mul_comm n ch]
  congr 1
  unfold modifyGrid
  apply countUp_congr
  intro c hc
  funext m
  apply interleaveChannel_eq _ hvalid
  intro i hi
  exact (channel_add_frame_lt hi hc).trans hindex

/-- Without a number of channels it emits the frames from `offset` on, at most `length` of
them (`length = 0` asks for all) and only valid ones. -/
theorem putInterleaved_eq (hch : 1 ≤ b.mChannels) (hoffset : offset ≤ b.mValidSize)
    (hn : n = min (b.mValidSize - offset) (if length = 0 then b.mValidSize else length))
    (hindex : n * b.mChannels < 2 ^ w) :
    b.putInterleaved y length offset 0 =
      (n, modifyGrid b.mChannels n (fun c i => c + i * b.mChannels)
        (fun c i _ => b.sample c (offset + i)) y) := by
  rw [putInterleaved_eq_modifyGrid (if_pos rfl) hoffset hn hindex,
    Nat.mul_div_cancel_left n hch]

/-- The array after `putInterleaved`: the frames in order, and nothing else. -/
theorem putInterleaved_apply (hch : 1 ≤ b.mChannels) (hoffset : offset ≤ b.mValidSize)
    (hn : n = min (b.mValidSize - offset) (if length = 0 then b.mValidSize else length))
    (hindex : n * b.mChannels < 2 ^ w) {i c : ℕ} (hi : i < n) (hc : c < b.mChannels) :
    (b.putInterleaved y length offset 0).2 (c + i * b.mChannels) = b.sample c (offset + i) := by
  rw [putInterleaved_eq hch hoffset hn hindex]
  exact modifyGrid_addr (gridInjective_interleaved n b.mChannels) hc hi

theorem putInterleaved_of_le (hch : 1 ≤ b.mChannels) (hoffset : offset ≤ b.mValidSize)
    (hn : n = min (b.mValidSize - offset) (if length = 0 then b.mValidSize else length))
    (hindex : n * b.mChannels < 2 ^ w) {k : ℕ} (hk : n * b.mChannels ≤ k) :
    (b.putInterleaved y length offset 0).2 k = y k := by
  rw [putInterleaved_eq hch hoffset hn hindex]
  apply modifyGrid_of_ne
  intro c hc i hi h
  have := channel_add_frame_lt hi hc
  omega

end PutInterleaved

/-! ### Round trips -/

section RoundTrip

variable {b : AudioBuffer w α} {n offsetSrc offsetDst : ℕ}

/-- Frames of the buffer have representable positions in an interleaved array. -/
theorem mul_mChannels_lt (hn : n ≤ b.size) : n * b.mChannels < 2 ^ w := by
  have hle : n * b.mChannels ≤ b.size * b.mChannels := Nat.mul_le_mul_right _ hn
  rw [Nat.mul_comm b.size] at hle
  exact hle.trans_lt (b.channels_mul_size_le.trans_lt b.buffer_lt)

/-- What was stored by `setFromInterleaved` comes out of `putInterleaved` again. -/
theorem putInterleaved_setFromInterleaved (x y : ℕ → α) (hch : 1 ≤ b.mChannels) (hpos : 1 ≤ n)
    (hfit : offsetDst + n ≤ b.size) (hindex : (offsetSrc + n) * b.mChannels ≤ 2 ^ w) :
    ((b.setFromInterleaved x n b.mChannels offsetSrc offsetDst).putInterleaved y n
        offsetDst 0).1 = n ∧
      ∀ k, ((b.setFromInterleaved x n b.mChannels offsetSrc offsetDst).putInterleaved y n
        offsetDst 0).2 k =
          if k < n * b.mChannels then x (offsetSrc * b.mChannels + k) else y k := by
  have hn : n = min (b.size - offsetDst) n := by omega
  have hvalid : (b.setFromInterleaved x n b.mChannels offsetSrc offsetDst).mValidSize =
      offsetDst + n := setFromInterleaved_mValidSize hpos hn _
  have hsample := fun c (hc : c < b.mChannels) i (hi : i < b.size) =>
    sample_setFromInterleaved (x := x) hpos hn hindex hc hi
  have hindex' : n * b.mChannels < 2 ^ w := mul_mChannels_lt (by omega)
  -- all that is used of the filled buffer from here on
  have hshape : (b.setFromInterleaved x n b.mChannels offsetSrc offsetDst).mChannels =
      b.mChannels := rfl
  generalize b.setFromInterleaved x n b.mChannels offsetSrc offsetDst = filled
    at hvalid hsample hshape ⊢
  rw [← hshape] at hch hindex' hsample ⊢
  have hemit : n = min (filled.mValidSize - offsetDst)
      (if n = 0 then filled.mValidSize else n) := by
    rw [hvalid, if_neg (by omega)]
    omega
  have hoffset : offsetDst ≤ filled.mValidSize := by omega
  constructor
  · rw [putInterleaved_eq hch hoffset hemit hindex']
  · intro k
    by_cases hk : k < n * filled.mChannels
    · obtain ⟨i, hi, c, hc, rfl⟩ := exists_frame_channel hk
      rw [if_pos hk, putInterleaved_apply hch hoffset hemit hindex' hi hc,
        hsample c hc _ (by omega), if_pos (by omega), Nat.add_sub_cancel_left, Nat.add_mul,
        Nat.add_assoc, Nat.add_comm c]
    · rw [if_neg hk, putInterleaved_of_le hch hoffset hemit hindex' (Nat.not_lt.mp hk)]

/-- What `putInterleaved` emitted is stored again by `setFromInterleaved`. -/
theorem setFromInterleaved_putInterleaved {d : AudioBuffer w α} (y : ℕ → α)
    (hch : 1 ≤ b.mChannels) (hshape : d.mChannels = b.mChannels) (hsize : d.size = b.size)
    (hindex : b.mValidSize * b.mChannels < 2 ^ w) {c i : ℕ} (hc : c < b.mChannels)
    (hvalid : i < b.mValidSize) (hi : i < b.size) :
    (d.setFromInterleaved (b.putInterleaved y 0 0 0).2 (b.putInterleaved y 0 0 0).1
      b.mChannels 0 0).sample c i = b.sample c i := by
  have hemit : b.mValidSize = min (b.mValidSize - 0) (if 0 = 0 then b.mValidSize else 0) := by
    rw [if_pos rfl, Nat.sub_zero, Nat.min_self]
  have hcount : (b.putInterleaved y 0 0 0).1 = b.mValidSize := by
    rw [putInterleaved_eq hch (Nat.zero_le _) hemit hindex]
  -- the target may be shorter than what is valid in the source
  have hstored : (0 + min (d.size - 0) b.mValidSize) * d.mChannels ≤ 2 ^ w := by
    have hle : min d.size b.mValidSize * b.mChannels ≤ b.mValidSize * b.mChannels :=
      Nat.mul_le_mul_right _ (Nat.min_le_right _ _)
    rw [Nat.zero_add, Nat.sub_zero, hshape]
    omega
  rw [hcount, ← hshape, sample_setFromInterleaved (by omega) rfl hstored (hshape ▸ hc)
    (hsize ▸ hi), if_pos (by omega), hshape, Nat.zero_add, Nat.sub_zero, Nat.add_comm _ c,
    putInterleaved_apply hch (Nat.zero_le _) hemit hindex hvalid hc, Nat.zero_add]

end RoundTrip

/-- **Interleaved samples.**  `setFromInterleaved` stores the frames of the array
it is given, in order, from `offsetDst` on and nowhere else; `putInterleaved`
gets exactly them back.  In the other order, every frame of a buffer that is
valid survives the way through an array into a buffer of the same shape. -/
theorem interleaved_round_trip :
    (∀ (b : AudioBuffer w α) (x y : ℕ → α) (n offsetSrc offsetDst : ℕ),
      1 ≤ b.mChannels → 1 ≤ n → offsetDst + n ≤ b.size →
      (offsetSrc + n) * b.mChannels ≤ 2 ^ w →
      let b' := b.setFromInterleaved x n b.mChannels offsetSrc offsetDst
      let emitted := b'.putInterleaved y n offsetDst 0
      (∀ c < b.mChannels, ∀ i < n,
        b'.sample c (offsetDst + i) = x ((offsetSrc + i) * b.mChannels + c)) ∧
      (∀ c < b.mChannels, ∀ i < b.size, i < offsetDst ∨ offsetDst + n ≤ i →
        b'.sample c i = b.sample c i) ∧
      b'.mValidSize = offsetDst + n ∧
      emitted.1 = n ∧
      (∀ k < n * b.mChannels, emitted.2 k = x (offsetSrc * b.mChannels + k)) ∧
      (∀ k, n * b.mChannels ≤ k → emitted.2 k = y k)) ∧
    (∀ (b d : AudioBuffer w α) (y : ℕ → α),
      1 ≤ b.mChannels → d.mChannels = b.mChannels → d.size = b.size →
      b.mValidSize * b.mChannels < 2 ^ w →
      let emitted := b.putInterleaved y 0 0 0
      let d' := d.setFromInterleaved emitted.2 emitted.1 b.mChannels 0 0
      ∀ c < b.mChannels, ∀ i < b.mValidSize, i < b.size → d'.sample c i = b.sample c i) := by
  constructor
  · intro b x y n offsetSrc offsetDst hch hpos hfit hindex
    have hn : n = min (b.size - offsetDst) n := by omega
    have hemitted := putInterleaved_setFromInterleaved x y hch hpos hfit hindex
    refine ⟨?_, ?_, setFromInterleaved_mValidSize hpos hn _, hemitted.1, ?_, ?_⟩
    · intro c hc i hi
      rw [sample_setFromInterleaved hpos hn hindex hc (by omega), if_pos (by omega),
        Nat.add_sub_cancel_left]
    · intro c hc i hi hout
      rw [sample_setFromInterleaved hpos hn hindex hc hi, if_neg (by omega)]
    · intro k hk
      rw [hemitted.2 k, if_pos hk]
    · intro k hk
      rw [hemitted.2 k, if_neg (Nat.not_lt.mpr hk)]
  · intro b d y hch hshape hsize hindex _ _ c hc i hvalid hi
    exact setFromInterleaved_putInterleaved y hch hshape hsize hindex hc hvalid hi

/-- Three frames in two channels, all of them valid. -/
def stereo : AudioBuffer 8 ℕ :=
  ⟨fun k => 100 + k, 6, 3, 2, by decide, by decide, by decide, by decide⟩

/-- Two frames, from the second of the array on, stored from the second of the
buffer on. -/
theorem interleaved_round_trip_stereo :
    let b := stereo.setFromInterleaved id 2 2 1 1
    let emitted := b.putInterleaved id 2 1 0
    let whole := stereo.putInterleaved id 0 0 0
    (b.sample 1 2 = 5 ∧ b.sample 0 0 = stereo.sample 0 0 ∧ b.mValidSize = 3 ∧
      emitted.1 = 2 ∧ emitted.2 3 = 5 ∧ emitted.2 4 = 4) ∧
    (stereo.setFromInterleaved whole.2 whole.1 2 0 0).sample 1 2 = stereo.sample 1 2 := by
  obtain ⟨hput, hget⟩ := interleaved_round_trip (w := 8) (α := ℕ)
  obtain ⟨hstored, hkept, hvalid, hcount, hemitted, hrest⟩ :=
    hput stereo id id 2 1 1 (by decide) (by decide) (by decide) (by decide)
  refine ⟨⟨hstored 1 (by decide) 1 (by decide), ?_, hvalid, hcount, ?_, ?_⟩, ?_⟩
  · exact hkept 0 (by decide) 0 (by decide) (Or.inl (by decide))
  · exact hemitted 3 (by decide)
  · exact hrest 4 (by decide)
  · exact hget stereo stereo id (by decide) rfl rfl (by decide) 1 (by decide) 2 (by decide)
      (by decide)

end Tklb.AudioBuffer
