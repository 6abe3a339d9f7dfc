import Mathlib.Algebra.Order.BigOperators.Group.List
import Mathlib.Tactic.NormNum
import Tklb.ResamplerLinear

/-!
# Blocks of a signal

A signal may be resampled in one call or block by block.  `outputs` is the concatenation
of what the calls return in a channel, `stream` the same in terms of the frames of the
signal.

A block after the first one starts with the last sample that was read, at position `0` of
the block; in the whole signal the same output frame lies wherever the multiples of the
factor put it.  The two agree for every signal only if this is an input frame, and only for
this one output frame: in `splitInvariant_iff` a signal is cut at most once, and the second
block is shorter than the distance of two output frames.

### What is load-bearing

The statement quantifies over signals, so one signal that is heard is enough to refute it.  The
three lemmas about a cut each find one:

* `cut_position` — the output frame of the cut is an input frame in one way of resampling, and a
  mix in the other;
* `cut_last` — the output frame behind it needs samples that the second block does not have;
* `cut_not_full` — a block that ends because the output is full has too many frames.

What is left after these is `Seamless`, and `stream_cut` shows that such a cut is not heard.
-/

namespace Tklb

open Foundation

namespace ResamplerLinear

variable {w : ℕ}

/-- The concatenation of what `process` returns in channel `c` for the buffers, one call
after the other. -/
def outputs (c : ℕ) : ResamplerLinear → List (AudioBuffer w ℚ × AudioBuffer w ℚ) → List ℚ
  | _, [] => []
  | r, (input, out) :: calls =>
      let p := r.process input out
      (List.range p.1).map (p.2.2.sample c) ++ outputs c p.2.1 calls

/-- A call for the `length` frames of a signal from `start` on.  `behind e` is what lies in
memory behind a block that ends in front of frame `e`. -/
structure IsCall (r : ResamplerLinear) (chan : ℕ) (signal behind : ℕ → ℕ → ℚ)
    (start length : ℕ) (call : AudioBuffer w ℚ × AudioBuffer w ℚ) : Prop where
  channels : call.1.mChannels = chan
  outChannels : call.2.mChannels = chan
  valid : call.1.mValidSize = length
  frames : ∀ c < chan, ∀ i < length, call.1.sample c i = signal c (start + i)
  behind : ∀ c < chan, call.1.sample c length = behind c (start + length)
  room : call.2.size = r.calculateBufferSize length

/-- The calls for consecutive blocks of a signal.  Each starts where the one before has ended; how
long they are is arbitrary, and what lies behind a block in memory as well. -/
def AreCalls (r : ResamplerLinear) (chan : ℕ) (signal behind : ℕ → ℕ → ℚ) :
    ℕ → List ℕ → List (AudioBuffer w ℚ × AudioBuffer w ℚ) → Prop
  | _, [], [] => True
  | start, length :: lengths, call :: calls =>
      IsCall r chan signal behind start length call ∧
        AreCalls r chan signal behind (start + length) lengths calls
  | _, _, _ => False

/-- **Split invariance.**  For every signal that is cut into blocks of the given lengths, the
blocks give the output of the whole signal. -/
def SplitInvariant (w rateIn rateOut : ℕ) (lengths : List ℕ) : Prop :=
  ∀ (r : ResamplerLinear) (chan : ℕ) (signal behind : ℕ → ℕ → ℚ)
    (calls whole : List (AudioBuffer w ℚ × AudioBuffer w ℚ)),
    AreCalls (r.init rateIn rateOut) chan signal behind 0 lengths calls →
    AreCalls (r.init rateIn rateOut) chan signal behind 0 [lengths.sum] whole →
    ∀ c < chan, outputs c (r.init rateIn rateOut) calls =
      outputs c (r.init rateIn rateOut) whole

/-! ### The stream of one channel -/

section Stream

variable (factor : ℚ)

/-- `calculateBufferSize`, in terms of the factor. -/
def room (length : ℕ) : ℕ := ⌊(length : ℚ) / factor + 1 / 2⌋₊ + 10

/-- The number of frames returned for a block. -/
def blockCount (length : ℕ) : ℕ := frameCount factor length (room factor length)

/-- The frames of a block, and the one behind it. -/
def blockFrames (x behind : ℕ → ℚ) (start length i : ℕ) : ℚ :=
  if i < length then x (start + i) else behind (start + length)

/-- What is returned for the blocks. -/
def stream (x behind : ℕ → ℚ) : ℚ → ℕ → List ℕ → List ℚ
  | _, _, [] => []
  | last, start, length :: lengths =>
      (List.range (blockCount factor length)).map
          (frameAt factor (blockFrames x behind start length) last) ++
        stream x behind (tap factor (blockFrames x behind start length) last
          (blockCount factor length)) (start + length) lengths

end Stream

/-- **A run of calls returns the stream of its signal.**  The right hand side knows no buffers and
no memory: it is a function of the signal, of what lies behind each block, and of the sample that
was kept at the start. -/
theorem outputs_eq_stream {r : ResamplerLinear} (hfactor : 0 < r.mFactor)
    (hroom : ∀ n, r.calculateBufferSize n = room r.mFactor n) {chan c : ℕ}
    {signal behind : ℕ → ℕ → ℚ} (hc : c < chan) {lengths : List ℕ} :
    ∀ {start : ℕ} {s : ResamplerLinear} {calls : List (AudioBuffer w ℚ × AudioBuffer w ℚ)},
      s.mFactor = r.mFactor → AreCalls r chan signal behind start lengths calls →
      outputs c s calls =
        stream r.mFactor (signal c) (behind c) (s.mLastFrame c) start lengths := by
  induction lengths with
  | nil =>
      intro start s calls _ hcalls
      cases calls with
      | nil => rfl
      | cons call calls => exact hcalls.elim
  | cons length lengths ih =>
      intro start s calls hs hcalls
      cases calls with
      | nil => exact hcalls.elim
      | cons call calls =>
          obtain ⟨hcall, hrest⟩ := hcalls
          obtain ⟨input, out⟩ := call
          obtain ⟨hchannels, houtChannels, hvalid, hframes, hbehind, hsize⟩ := hcall
          dsimp only at hchannels houtChannels hvalid hframes hbehind hsize
          have hsame : ∀ i ≤ length, input.sample c i =
              blockFrames (signal c) (behind c) start length i := by
            intro i hi
            rcases hi.lt_or_eq with hlt | rfl
            · rw [blockFrames, if_pos hlt, hframes c hc i hlt]
            · rw [blockFrames, if_neg (lt_irrefl i), hbehind c hc]
          have hcount : frameCount s.mFactor input.mValidSize out.size =
              blockCount r.mFactor length := by
            rw [hs, hvalid, hsize, hroom]
            rfl
          have hpos : 0 < s.mFactor := hs ▸ hfactor
          have hle : input.mChannels ≤ out.mChannels := (hchannels.trans houtChannels.symm).le
          have hread : ∀ j < blockCount r.mFactor length,
              input.sample c ⌊(j : ℚ) * r.mFactor⌋₊ =
                blockFrames (signal c) (behind c) start length ⌊(j : ℚ) * r.mFactor⌋₊ :=
            fun j hj => hsame _ (floor_le_of_lt_frameCount hfactor hj)
          have htap : tap r.mFactor (input.sample c) (s.mLastFrame c)
              (blockCount r.mFactor length) =
              tap r.mFactor (blockFrames (signal c) (behind c) start length) (s.mLastFrame c)
                (blockCount r.mFactor length) :=
            tap_congr hread
          have hlast := process_last hpos hle (c := c) (by omega)
          rw [hcount, hs, htap] at hlast
          have hmap : (List.range (s.process input out).1).map
              ((s.process input out).2.2.sample c) =
              (List.range (blockCount r.mFactor length)).map (frameAt r.mFactor
                (blockFrames (signal c) (behind c) start length) (s.mLastFrame c)) := by
            rw [process_count hpos hle (by omega), hcount]
            refine List.map_congr_left fun k hk => ?_
            rw [List.mem_range] at hk
            rw [process_sample hpos hle (by omega) (hcount ▸ hk), hs]
            exact frameAt_congr fun j hj => hread j (hj.trans_lt hk)
          have hlater := ih (s := (s.process input out).2.1) hs hrest
          rw [outputs, stream, ← hlast, hmap, hlater]

/-! ### How many frames are returned -/

section Count

variable {factor : ℚ} (hfactor : 0 < factor)

theorem lt_room (n : ℕ) : (n : ℚ) / factor + 19 / 2 < room factor n := by
  have := Nat.lt_floor_add_one ((n : ℚ) / factor + 1 / 2)
  rw [room]
  push_cast
  linarith

include hfactor

theorem room_le (n : ℕ) : (room factor n : ℚ) ≤ (n : ℚ) / factor + 21 / 2 := by
  have hnonneg : 0 ≤ (n : ℚ) / factor + 1 / 2 := by positivity
  have := Nat.floor_le hnonneg
  rw [room]
  push_cast
  linarith

theorem blockCount_pos (n : ℕ) : 0 < blockCount factor n :=
  lt_min (Nat.succ_pos _) (Nat.ceil_pos.mpr (by positivity))

/-- The output is full before the input is used up only if there are more than nine output
frames for an input frame. -/
theorem lt_blockCount_mul (n : ℕ) :
    (n : ℚ) + 1 ≤ blockCount factor n * factor ∨
      blockCount factor n = room factor n ∧ 19 / 2 < 1 / factor := by
  rcases min_choice (room factor n) ⌈((n : ℚ) + 1) / factor⌉₊ with hmin | hmin
  · by_cases hend : (n : ℚ) + 1 ≤ blockCount factor n * factor
    · exact Or.inl hend
    · refine Or.inr ⟨hmin, ?_⟩
      have hfull : (room factor n : ℚ) < ((n : ℚ) + 1) / factor := by
        rw [lt_div_iff₀ hfactor, ← hmin]
        exact not_le.mp hend
      have hmore : (n : ℚ) / factor + 19 / 2 < room factor n := lt_room n
      rw [add_div] at hfull
      linarith
  · left
    rw [blockCount, frameCount, hmin, ← div_le_iff₀ hfactor]
    exact Nat.le_ceil _

/-- Then every block returns nine frames and a half too much. -/
theorem le_blockCount (hup : 19 / 2 < 1 / factor) (n : ℕ) :
    (n : ℚ) / factor + 19 / 2 ≤ blockCount factor n := by
  rcases lt_blockCount_mul hfactor n with hend | ⟨hfull, -⟩
  · have hle : ((n : ℚ) + 1) / factor ≤ blockCount factor n := (div_le_iff₀ hfactor).mpr hend
    rw [add_div] at hle
    linarith
  · rw [hfull]
    exact le_of_lt (lt_room n)

theorem le_length_stream (hup : 19 / 2 < 1 / factor) (x behind : ℕ → ℚ) (lengths : List ℕ) :
    ∀ (last : ℚ) (start : ℕ), (lengths.sum : ℚ) / factor + 19 / 2 * lengths.length ≤
      (stream factor x behind last start lengths).length := by
  induction lengths with
  | nil => simp [stream]
  | cons n lengths ih =>
      intro last start
      have hhead := le_blockCount hfactor hup n
      have htail := ih (tap factor (blockFrames x behind start n) last (blockCount factor n))
        (start + n)
      rw [stream, List.length_append, List.length_map, List.length_range, List.sum_cons,
        List.length_cons, Nat.cast_add, Nat.cast_add, Nat.cast_add, Nat.cast_one, add_div]
      linarith

end Count

/-! ### Where the blocks give the stream of the signal -/

section Cut

variable {factor : ℚ}

section Places

variable {x behind : ℕ → ℚ} {last : ℚ} {start : ℕ}

theorem stream_head {n j : ℕ} {lengths : List ℕ} (hj : j < blockCount factor n) :
    (stream factor x behind last start (n :: lengths))[j]? =
      some (frameAt factor (blockFrames x behind start n) last j) := by
  rw [stream, List.getElem?_append_left (by simpa using hj)]
  simp [hj]

theorem stream_tail (factor : ℚ) (x behind : ℕ → ℚ) (last : ℚ) (start n j : ℕ)
    (lengths : List ℕ) :
    (stream factor x behind last start (n :: lengths))[blockCount factor n + j]? =
      (stream factor x behind (tap factor (blockFrames x behind start n) last
        (blockCount factor n)) (start + n) lengths)[j]? := by
  rw [stream, List.getElem?_append_right (by simp)]
  simp

/-- What is at some place of the stream of a single block. -/
theorem of_stream_single {n j : ℕ} {v : ℚ}
    (h : (stream factor x behind last start [n])[j]? = some v) :
    j < blockCount factor n ∧ frameAt factor (blockFrames x behind start n) last j = v := by
  by_cases hj : j < blockCount factor n
  · rw [stream_head hj] at h
    exact ⟨hj, Option.some.inj h⟩
  · obtain ⟨i, rfl⟩ := Nat.exists_eq_add_of_le (not_lt.mp hj)
    rw [stream_tail, stream] at h
    simp at h

theorem blockFrames_of_lt {n i : ℕ} (hi : i < n) :
    blockFrames x behind start n i = x (start + i) := if_pos hi

end Places

variable (hfactor : 0 < factor)

include hfactor

/-- **The first frame of the second block** is the last sample of the first block, and in
the whole signal it is this sample only if the position is that of an input frame. -/
theorem cut_position {n₁ n₂ N : ℕ} {lengths : List ℕ} (hN : n₁ < N)
    (hend : (n₁ : ℚ) + 1 ≤ blockCount factor n₁ * factor)
    (h : ∀ x behind, stream factor x behind 0 0 (n₁ :: n₂ :: lengths) =
      stream factor x behind 0 0 [N]) :
    ∃ m : ℕ, (blockCount factor n₁ : ℚ) * factor = m ∧ n₁ < m ∧ m ≤ N := by
  obtain ⟨k, hk⟩ := Nat.exists_eq_succ_of_ne_zero (blockCount_pos hfactor n₁).ne'
  have hfirst : ∀ x behind, k + 1 < blockCount factor N ∧
      frameAt factor (blockFrames x behind 0 N) 0 (k + 1) =
        blockFrames x behind 0 n₁ ⌊(k : ℚ) * factor⌋₊ := by
    intro x behind
    have hplace := stream_tail factor x behind 0 0 n₁ 0 (n₂ :: lengths)
    rw [stream_head (blockCount_pos hfactor n₂), frameAt_zero, hk, tap_succ, h x behind] at hplace
    exact of_stream_single hplace
  have hinside : ⌊(k : ℚ) * factor⌋₊ ≤ n₁ :=
    floor_le_of_lt_frameCount hfactor (show k < blockCount factor n₁ by omega)
  have hb : n₁ < ⌊((k + 1 : ℕ) : ℚ) * factor⌋₊ := by
    rw [hk] at hend
    exact Nat.le_floor (by push_cast at hend ⊢; exact hend)
  have hbN : ⌊((k + 1 : ℕ) : ℚ) * factor⌋₊ ≤ N :=
    floor_le_of_lt_frameCount hfactor (hfirst 0 0).1
  refine ⟨⌊((k + 1 : ℕ) : ℚ) * factor⌋₊, ?_, hb, hbN⟩
  -- a signal that is `1` at the next position and `0` elsewhere
  generalize hbdef : ⌊((k + 1 : ℕ) : ℚ) * factor⌋₊ = b at hb hbN ⊢
  have hvalue := (hfirst (Pi.single b 1) (Pi.single b 1)).2
  have hold : blockFrames (Pi.single b 1) (Pi.single b 1) 0 n₁ ⌊(k : ℚ) * factor⌋₊ = 0 := by
    rw [blockFrames, Pi.single_eq_of_ne (by omega), Pi.single_eq_of_ne (by omega), ite_self]
  have hwhole : blockFrames (Pi.single b 1) (Pi.single b 1) 0 N ⌊(k : ℚ) * factor⌋₊ = 0 := by
    rw [blockFrames_of_lt (by omega), Pi.single_eq_of_ne (by omega)]
  have hnew : blockFrames (Pi.single b 1) (Pi.single b 1) 0 N b = 1 := by
    rcases hbN.lt_or_eq with hlt | rfl
    · rw [blockFrames_of_lt hlt, Nat.zero_add, Pi.single_eq_same]
    · rw [blockFrames, if_neg (lt_irrefl b), Nat.zero_add, Pi.single_eq_same]
  rw [frameAt, tap_succ, hbdef, hold, hwhole, hnew] at hvalue
  rw [hk]
  linarith

/-- **The second frame after the cut** would have to be mixed from the frames at the start of
the block, which in the whole signal have been passed. -/
theorem cut_last {n₁ n₂ N : ℕ} {lengths : List ℕ} (hn₂ : 0 < n₂)
    (hend : (n₁ : ℚ) + 1 ≤ blockCount factor n₁ * factor)
    (h : ∀ x behind, stream factor x behind 0 0 (n₁ :: n₂ :: lengths) =
      stream factor x behind 0 0 [N]) :
    blockCount factor n₂ = 1 ∧ lengths = [] := by
  -- a signal that is `1` at the first frame of the second block
  obtain ⟨x, hx⟩ : ∃ x : ℕ → ℚ, x = Pi.single n₁ 1 := ⟨_, rfl⟩
  have hlater : ∀ i, n₁ < i → blockFrames x 0 0 N i = 0 := by
    intro i hi
    rw [blockFrames, hx, Pi.single_eq_of_ne (by omega), Pi.zero_apply, ite_self]
  have hzero : frameAt factor (blockFrames x 0 0 N) 0 (blockCount factor n₁ + 1) = 0 := by
    have hpassed : n₁ < ⌊((blockCount factor n₁ : ℕ) : ℚ) * factor⌋₊ :=
      Nat.le_floor (by push_cast; exact hend)
    have hnext : ⌊((blockCount factor n₁ : ℕ) : ℚ) * factor⌋₊ ≤
        ⌊((blockCount factor n₁ + 1 : ℕ) : ℚ) * factor⌋₊ :=
      Nat.floor_le_floor (mul_le_mul_of_nonneg_right (by push_cast; linarith) hfactor.le)
    rw [frameAt, tap_succ, hlater _ hpassed, hlater _ (hpassed.trans_le hnext)]
    ring
  have hfirst : blockFrames x 0 n₁ n₂ 0 = 1 := by
    rw [blockFrames_of_lt hn₂, hx, Nat.add_zero, Pi.single_eq_same]
  have hcontra : ∀ v : ℚ, 0 < v → (stream factor x 0 (tap factor (blockFrames x 0 0 n₁) 0
      (blockCount factor n₁)) (0 + n₁) (n₂ :: lengths))[1]? ≠ some v := by
    intro v hv hplace
    rw [← stream_tail, h x 0] at hplace
    have := (of_stream_single hplace).2
    linarith
  have hone : blockCount factor n₂ = 1 := by
    by_contra hne
    have hlt : 1 < blockCount factor n₂ := by
      have := blockCount_pos hfactor n₂
      omega
    refine hcontra _ ?_ (stream_head hlt)
    have hfract := Nat.lt_floor_add_one (((1 : ℕ) : ℚ) * factor)
    have hsecond : blockFrames x 0 n₁ n₂ ⌊((1 : ℕ) : ℚ) * factor⌋₊ = 0 ∨
        blockFrames x 0 n₁ n₂ ⌊((1 : ℕ) : ℚ) * factor⌋₊ = 1 := by
      rcases Nat.eq_zero_or_pos ⌊((1 : ℕ) : ℚ) * factor⌋₊ with hsame | hpos
      · rw [hsame]
        exact Or.inr hfirst
      · left
        rw [blockFrames, hx, Pi.single_eq_of_ne (by omega), Pi.zero_apply, ite_self]
    have htap : ∀ last, tap factor (blockFrames x 0 (0 + n₁) n₂) last 1 = 1 := by
      intro last
      rw [tap_succ, Nat.cast_zero, zero_mul, Nat.floor_zero, Nat.zero_add, hfirst]
    rw [frameAt, htap, Nat.zero_add]
    rcases hsecond with hsecond | hsecond
    · rw [hsecond]
      linarith
    · rw [hsecond]
      linarith
  refine ⟨hone, ?_⟩
  cases lengths with
  | nil => rfl
  | cons n₃ lengths =>
      have hplace := stream_tail factor x 0 (tap factor (blockFrames x 0 0 n₁) 0
        (blockCount factor n₁)) (0 + n₁) n₂ 0 (n₃ :: lengths)
      rw [hone, stream_head (blockCount_pos hfactor n₃), frameAt_zero, tap_succ, Nat.cast_zero,
        zero_mul, Nat.floor_zero, Nat.zero_add, hfirst] at hplace
      refine absurd ?_ (hcontra 1 one_pos)
      rw [Nat.zero_add]
      exact hplace

/-- **The output cannot be full** before the input is used up: then every block returns too
many frames. -/
theorem cut_not_full {n₁ n₂ : ℕ} {lengths : List ℕ} {x behind : ℕ → ℚ}
    (h : stream factor x behind 0 0 (n₁ :: n₂ :: lengths) =
      stream factor x behind 0 0 [(n₁ :: n₂ :: lengths).sum]) (n : ℕ) :
    (n : ℚ) + 1 ≤ blockCount factor n * factor := by
  rcases lt_blockCount_mul hfactor n with hend | ⟨-, hup⟩
  · exact hend
  · exfalso
    have hlong := le_length_stream hfactor hup x behind (n₁ :: n₂ :: lengths) 0 0
    have hshort : (blockCount factor (n₁ :: n₂ :: lengths).sum : ℚ) ≤
        room factor (n₁ :: n₂ :: lengths).sum := Nat.cast_le.mpr (Nat.min_le_left _ _)
    have hroom := room_le hfactor (n₁ :: n₂ :: lengths).sum
    rw [h, stream, stream, List.append_nil, List.length_map, List.length_range,
      List.length_cons, List.length_cons] at hlong
    push_cast at hlong hshort hroom
    have : (0 : ℚ) ≤ lengths.length := Nat.cast_nonneg _
    linarith

omit hfactor in
/-- The count, from the position of the first frame that is not returned. -/
theorem blockCount_eq {n k : ℕ} (hone : 1 ≤ factor) (hlo : (k : ℚ) * factor < n + 1)
    (hhi : (n : ℚ) + 1 ≤ (k + 1) * factor) : blockCount factor n = k + 1 := by
  have hpos : 0 < factor := by linarith
  have hceil : ⌈((n : ℚ) + 1) / factor⌉₊ = k + 1 := by
    rw [Nat.ceil_eq_iff (Nat.succ_ne_zero k), Nat.succ_sub_one, lt_div_iff₀ hpos,
      div_le_iff₀ hpos]
    exact ⟨hlo, by push_cast; exact hhi⟩
  rw [blockCount, frameCount, hceil]
  apply min_eq_right
  have hmore : (n : ℚ) / factor + 19 / 2 < room factor n := lt_room n
  have hk : (k : ℚ) < (n + 1) / factor := (lt_div_iff₀ hpos).mpr hlo
  have hstep : 1 / factor ≤ 1 := (div_le_one hpos).mpr hone
  rw [add_div] at hk
  have hle : ((k + 1 : ℕ) : ℚ) ≤ room factor n := by
    push_cast
    linarith
  exact_mod_cast hle

omit hfactor in
/-- **A cut that is not heard.**  The second block returns one frame, and it is an input
frame of the signal. -/
theorem stream_cut {n₁ n₂ k m : ℕ} (hn₁ : 0 < n₁) (hstep : (n₂ : ℚ) + 1 ≤ factor)
    (hm : (k : ℚ) * factor = m) (hlo : n₁ < m) (hhi : m ≤ n₁ + n₂) (x behind : ℕ → ℚ) :
    stream factor x behind 0 0 [n₁, n₂] = stream factor x behind 0 0 [n₁ + n₂] := by
  have hn₂ : (0 : ℚ) ≤ n₂ := Nat.cast_nonneg _
  have hlo' : (n₁ : ℚ) + 1 ≤ m := by exact_mod_cast hlo
  have hhi' : (m : ℚ) ≤ n₁ + n₂ := by exact_mod_cast hhi
  obtain ⟨i, rfl⟩ : ∃ i, k = i + 1 := by
    refine Nat.exists_eq_succ_of_ne_zero ?_
    rintro rfl
    rw [Nat.cast_zero, zero_mul] at hm
    linarith [(Nat.cast_nonneg n₁ : (0 : ℚ) ≤ n₁)]
  have hlast : (i : ℚ) * factor = m - factor := by
    rw [← hm]
    push_cast
    ring
  have hfirst : blockCount factor n₁ = i + 1 := by
    refine blockCount_eq (by linarith) (by linarith) ?_
    push_cast at hm
    linarith
  have hsecond : blockCount factor n₂ = 1 :=
    blockCount_eq (k := 0) (by linarith) (by push_cast; linarith) (by push_cast; linarith)
  have hwhole : blockCount factor (n₁ + n₂) = i + 1 + 1 := by
    refine blockCount_eq (by linarith) ?_ ?_
    · rw [hm]
      push_cast
      linarith
    · push_cast at hm ⊢
      linarith
  -- the first block reads frames that are in front of the cut
  have hread : ∀ j < i + 1, blockFrames x behind 0 n₁ ⌊(j : ℚ) * factor⌋₊ =
      blockFrames x behind 0 (n₁ + n₂) ⌊(j : ℚ) * factor⌋₊ := by
    intro j hj
    have hlt : ⌊(j : ℚ) * factor⌋₊ < n₁ := by
      rw [Nat.floor_lt' hn₁.ne']
      have hji : (j : ℚ) * factor ≤ i * factor :=
        mul_le_mul_of_nonneg_right (by exact_mod_cast Nat.lt_succ_iff.mp hj) (by linarith)
      linarith
    rw [blockFrames_of_lt hlt, blockFrames_of_lt (by omega)]
  have hframe : frameAt factor (blockFrames x behind 0 (n₁ + n₂)) 0 (i + 1) =
      tap factor (blockFrames x behind 0 n₁) 0 (i + 1) := by
    rw [frameAt, hm, Nat.floor_natCast, sub_self, zero_mul, add_zero]
    exact (tap_congr hread).symm
  have hmap : (List.range (i + 1)).map (frameAt factor (blockFrames x behind 0 n₁) 0) =
      (List.range (i + 1)).map (frameAt factor (blockFrames x behind 0 (n₁ + n₂)) 0) := by
    refine List.map_congr_left fun j hj => frameAt_congr fun l hl => hread l ?_
    exact hl.trans_lt (List.mem_range.mp hj)
  simp only [stream, hfirst, hsecond, hwhole, List.append_nil]
  rw [List.range_succ (n := i + 1), List.map_append, ← hmap]
  simp [hframe]

end Cut

/-! ### Every signal -/

/-- Every signal can be cut into blocks that fit `Size`. -/
theorem exists_calls (r : ResamplerLinear) (x behind : ℕ → ℚ) {lengths : List ℕ} :
    ∀ start : ℕ, (∀ n ∈ lengths, n < 2 ^ w ∧ r.calculateBufferSize n < 2 ^ w) →
      ∃ calls : List (AudioBuffer w ℚ × AudioBuffer w ℚ),
        AreCalls r 1 (fun _ => x) (fun _ => behind) start lengths calls := by
  induction lengths with
  | nil => exact fun _ _ => ⟨[], trivial⟩
  | cons n lengths ih =>
      intro start hfit
      obtain ⟨hn, hroom⟩ := hfit n List.mem_cons_self
      obtain ⟨calls, hcalls⟩ := ih (start + n) fun m hm => hfit m (List.mem_cons_of_mem _ hm)
      refine ⟨(AudioBuffer.mono (blockFrames x behind start n) ⟨n, hn⟩,
        AudioBuffer.mono (fun _ => 0) ⟨_, hroom⟩) :: calls, ⟨rfl, rfl, rfl, ?_, ?_, ?_⟩, hcalls⟩
      · intro c hc i hi
        obtain rfl := Nat.lt_one_iff.mp hc
        rw [AudioBuffer.sample_mono, blockFrames_of_lt hi]
      · intro c hc
        obtain rfl := Nat.lt_one_iff.mp hc
        rw [AudioBuffer.sample_mono, blockFrames, if_neg (lt_irrefl n)]
      · exact AudioBuffer.size_mono _ _

/-- **The side condition.**  The signal is one block, or it is cut once: less than one output
frame from its end, with an output frame behind the cut, at the position of an input
frame. -/
def Seamless (rateIn rateOut : ℕ) : List ℕ → Prop
  | [_] => True
  | [n₁, n₂] => (n₂ + 1) * rateOut ≤ rateIn ∧
      ∃ k m : ℕ, k * rateIn = m * rateOut ∧ n₁ < m ∧ m ≤ n₁ + n₂
  | _ => False

section Rates

variable {rateIn rateOut : ℕ}

theorem calculateBufferSize_init (r : ResamplerLinear) (n : ℕ) :
    (r.init rateIn rateOut).calculateBufferSize n = room (rateIn / rateOut : ℚ) n := by
  rw [calculateBufferSize, estimateOut, room, init]
  dsimp only
  rw [div_div_eq_mul_div, mul_div_assoc]

theorem room_mono {factor : ℚ} (hfactor : 0 < factor) {n N : ℕ} (h : n ≤ N) :
    room factor n ≤ room factor N := by
  have hle : (n : ℚ) / factor ≤ N / factor :=
    div_le_div_of_nonneg_right (by exact_mod_cast h) hfactor.le
  exact Nat.add_le_add_right (Nat.floor_le_floor (by linarith)) _

/-- Split invariance, in terms of the streams. -/
theorem splitInvariant_iff_stream (hIn : 0 < rateIn) (hOut : 0 < rateOut) {lengths : List ℕ}
    (hsum : lengths.sum < 2 ^ w) (hroom : room (rateIn / rateOut : ℚ) lengths.sum < 2 ^ w) :
    SplitInvariant w rateIn rateOut lengths ↔ ∀ x behind : ℕ → ℚ,
      stream (rateIn / rateOut) x behind 0 0 lengths =
        stream (rateIn / rateOut) x behind 0 0 [lengths.sum] := by
  have hfactor : (0 : ℚ) < rateIn / rateOut := by positivity
  have hrun : ∀ (r : ResamplerLinear) {chan c : ℕ} {signal behind : ℕ → ℕ → ℚ}, c < chan →
      ∀ {lengths : List ℕ} {calls : List (AudioBuffer w ℚ × AudioBuffer w ℚ)},
      AreCalls (r.init rateIn rateOut) chan signal behind 0 lengths calls →
      outputs c (r.init rateIn rateOut) calls =
        stream (rateIn / rateOut) (signal c) (behind c) 0 0 lengths :=
    fun r _ _ _ _ hc _ _ hcalls =>
      outputs_eq_stream (r := r.init rateIn rateOut) hfactor
        (fun n => r.calculateBufferSize_init n) hc rfl hcalls
  constructor
  · intro h x behind
    let r : ResamplerLinear := ⟨0, 0, 0, 0, 0⟩
    have hfit : ∀ n ≤ lengths.sum, n < 2 ^ w ∧
        (r.init rateIn rateOut).calculateBufferSize n < 2 ^ w := by
      intro n hn
      rw [calculateBufferSize_init]
      exact ⟨hn.trans_lt hsum, (room_mono hfactor hn).trans_lt hroom⟩
    obtain ⟨calls, hcalls⟩ := exists_calls (w := w) (r.init rateIn rateOut) x behind 0
      fun n hn => hfit n (List.single_le_sum (fun _ _ => Nat.zero_le _) n hn)
    obtain ⟨whole, hwhole⟩ := @exists_calls w (r.init rateIn rateOut) x behind [lengths.sum] 0
      fun n hn => hfit n (List.mem_singleton.mp hn).le
    have hsame := h r 1 _ _ calls whole hcalls hwhole 0 one_pos
    rwa [hrun r one_pos hcalls, hrun r one_pos hwhole] at hsame
  · intro h r chan signal behind calls whole hcalls hwhole c hc
    rw [hrun r hc hcalls, hrun r hc hwhole, h]

/-- **The blocks give the output of the whole signal if and only if** it is one block, or
there is one cut, less than one output frame from the end, and the output frame behind the
cut is an input frame. -/
theorem splitInvariant_iff (hIn : 0 < rateIn) (hOut : 0 < rateOut) {lengths : List ℕ}
    (hpos : ∀ n ∈ lengths, 0 < n) (hsum : lengths.sum < 2 ^ w)
    (hroom : room (rateIn / rateOut : ℚ) lengths.sum < 2 ^ w) :
    SplitInvariant w rateIn rateOut lengths ↔ Seamless rateIn rateOut lengths := by
  have hfactor : (0 : ℚ) < rateIn / rateOut := by positivity
  have hrateOut : (0 : ℚ) < rateOut := by exact_mod_cast hOut
  have hmul : ∀ k m : ℕ, (k : ℚ) * (rateIn / rateOut) = m ↔ k * rateIn = m * rateOut := by
    intro k m
    rw [← mul_div_assoc, div_eq_iff hrateOut.ne']
    exact_mod_cast Iff.rfl
  have hdiv : ∀ n : ℕ, (n : ℚ) + 1 ≤ rateIn / rateOut ↔ (n + 1) * rateOut ≤ rateIn := by
    intro n
    rw [le_div_iff₀ hrateOut]
    exact_mod_cast Iff.rfl
  rw [splitInvariant_iff_stream hIn hOut hsum hroom]
  match lengths, hpos with
  | [], _ =>
      refine iff_of_false (fun h => ?_) id
      have hlength := congrArg List.length (h 0 0)
      rw [stream, stream, stream, List.append_nil, List.length_map, List.length_range,
        List.length_nil] at hlength
      exact (blockCount_pos hfactor _).ne hlength
  | [n], _ =>
      refine iff_of_true (fun x behind => ?_) trivial
      rw [List.sum_singleton]
  | [n₁, n₂], hpos =>
      have hn₁ := hpos n₁ (by simp)
      have hn₂ := hpos n₂ (by simp)
      have htotal : [n₁, n₂].sum = n₁ + n₂ := by simp
      constructor
      · intro h
        have hend := cut_not_full hfactor (h 0 0)
        rw [htotal] at h
        obtain ⟨m, hm, hlo, hhi⟩ := cut_position hfactor (by omega) (hend n₁) h
        have hone := (cut_last hfactor hn₂ (hend n₁) h).1
        have hlast := hend n₂
        rw [hone, Nat.cast_one, one_mul] at hlast
        exact ⟨(hdiv n₂).mp hlast, _, m, (hmul _ _).mp hm, hlo, hhi⟩
      · rintro ⟨hstep, k, m, hm, hlo, hhi⟩ x behind
        rw [htotal]
        exact stream_cut hn₁ ((hdiv n₂).mpr hstep) ((hmul k m).mpr hm) hlo hhi x behind
  | n₁ :: n₂ :: n₃ :: lengths, hpos =>
      refine iff_of_false (fun h => ?_) id
      have hend := cut_not_full hfactor (h 0 0)
      have hnil := (cut_last hfactor (hpos n₂ (by simp)) (hend n₁) h).2
      cases hnil

/-- Three frames in for one frame out, and a block of two frames behind the cut. -/
theorem splitInvariant_third : SplitInvariant 32 3 1 [2, 2] := by
  refine (splitInvariant_iff (by decide) (by decide) (by decide) (by decide) ?_).mpr ?_
  · have hle := room_le (show (0 : ℚ) < (3 : ℕ) / (1 : ℕ) by norm_num) [2, 2].sum
    have hlt : (room ((3 : ℕ) / (1 : ℕ)) [2, 2].sum : ℚ) < (2 ^ 32 : ℕ) := by
      refine hle.trans_lt ?_
      norm_num
    exact_mod_cast hlt
  · exact ⟨by decide, 1, 3, by decide, by decide, by decide⟩

/-- Two frames in for one frame out: two blocks of two frames return four frames, the whole
signal three. -/
theorem not_splitInvariant_half : ¬ SplitInvariant 32 48000 24000 [2, 2] := by
  have hfactor : (0 : ℚ) < (48000 : ℕ) / (24000 : ℕ) := by norm_num
  have hroom : room ((48000 : ℕ) / (24000 : ℕ)) [2, 2].sum < 2 ^ 32 := by
    have hlt : (room ((48000 : ℕ) / (24000 : ℕ)) [2, 2].sum : ℚ) < (2 ^ 32 : ℕ) := by
      refine (room_le hfactor _).trans_lt ?_
      norm_num
    exact_mod_cast hlt
  rw [splitInvariant_iff_stream (by decide) (by decide) (by decide) hroom]
  intro h
  have hblock : blockCount ((48000 : ℕ) / (24000 : ℕ)) 2 = 2 :=
    blockCount_eq (k := 1) (by norm_num) (by norm_num) (by norm_num)
  have hwhole : blockCount ((48000 : ℕ) / (24000 : ℕ)) 4 = 3 :=
    blockCount_eq (k := 2) (by norm_num) (by norm_num) (by norm_num)
  have hlength := congrArg List.length (h 0 0)
  rw [show [2, 2].sum = 4 from rfl] at hlength
  simp only [stream, List.append_nil, List.length_append, List.length_map,
    List.length_range, hblock, hwhole] at hlength
  cases hlength

end Rates

end ResamplerLinear

end Tklb
