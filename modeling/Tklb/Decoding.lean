import Tklb.AudioBuffer.Interleaving
import Tklb.AudioBuffer.Setting

/-!
# Decoding files

`Wave::load` and `vorbis::load` ask a decoder for frames until they have as many as the
header of the file announces, and store each portion behind the ones before.  What a
decoder does is a parameter: how many frames each call returns, and which.  From the first
call on that returns none, all of them do.  The samples are those converted to the type of
the buffer; `Vorbis.load` is the function for any type but `float`, which needs no loop.

Neither loop looks at what a call returns other than to add it up, so a decoder that runs
dry below the announced number keeps it going for ever.  `decodeLoop_eq_some_iff` says
where a loop ends, `Stored` is the invariant of what it has stored, and `load_decodes_iff`
puts them together.

### What is load-bearing

`decodeLoop` is the loop of both functions with its body left open, and `UsesLoop` says how each
of them uses it, so the result is proved once and applied to two functions that store their
portions differently.  That they store them where they should is `Stores`, which each of the two
meets for its own overload of `set`.

The loop compares the sum of what was returned with the announced number, both in `Size`, so it
can also end late or early because a sum wraps; `EndsAfter` is about the sums as they are
computed.  A decoder that has returned no frame will not return one later, which is assumed of
the libraries; with it, a loop that has not ended when the decoder runs dry never ends.  Fuel is
no part of the result: `load_decodes_iff` says that some number of calls is enough, or that none
is.

`Completes` is the exact condition, and it contains the announced number, so a file that lies
about its length is not decoded, whatever is in it.
-/

namespace Tklb

open Foundation

/-- A file that has been opened, and the calls of its decoder.  What a decoder returns in a call is
a number of frames and their samples; it may return fewer frames than it announced, or more, and
once it has returned none it goes on to return none. -/
structure Decoder (α : Type) where
  /-- `wav.totalPCMFrameCount`, or `streamLength` -/
  total : ℕ
  channels : ℕ
  /-- How many frames a call returns. -/
  got : ℕ → ℕ
  /-- The frames a call returns, by channel. -/
  sample : ℕ → ℕ → ℕ → α
  stops : ∀ n, got n = 0 → got (n + 1) = 0

namespace Decoder

variable {α : Type}

/-- The number of frames that the first `n` calls return. -/
def decoded (d : Decoder α) (n : ℕ) : ℕ := ∑ i ∈ Finset.range n, d.got i

@[simp] theorem decoded_zero (d : Decoder α) : d.decoded 0 = 0 := rfl

theorem decoded_succ (d : Decoder α) (n : ℕ) : d.decoded (n + 1) = d.decoded n + d.got n :=
  Finset.sum_range_succ d.got n

theorem decoded_mono (d : Decoder α) : Monotone d.decoded :=
  monotone_nat_of_le_succ fun n => d.decoded_succ n ▸ Nat.le_add_right _ _

/-- After a call that returns nothing there is nothing more. -/
theorem decoded_eq_of_got_eq_zero (d : Decoder α) {n m : ℕ} (hzero : d.got n = 0) (hle : n ≤ m) :
    d.decoded m = d.decoded n := by
  have hall : ∀ k, d.got (n + k) = 0 := by
    intro k
    induction k with
    | zero => exact hzero
    | succ k ih => exact d.stops (n + k) ih
  obtain ⟨k, rfl⟩ := Nat.exists_eq_add_of_le hle
  induction k with
  | zero => rfl
  | succ k ih => rw [← Nat.add_assoc, decoded_succ, hall k, ih (Nat.le_add_right n k), Nat.add_zero]

end Decoder

/-! ### The code -/

section Code

variable {w : ℕ} {α : Type}

/-- `while (read < total) { got = …; …; read += got; }`, with the number of calls so far;
`store` is what an iteration does to the output.  `none` if the fuel is used up. -/
def decodeLoop (store : ℕ → ℕ → AudioBuffer w α → AudioBuffer w α) (d : Decoder α) :
    ℕ → ℕ → ℕ → AudioBuffer w α → Option (ℕ × ℕ × AudioBuffer w α)
  | fuel, call, read, out =>
      if read < d.total then
        match fuel with
        | 0 => none
        | fuel + 1 =>
            decodeLoop store d fuel (call + 1) (wrap w (read + wrap w (d.got call)))
              (store call read out)
      else some (call, read, out)

variable {B : BufferType} [Zero α]

/-- `out.resize(total, channels)`, where `Size` and `Channel` may be narrower than the
arguments. -/
def prepare (B : BufferType) (d : Decoder α) (out : AudioBuffer B.sizeBits α) (stored : Bool) :
    AudioBuffer B.sizeBits α :=
  out.resize B ⟨wrap B.sizeBits d.total, wrap_lt _ _⟩ ⟨wrap 8 d.channels, wrap_lt _ _⟩ stored

namespace Wave

/-- `out.setFromInterleaved(chunkBuffer.data(), got, uchar(wav.channels), 0, read)` -/
def store (d : Decoder α) (call read : ℕ) (out : AudioBuffer w α) : AudioBuffer w α :=
  out.setFromInterleaved (fun k => d.sample call (k % d.channels) (k / d.channels))
    (wrap w (d.got call)) (wrap 8 d.channels) 0 read

/-- `load(data, length, out)`: the result, the number of calls of the decoder, and the output
afterwards.  `file` is `none` if the data is no wave file; `stored` tells whether there is
memory for the output. -/
def load (B : BufferType) (file : Option (Decoder α)) (out : AudioBuffer B.sizeBits α)
    (stored : Bool) (fuel : ℕ) : Option (Bool × ℕ × AudioBuffer B.sizeBits α) :=
  match file with
  | none => some (false, 0, out)
  | some d =>
      (decodeLoop (store d) d fuel 0 0 (prepare B d out stored)).map fun s =>
        if s.2.1 = 0 then (false, s.1, s.2.2) else (true, s.1, s.2.2.setValidSize s.2.1)

end Wave

namespace Vorbis

/-- `out.set(bufferPtr, got, channels, 0, read)` -/
def store (d : Decoder α) (call read : ℕ) (out : AudioBuffer w α) : AudioBuffer w α :=
  out.setArrays (d.sample call) (wrap w (d.got call)) (wrap 8 d.channels) 0 read

/-- `load(data, length, out)` for samples that are no `float`s. -/
def load (B : BufferType) (file : Option (Decoder α)) (out : AudioBuffer B.sizeBits α)
    (stored : Bool) (fuel : ℕ) : Option (Bool × ℕ × AudioBuffer B.sizeBits α) :=
  match file with
  | none => some (false, 0, out)
  | some d =>
      (decodeLoop (store d) d fuel 0 0 (prepare B d out stored)).map fun s =>
        (s.2.1 ≠ 0, s.1, s.2.2.setValidSize s.2.1)

end Vorbis

end Code

/-! ### Where the loop ends -/

section Loop

variable {w : ℕ} {α : Type} {store : ℕ → ℕ → AudioBuffer w α → AudioBuffer w α} {d : Decoder α}

/-- The loop ends after `n` calls: it is the first time that the number of frames, as `Size`,
is not less than the announced one. -/
def EndsAfter (w : ℕ) (d : Decoder α) (n : ℕ) : Prop :=
  (∀ m < n, wrap w (d.decoded m) < d.total) ∧ d.total ≤ wrap w (d.decoded n)

/-- The output after `n` calls. -/
def afterCalls (store : ℕ → ℕ → AudioBuffer w α → AudioBuffer w α) (d : Decoder α)
    (b : AudioBuffer w α) : ℕ → AudioBuffer w α
  | 0 => b
  | n + 1 => store n (wrap w (d.decoded n)) (afterCalls store d b n)

theorem wrap_decoded_succ (d : Decoder α) (n : ℕ) :
    wrap w (wrap w (d.decoded n) + wrap w (d.got n)) = wrap w (d.decoded (n + 1)) := by
  rw [d.decoded_succ, wrap, wrap, wrap, wrap, ← Nat.add_mod]

/-- The same for a loop that has made `j` calls already.  The induction over the loop needs it, as
`j` goes up by one in every round. -/
structure EndsFrom (w : ℕ) (d : Decoder α) (j n : ℕ) : Prop where
  le : j ≤ n
  before : ∀ m, j ≤ m → m < n → wrap w (d.decoded m) < d.total
  ended : d.total ≤ wrap w (d.decoded n)

theorem endsAfter_iff_endsFrom {n : ℕ} : EndsAfter w d n ↔ EndsFrom w d 0 n := by
  constructor
  · rintro ⟨hbefore, hended⟩
    exact ⟨Nat.zero_le n, fun m _ hm => hbefore m hm, hended⟩
  · intro h
    exact ⟨fun m hm => h.before m (Nat.zero_le m) hm, h.ended⟩

/-- There is no call if the frames suffice. -/
theorem endsFrom_iff_of_le {j n : ℕ} (hended : d.total ≤ wrap w (d.decoded j)) :
    EndsFrom w d j n ↔ n = j := by
  constructor
  · intro h
    by_contra hne
    have hbefore := h.before j le_rfl (lt_of_le_of_ne h.le (Ne.symm hne))
    exact absurd hbefore (Nat.not_lt.mpr hended)
  · rintro rfl
    exact ⟨le_rfl, fun m hlo hhi => absurd hhi (Nat.not_lt.mpr hlo), hended⟩

/-- Otherwise there is one. -/
theorem endsFrom_iff_of_lt {j n : ℕ} (hmore : wrap w (d.decoded j) < d.total) :
    EndsFrom w d j n ↔ EndsFrom w d (j + 1) n := by
  constructor
  · intro h
    have hne : j ≠ n := by
      rintro rfl
      exact absurd hmore (Nat.not_lt.mpr h.ended)
    exact ⟨lt_of_le_of_ne h.le hne, fun m hm => h.before m (Nat.le_of_succ_le hm), h.ended⟩
  · intro h
    refine ⟨Nat.le_of_succ_le h.le, fun m hm hmn => ?_, h.ended⟩
    rcases hm.lt_or_eq with hlt | rfl
    · exact h.before m hlt hmn
    · exact hmore

/-- A loop that has all frames ends at once. -/
theorem decodeLoop_of_le {b : AudioBuffer w α} {r : ℕ × ℕ × AudioBuffer w α} {fuel j : ℕ}
    (hended : d.total ≤ wrap w (d.decoded j)) :
    decodeLoop store d fuel j (wrap w (d.decoded j)) (afterCalls store d b j) = some r ↔
      ∃ n ≤ j + fuel, EndsFrom w d j n ∧
        (n, wrap w (d.decoded n), afterCalls store d b n) = r := by
  unfold decodeLoop
  rw [if_neg (Nat.not_lt.mpr hended), Option.some.injEq]
  simp only [endsFrom_iff_of_le hended]
  constructor
  · intro hr
    exact ⟨j, Nat.le_add_right j fuel, rfl, hr⟩
  · rintro ⟨_, -, rfl, hr⟩
    exact hr

/-- From any call on. -/
theorem decodeLoop_from (b : AudioBuffer w α) {r : ℕ × ℕ × AudioBuffer w α} (fuel : ℕ) :
    ∀ j, decodeLoop store d fuel j (wrap w (d.decoded j)) (afterCalls store d b j) = some r ↔
      ∃ n ≤ j + fuel, EndsFrom w d j n ∧
        (n, wrap w (d.decoded n), afterCalls store d b n) = r := by
  induction fuel with
  | zero =>
      intro j
      rcases Nat.lt_or_ge (wrap w (d.decoded j)) d.total with hmore | hended
      · unfold decodeLoop
        rw [if_pos hmore]
        refine iff_of_false nofun ?_
        rintro ⟨n, hn, hend, -⟩
        have hle := ((endsFrom_iff_of_lt hmore).mp hend).le
        omega
      · exact decodeLoop_of_le hended
  | succ fuel ih =>
      intro j
      rcases Nat.lt_or_ge (wrap w (d.decoded j)) d.total with hmore | hended
      · unfold decodeLoop
        rw [if_pos hmore]
        dsimp only
        rw [wrap_decoded_succ]
        refine (ih (j + 1)).trans ?_
        rw [Nat.succ_add_eq_add_succ]
        simp only [endsFrom_iff_of_lt hmore]
      · exact decodeLoop_of_le hended

/-- **Where the loop ends**, given enough fuel.  The loop ends after the first portion that the
decoder refuses or that is empty; what it returns is the number of portions, the frames counted in
`Size`, and the buffer with all of them stored. -/
theorem decodeLoop_eq_some_iff {b : AudioBuffer w α} {fuel : ℕ}
    {r : ℕ × ℕ × AudioBuffer w α} :
    decodeLoop store d fuel 0 0 b = some r ↔
      ∃ n ≤ fuel, EndsAfter w d n ∧
        (n, wrap w (d.decoded n), afterCalls store d b n) = r := by
  have hstart := @decodeLoop_from w α store d b r fuel 0
  rw [d.decoded_zero, wrap_of_lt (Nat.two_pow_pos w), Nat.zero_add] at hstart
  simp only [endsAfter_iff_endsFrom]
  exact hstart

/-- It ends at most once. -/
theorem EndsAfter.unique {n m : ℕ} (hn : EndsAfter w d n) (hm : EndsAfter w d m) : n = m := by
  rcases lt_trichotomy n m with hlt | heq | hgt
  · exact absurd (hm.1 n hlt) (Nat.not_lt.mpr hn.2)
  · exact heq
  · exact absurd (hn.1 m hgt) (Nat.not_lt.mpr hm.2)

/-- Every call before the last one returns something. -/
theorem EndsAfter.got_pos {n j : ℕ} (h : EndsAfter w d n) (hj : j < n) : 0 < d.got j := by
  refine Nat.pos_of_ne_zero fun hzero => ?_
  have hsame := d.decoded_eq_of_got_eq_zero hzero hj.le
  have hbefore := h.1 j hj
  rw [← hsame] at hbefore
  exact absurd hbefore (Nat.not_lt.mpr h.2)

end Loop

/-! ### What is stored -/

section Store

variable {w : ℕ} {α : Type} {d : Decoder α}

/-- The frames of the first `n` calls are in the output, one portion behind the other.  This is the
invariant of the loop, and it needs the room for all of them. -/
structure Stored (d : Decoder α) (b : AudioBuffer w α) (n : ℕ) (out : AudioBuffer w α) :
    Prop where
  size : out.size = b.size
  channels : out.mChannels = b.mChannels
  frames : ∀ j < n, ∀ c < b.mChannels, ∀ i < d.got j,
    out.sample c (d.decoded j + i) = d.sample j c i

/-- A portion goes to the frames from `read` on, and nowhere else.  The two loaders differ in how
they do that, and in nothing else that matters here. -/
structure StoresAt (d : Decoder α) (call read : ℕ) (out out' : AudioBuffer w α) : Prop where
  size : out'.size = out.size
  channels : out'.mChannels = out.mChannels
  written : ∀ c < out.mChannels, ∀ i < d.got call, out'.sample c (read + i) = d.sample call c i
  kept : ∀ c < out.mChannels, ∀ i < read, out'.sample c i = out.sample c i

/-- One portion behind the other. -/
theorem Stored.step {b out out' : AudioBuffer w α} {n : ℕ} (h : Stored d b n out)
    (hstore : StoresAt d n (d.decoded n) out out') : Stored d b (n + 1) out' where
  size := hstore.size.trans h.size
  channels := hstore.channels.trans h.channels
  frames := by
    intro j hj c hc i hi
    rw [← h.channels] at hc
    rcases Nat.lt_succ_iff_lt_or_eq.mp hj with hlt | rfl
    · have hbefore : d.decoded j + i < d.decoded n := by
        have hmono := d.decoded_mono hlt
        rw [Nat.succ_eq_add_one, d.decoded_succ] at hmono
        omega
      rw [hstore.kept c hc _ hbefore]
      exact h.frames j hlt c (h.channels ▸ hc) i hi
    · exact hstore.written c hc i hi

/-- An operation that stores any portion for which there is room.  Both loaders store in a way that
does this; a portion of no frames is never stored. -/
def Stores (store : ℕ → ℕ → AudioBuffer w α → AudioBuffer w α) (d : Decoder α) : Prop :=
  ∀ (call : ℕ) (out : AudioBuffer w α), out.mChannels = d.channels →
    d.decoded (call + 1) ≤ out.size → 0 < d.got call →
    StoresAt d call (d.decoded call) out (store call (d.decoded call) out)

/-- **All portions**, as long as there is room for them.  The portions are consecutive in the
output, since each is stored where the counted ones end; without room the counter is ahead of what
was stored. -/
theorem stored_afterCalls {store : ℕ → ℕ → AudioBuffer w α → AudioBuffer w α}
    (hstore : Stores store d) {b : AudioBuffer w α} (hchannels : b.mChannels = d.channels)
    {n : ℕ} (hroom : d.decoded n ≤ b.size) (hgot : ∀ j < n, 0 < d.got j) :
    Stored d b n (afterCalls store d b n) := by
  induction n with
  | zero => exact ⟨rfl, rfl, nofun⟩
  | succ n ih =>
      have hbefore := (d.decoded_mono n.le_succ).trans hroom
      have hstored := ih hbefore fun j hj => hgot j (Nat.lt_succ_of_lt hj)
      rw [afterCalls, wrap_of_lt (hbefore.trans_lt b.size_lt)]
      exact hstored.step (hstore n _ (hstored.channels.trans hchannels)
        (hstored.size ▸ hroom) (hgot n n.lt_succ_self))

/-- `setFromInterleaved` stores a portion of a wave file. -/
theorem Wave.stores (hchannels : d.channels < 2 ^ 8) : Stores (Wave.store (w := w) d) d := by
  intro call out hout hroom hpos
  rw [d.decoded_succ] at hroom
  have hgot : wrap w (d.got call) = d.got call := wrap_of_lt (by have := out.size_lt; omega)
  have hch : wrap 8 d.channels = out.mChannels := (wrap_of_lt hchannels).trans hout.symm
  have hn : d.got call = min (out.size - d.decoded call) (d.got call) := by omega
  have hindex : (0 + d.got call) * out.mChannels ≤ 2 ^ w := by
    rw [Nat.zero_add]
    exact (AudioBuffer.mul_mChannels_lt (by omega)).le
  have hsample : ∀ c < out.mChannels, ∀ i < out.size,
      (Wave.store d call (d.decoded call) out).sample c i =
        if d.decoded call ≤ i ∧ i < d.decoded call + d.got call then
          d.sample call (((0 + (i - d.decoded call)) * out.mChannels + c) % d.channels)
            (((0 + (i - d.decoded call)) * out.mChannels + c) / d.channels)
        else out.sample c i := by
    intro c hc i hi
    rw [Wave.store, hgot, hch, AudioBuffer.sample_setFromInterleaved hpos hn hindex hc hi]
  refine ⟨rfl, rfl, fun c hc i hi => ?_, fun c hc i hi => ?_⟩
  · rw [hsample c hc _ (by omega), if_pos (by omega), Nat.add_sub_cancel_left, Nat.zero_add, hout,
      Nat.mul_add_mod_of_lt (hout ▸ hc), Nat.mul_comm,
      Nat.mul_add_div (by omega), Nat.div_eq_of_lt (hout ▸ hc), Nat.add_zero]
  · rw [hsample c hc i (by omega), if_neg (by omega)]

/-- `set` stores a portion of an ogg file. -/
theorem Vorbis.stores (hchannels : d.channels < 2 ^ 8) : Stores (Vorbis.store (w := w) d) d := by
  intro call out hout hroom hpos
  rw [d.decoded_succ] at hroom
  have hgot : wrap w (d.got call) = d.got call := wrap_of_lt (by have := out.size_lt; omega)
  have hch : wrap 8 d.channels = out.mChannels := (wrap_of_lt hchannels).trans hout.symm
  have hlength : min (d.got call) (out.size - d.decoded call) = d.got call := by omega
  have hwrites := AudioBuffer.writes_channels out.mChannels (d.got call) (d.sample call)
    (by omega : d.decoded call ≤ out.size)
  have hcall : Vorbis.store d call (d.decoded call) out = countUp out.mChannels
      (fun c b => b.setChannel (d.sample call c) (d.got call) c (d.decoded call)) out := by
    rw [Vorbis.store, hgot, hch, AudioBuffer.setArrays, ite_id, Nat.min_self]
    simp only [Nat.zero_add]
  rw [hlength, ← hcall] at hwrites
  exact ⟨hwrites.shape.size, hwrites.shape.mChannels, fun c hc => hwrites.written c hc hc,
    fun c hc i hi => hwrites.kept c hc i (by omega) fun h => by omega⟩

end Store

/-! ### The result -/

section Result

variable {w : ℕ} {α : Type} {d : Decoder α}

/-- **What a `load` promises**, for a file whose decoder is `d`: it returns, and if it returns
`true`, the valid frames of the output are those that the decoder has returned, in all
channels and in order. -/
structure Decodes (load : ℕ → Option (Bool × ℕ × AudioBuffer w α)) (d : Decoder α) : Prop where
  returns : ∃ fuel, (load fuel).isSome
  result : ∀ fuel n out, load fuel = some (true, n, out) →
    out.mValidSize = d.decoded n ∧ out.mChannels = d.channels ∧
      ∀ j < n, ∀ c < d.channels, ∀ i < d.got j,
        out.sample c (d.decoded j + i) = d.sample j c i

/-- The decoder returns the announced number of frames, and they fit the output.  A decoder that
returns more or fewer frames than it announced does not, and neither does one with more channels
than a buffer can have. -/
def Completes (d : Decoder α) (b : AudioBuffer w α) : Prop :=
  ∃ n, EndsAfter w d n ∧ (n = 0 ∨ d.decoded n ≤ b.size ∧ d.channels < 2 ^ 8)

/-- How a `load` uses its loop: it succeeds if there are frames.  Both loaders are instances, and
the result about decoding is proved for all. -/
structure UsesLoop (load : ℕ → Option (Bool × ℕ × AudioBuffer w α))
    (store : ℕ → ℕ → AudioBuffer w α → AudioBuffer w α) (d : Decoder α)
    (b : AudioBuffer w α) : Prop where
  isSome : ∀ fuel, (load fuel).isSome = (decodeLoop store d fuel 0 0 b).isSome
  success : ∀ fuel n out, load fuel = some (true, n, out) ↔
    ∃ read last, decodeLoop store d fuel 0 0 b = some (n, read, last) ∧ read ≠ 0 ∧
      out = last.setValidSize read
  shape : ∀ call read out, (store call read out).size = out.size ∧
    (store call read out).mChannels = out.mChannels
  stores : d.channels < 2 ^ 8 → Stores store d
  channels : b.mChannels = wrap 8 d.channels

variable {load : ℕ → Option (Bool × ℕ × AudioBuffer w α)}
  {store : ℕ → ℕ → AudioBuffer w α → AudioBuffer w α} {b : AudioBuffer w α}

theorem UsesLoop.shape_afterCalls (h : UsesLoop load store d b) (n : ℕ) :
    (afterCalls store d b n).size = b.size ∧
      (afterCalls store d b n).mChannels = b.mChannels := by
  induction n with
  | zero => exact ⟨rfl, rfl⟩
  | succ n ih =>
      obtain ⟨hsize, hchannels⟩ := h.shape n (wrap w (d.decoded n)) (afterCalls store d b n)
      exact ⟨hsize.trans ih.1, hchannels.trans ih.2⟩

/-- A loop that takes more than no call has counted some frames. -/
theorem EndsAfter.wrap_pos {n : ℕ} (h : EndsAfter w d n) (hn : n ≠ 0) :
    0 < wrap w (d.decoded n) :=
  ((Nat.zero_le _).trans_lt (h.1 0 (Nat.pos_of_ne_zero hn))).trans_le h.2

/-- If a `load` returns, its loop ends. -/
theorem UsesLoop.ends (h : UsesLoop load store d b) {fuel : ℕ} (hsome : (load fuel).isSome) :
    ∃ n, EndsAfter w d n ∧ decodeLoop store d fuel 0 0 b =
      some (n, wrap w (d.decoded n), afterCalls store d b n) := by
  rw [h.isSome] at hsome
  obtain ⟨r, hr⟩ := Option.isSome_iff_exists.mp hsome
  obtain ⟨n, -, hend, rfl⟩ := decodeLoop_eq_some_iff.mp hr
  exact ⟨n, hend, hr⟩

/-- If its loop ends with some frames, it succeeds. -/
theorem UsesLoop.succeeds (h : UsesLoop load store d b) {n : ℕ} (hend : EndsAfter w d n)
    (hread : wrap w (d.decoded n) ≠ 0) : ∃ out, load n = some (true, n, out) :=
  ⟨_, (h.success n n _).mpr ⟨_, afterCalls store d b n,
    decodeLoop_eq_some_iff.mpr ⟨n, le_rfl, hend, rfl⟩, hread, rfl⟩⟩

/-- **When a `load` keeps its promise.**  It is stated for any function that uses the loop in the
way both loaders do, so each loader only has to be shown to be one. -/
theorem UsesLoop.decodes_iff (h : UsesLoop load store d b) : Decodes load d ↔ Completes d b := by
  constructor
  · rintro ⟨⟨fuel, hsome⟩, hresult⟩
    obtain ⟨n, hend, hr⟩ := h.ends hsome
    refine ⟨n, hend, or_iff_not_imp_left.mpr fun hn => ?_⟩
    obtain ⟨hvalid, hchannels, -⟩ := hresult fuel n _
      ((h.success fuel n _).mpr ⟨_, _, hr, (hend.wrap_pos hn).ne', rfl⟩)
    obtain ⟨hsize, hshape⟩ := h.shape_afterCalls n
    have hclip : min (afterCalls store d b n).size (wrap w (d.decoded n)) = d.decoded n := hvalid
    have hwide : wrap 8 d.channels = d.channels :=
      (hshape.trans h.channels).symm.trans hchannels
    exact ⟨by omega, hwide ▸ wrap_lt 8 d.channels⟩
  · rintro ⟨n, hend, hroom⟩
    refine ⟨⟨n, ?_⟩, fun fuel m out hcall => ?_⟩
    · rw [h.isSome, decodeLoop_eq_some_iff.mpr ⟨n, le_rfl, hend, rfl⟩]
      rfl
    · obtain ⟨read, last, hloop, hread, rfl⟩ := (h.success fuel m out).mp hcall
      obtain ⟨m', -, hend', hr⟩ := decodeLoop_eq_some_iff.mp hloop
      obtain rfl : m' = n := hend'.unique hend
      obtain ⟨rfl, rfl, rfl⟩ : m' = m ∧ wrap w (d.decoded m') = read ∧
          afterCalls store d b m' = last := by simpa using hr
      have hne : m' ≠ 0 := by
        rintro rfl
        exact hread (wrap_of_lt (Nat.two_pow_pos w))
      obtain ⟨hfit, hchannels⟩ := hroom.resolve_left hne
      have hwide : b.mChannels = d.channels := h.channels.trans (wrap_of_lt hchannels)
      have hstored := stored_afterCalls (h.stores hchannels) hwide hfit fun j hj => hend.got_pos hj
      rw [wrap_of_lt (hfit.trans_lt b.size_lt)]
      refine ⟨Nat.min_eq_right (hstored.size ▸ hfit), hstored.channels.trans hwide, ?_⟩
      rw [← hwide]
      exact hstored.frames

variable {B : BufferType} [Zero α] {out : AudioBuffer B.sizeBits α} {stored : Bool}

theorem prepare_mChannels (d : Decoder α) :
    (prepare B d out stored).mChannels = wrap 8 d.channels :=
  AudioBuffer.resize_mChannels _ _ _ _

theorem Wave.usesLoop (d : Decoder α) :
    UsesLoop (Wave.load B (some d) out stored) (Wave.store d) d (prepare B d out stored) where
  isSome := fun fuel => Option.isSome_map
  success := by
    intro fuel n result
    rw [Wave.load, Option.map_eq_some_iff]
    constructor
    · rintro ⟨⟨calls, read, last⟩, hloop, hcall⟩
      by_cases hread : read = 0
      · rw [if_pos hread] at hcall
        cases hcall
      · rw [if_neg hread] at hcall
        cases hcall
        exact ⟨read, last, hloop, hread, rfl⟩
    · rintro ⟨read, last, hloop, hread, rfl⟩
      exact ⟨(n, read, last), hloop, if_neg hread⟩
  shape := fun _ _ _ => ⟨rfl, rfl⟩
  stores := Wave.stores
  channels := prepare_mChannels d

theorem Vorbis.usesLoop (d : Decoder α) :
    UsesLoop (Vorbis.load B (some d) out stored) (Vorbis.store d) d
      (prepare B d out stored) where
  isSome := fun fuel => Option.isSome_map
  success := by
    intro fuel n result
    rw [Vorbis.load, Option.map_eq_some_iff]
    constructor
    · rintro ⟨⟨calls, read, last⟩, hloop, hcall⟩
      obtain ⟨hread, rfl, rfl⟩ : read ≠ 0 ∧ calls = n ∧ last.setValidSize read = result := by
        simpa using hcall
      exact ⟨read, last, hloop, hread, rfl⟩
    · rintro ⟨read, last, hloop, hread, rfl⟩
      exact ⟨(n, read, last), hloop, by simp [hread]⟩
  shape := by
    intro call read b
    have hshape : AudioBuffer.SameShape b (Vorbis.store d call read b) :=
      countUp_invariant (fun _ b' => AudioBuffer.SameShape b b') (AudioBuffer.SameShape.refl b)
        fun c _ b' h => h.trans (AudioBuffer.sameShape_setChannel b' _ _ _ _)
    exact ⟨hshape.size, hshape.mChannels⟩
  stores := Vorbis.stores
  channels := prepare_mChannels d

/-- **`Wave::load` and `vorbis::load`** return, and with the frames that were decoded, exactly
if the decoder returns the announced number of frames and they fit the output. -/
theorem load_decodes_iff (d : Decoder α) (out : AudioBuffer B.sizeBits α) (stored : Bool) :
    (Decodes (Wave.load B (some d) out stored) d ↔ Completes d (prepare B d out stored)) ∧
      (Decodes (Vorbis.load B (some d) out stored) d ↔ Completes d (prepare B d out stored)) :=
  ⟨(Wave.usesLoop d).decodes_iff, (Vorbis.usesLoop d).decodes_iff⟩

/-- A file that announces two frames and ends after one. -/
def truncated : Decoder ℤ where
  total := 2
  channels := 1
  got n := if n = 0 then 1 else 0
  sample _ _ _ := 0
  stops n _ := if_neg n.succ_ne_zero

/-- Neither function returns. -/
theorem not_decodes_truncated :
    ¬ Decodes (Wave.load ⟨32, 64, 4, 16⟩ (some truncated) .initial true) truncated ∧
      ¬ Decodes (Vorbis.load ⟨32, 64, 4, 16⟩ (some truncated) .initial true) truncated := by
  have hlittle : ∀ n, truncated.decoded n ≤ 1 := by
    intro n
    rcases Nat.eq_zero_or_pos n with rfl | hpos
    · exact Nat.zero_le 1
    · exact (truncated.decoded_eq_of_got_eq_zero (n := 1) rfl hpos).le
  have hnever : ∀ n, ¬ EndsAfter 32 truncated n := fun n hend => by
    have hle := (hend.2.trans (Nat.mod_le _ _)).trans (hlittle n)
    exact absurd hle (by decide)
  refine ⟨fun h => ?_, fun h => ?_⟩ <;> obtain ⟨fuel, hsome⟩ := h.returns
  · obtain ⟨n, hend, -⟩ := (Wave.usesLoop truncated).ends hsome
    exact hnever n hend
  · obtain ⟨n, hend, -⟩ := (Vorbis.usesLoop truncated).ends hsome
    exact hnever n hend

end Result

end Tklb
