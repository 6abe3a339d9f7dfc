import Mathlib.Data.BitVec
import Tklb.DrWav

/-!
# `Wave`

Writing a buffer of `float`s to a wave file, and reading it back.  `write` puts 128 frames
at a time into an array and hands them to `dr_wav`, copies the memory of the file to the
buffer of the caller, and then closes the file.  The sizes in the header are filled in when
the file is closed, so what the caller gets has those of an empty file, and `load` refuses
it: `not_roundTrips`.  The file that is closed and thrown away would have been right
(`closed_loads`).

The samples are the bit patterns of the `float`s.  Of the options the model has the default
ones: 32 bits, in a RIFF container.

### Main results

* `not_roundTrips` — for every buffer and every sample rate: what `write` returns is not read
  back.
* `closed_loads` — the file after it is closed, which `write` throws away, would be.

### What is load-bearing

The writer of `dr_wav` goes back to fill in two sizes when it is closed (`DrWav`).  A copy that
is taken before that is a file with the sizes of an empty one, and the bytes behind its header
do not matter any more.  `initMemory_of_write` is that, and everything else in this file shows
that the rest of `write` is right: the frames are written in order, however many blocks they
take, and the header of the closed file describes them.
-/

namespace Tklb

open Foundation DrWav

/-- A buffer with the sample rate that belongs to it. -/
structure Sound (w : ℕ) where
  buffer : AudioBuffer w (BitVec 32)
  sampleRate : Fin (2 ^ 16)

namespace Wave

variable {w : ℕ}

/-! ### The code -/

/-- `while (written < frames) { remaining = in.putInterleaved(…); written += …; }`; `none` if
the fuel is used up. -/
def writeLoop (input : AudioBuffer w (BitVec 32)) :
    ℕ → ℕ → (ℕ → BitVec 32) → Writer → Option Writer
  | fuel, written, interleaved, wav =>
      if written < input.mValidSize then
        match fuel with
        | 0 => none
        | fuel + 1 =>
            let remaining := input.putInterleaved interleaved 128 written 0
            let wrote := wav.writePcmFrames remaining.1 (floatBytes remaining.2)
            writeLoop input fuel (written + wrote.1) remaining.2 wrote.2
      else some wav

/-- What `write` leaves behind.  The result, the buffer of the caller, and the file as it was
closed; the last one is given back by the code, and is here to be compared. -/
structure Written where
  result : Bool
  /-- The buffer of the caller. -/
  out : List UInt8
  /-- The memory of the file after it was closed, which is given back. -/
  memory : List UInt8

/-- `write(in, out)`; `interleaved` is what is in the new array, and `stored` tells whether
there is memory for the copy. -/
def write (input : Sound w) (interleaved : ℕ → BitVec 32) (out : List UInt8) (stored : Bool)
    (fuel : ℕ) : Option Written :=
  match initWrite ⟨ieeeFloat, input.buffer.mChannels, input.sampleRate, 32⟩ with
  | none => some ⟨false, out, []⟩
  | some wav =>
      (writeLoop input.buffer fuel 0 interleaved wav).map fun wav =>
        -- the copy is made before the file is closed
        { result := true
          out := if stored then wav.stream.bytes else []
          memory := wav.uninit.bytes }

/-- `load(data, length, out)` of a file in memory, with the sample rate. -/
def loadMemory (B : BufferType) (foreign : Foreign) (data : List UInt8) (out : Sound B.sizeBits)
    (stored : Bool) (fuel : ℕ) : Option (Bool × Sound B.sizeBits) :=
  let file := initMemory foreign data
  (load B (file.map Prod.snd) out.buffer stored fuel).map fun s =>
    (s.1, ⟨s.2.2, (file.map fun f => (⟨wrap 16 f.1, wrap_lt _ _⟩ : Fin (2 ^ 16))).getD
      out.sampleRate⟩)

/-! ### What is handed over -/

/-- The same channels and sample rate, and the same valid frames.  What is behind the valid frames
does not matter, nor does the capacity of the buffers. -/
structure SameSound {w : ℕ} (a b : Sound w) : Prop where
  channels : a.buffer.mChannels = b.buffer.mChannels
  sampleRate : a.sampleRate = b.sampleRate
  valid : a.buffer.mValidSize = b.buffer.mValidSize
  samples : ∀ c < b.buffer.mChannels, ∀ i < b.buffer.mValidSize,
    a.buffer.sample c i = b.buffer.sample c i

/-- `load` succeeds with the sound.  The samples and the valid frames are compared, and the function
has to end. -/
def Loads (B : BufferType) (foreign : Foreign) (data : List UInt8) (target : Sound B.sizeBits)
    (stored : Bool) (sound : Sound B.sizeBits) : Prop :=
  ∃ fuel result, loadMemory B foreign data target stored fuel = some (true, result) ∧
    SameSound result sound

/-- **The round trip**: `write` succeeds, and `load` with what it wrote.  Both buffers and both
answers about memory are arbitrary. -/
def RoundTrips (B : BufferType) (foreign : Foreign) (sound target : Sound B.sizeBits)
    (interleaved : ℕ → BitVec 32) (out : List UInt8) (stored stored' : Bool) : Prop :=
  ∃ fuel written, write sound interleaved out stored fuel = some written ∧
    written.result = true ∧ Loads B foreign written.out target stored' sound

/-- The loop leaves a file that has not been closed. -/
theorem writeLoop_appends {input : AudioBuffer w (BitVec 32)} {fuel : ℕ} :
    ∀ {written : ℕ} {interleaved : ℕ → BitVec 32} {wav wav' : Writer} {payload : List UInt8},
      wav.Appends payload → writeLoop input fuel written interleaved wav = some wav' →
      ∃ payload', wav'.Appends payload' := by
  induction fuel with
  | zero =>
      intro written interleaved wav wav' payload happends hloop
      unfold writeLoop at hloop
      split at hloop
      · cases hloop
      · cases hloop
        exact ⟨payload, happends⟩
  | succ fuel ih =>
      intro written interleaved wav wav' payload happends hloop
      unfold writeLoop at hloop
      split at hloop
      · exact ih (happends.writePcmFrames _ _) hloop
      · cases hloop
        exact ⟨payload, happends⟩

/-- **No file** is recognised in what `write` hands over.  Either there was no memory for the copy,
or the size in its header is the one of an empty file, which is less than the reader accepts. -/
theorem initMemory_of_write {foreign : Foreign} {input : Sound w} {interleaved : ℕ → BitVec 32}
    {out : List UInt8} {stored : Bool} {fuel : ℕ} {written : Written}
    (h : write input interleaved out stored fuel = some written) (hresult : written.result = true) :
    initMemory foreign written.out = none := by
  unfold write at h
  split at h
  · cases h
    cases hresult
  · rename_i wav hwav
    obtain ⟨wav', hloop, rfl⟩ := Option.map_eq_some_iff.mp h
    obtain ⟨payload, happends⟩ := writeLoop_appends (appends_of_initWrite hwav).1 hloop
    cases stored with
    | false => rfl
    | true =>
        show initMemory foreign wav'.stream.bytes = none
        rw [happends.bytes]
        exact initMemory_of_unfinished foreign wav'.fmt payload

/-- So `load` returns `false`, and the round trip fails. -/
theorem not_loads_of_initMemory {B : BufferType} {foreign : Foreign} {data : List UInt8}
    {target sound : Sound B.sizeBits} {stored : Bool} (h : initMemory foreign data = none) :
    ¬ Loads B foreign data target stored sound := by
  rintro ⟨fuel, result, hload, -⟩
  unfold loadMemory at hload
  rw [h] at hload
  cases hload

/-- **`write`.**  Whatever it writes, `load` does not read it.  Nothing is assumed about the sound,
about the target, or about the memory for either of them. -/
theorem not_roundTrips (B : BufferType) (foreign : Foreign) (sound target : Sound B.sizeBits)
    (interleaved : ℕ → BitVec 32) (out : List UInt8) (stored stored' : Bool) :
    ¬ RoundTrips B foreign sound target interleaved out stored stored' := by
  rintro ⟨fuel, written, hwrite, hresult, hloads⟩
  exact not_loads_of_initMemory (initMemory_of_write hwrite hresult) hloads

/-- One sample, the number 1. -/
def one : Sound 32 := ⟨.mono (fun _ => 0x3F800000#32) ⟨1, by decide⟩, 44100⟩

/-- `write` returns `true` and 48 bytes, which say that 28 bytes follow where there are 40,
and that no sample does. -/
theorem not_roundTrips_one :
    (write one (fun _ => 0) [] true 1).map (fun written =>
      (written.result, written.out.length, (written.out.drop 4).take 4,
        (written.out.drop 40).take 4)) = some (true, 48, [28, 0, 0, 0], [0, 0, 0, 0]) ∧
      ¬ RoundTrips ⟨32, 64, 4, 16⟩ (fun _ => none) one ⟨.initial, 0⟩ (fun _ => 0) [] true true := by
  refine ⟨by decide +kernel, ?_⟩
  rintro ⟨fuel, written, hwrite, hresult, hloads⟩
  exact not_loads_of_initMemory (initMemory_of_write hwrite hresult) hloads

/-! ### What the closed file holds -/

section Closed

variable {input : AudioBuffer w (BitVec 32)}

/-- The samples of a buffer, frame after frame. -/
def interleavedSample (input : AudioBuffer w (BitVec 32)) (k : ℕ) : BitVec 32 :=
  input.sample (k % input.mChannels) (k / input.mChannels)

theorem interleavedSample_eq {c : ℕ} (hc : c < input.mChannels) (i : ℕ) :
    interleavedSample input (i * input.mChannels + c) = input.sample c i := by
  rw [interleavedSample, Nat.mul_add_mod_of_lt hc, Nat.mul_comm,
    Nat.mul_add_div (Nat.zero_lt_of_lt hc), Nat.div_eq_of_lt hc, Nat.add_zero]

/-- The bytes of the first `n` frames. -/
def frameBytes (input : AudioBuffer w (BitVec 32)) (n : ℕ) : List UInt8 :=
  (List.range (n * (4 * input.mChannels))).map (floatBytes (interleavedSample input))

theorem length_frameBytes (input : AudioBuffer w (BitVec 32)) (n : ℕ) :
    (frameBytes input n).length = n * (4 * input.mChannels) := by
  rw [frameBytes, List.length_map, List.length_range]

/-- The bytes of a call of `putInterleaved` are those of the next frames. -/
theorem floatBytes_putInterleaved {y : ℕ → BitVec 32} {written n : ℕ} (hch : 1 ≤ input.mChannels)
    (hwritten : written ≤ input.mValidSize) (hn : n = min (input.mValidSize - written) 128)
    (hroom : input.mValidSize ≤ input.size) {t : ℕ} (ht : t < n * (4 * input.mChannels)) :
    floatBytes (input.putInterleaved y 128 written 0).2 t =
      floatBytes (interleavedSample input) (written * (4 * input.mChannels) + t) := by
  obtain ⟨q, r, hr, rfl⟩ : ∃ q r, r < 4 ∧ t = 4 * q + r :=
    ⟨t / 4, t % 4, Nat.mod_lt t (by decide), (Nat.div_add_mod t 4).symm⟩
  have hq : q < n * input.mChannels := by
    rw [Nat.mul_left_comm] at ht
    omega
  obtain ⟨i, hi, c, hc, rfl⟩ := AudioBuffer.exists_frame_channel hq
  have hput : (input.putInterleaved y 128 written 0).2 (c + i * input.mChannels) =
      input.sample c (written + i) :=
    AudioBuffer.putInterleaved_apply hch hwritten hn
      (AudioBuffer.mul_mChannels_lt (by omega)) hi hc
  have hposition : written * (4 * input.mChannels) + (4 * (c + i * input.mChannels) + r) =
      4 * ((written + i) * input.mChannels + c) + r := by ring
  have hdiv : ∀ k, (4 * k + r) / 4 = k := fun k => by omega
  have hmod : ∀ k, (4 * k + r) % 4 = r := fun k => by omega
  rw [hposition, floatBytes, floatBytes, hdiv, hmod, hdiv, hmod, hput, interleavedSample_eq hc]

/-- So a round of the loop appends them. -/
theorem frameBytes_add {y : ℕ → BitVec 32} {written n : ℕ} (hch : 1 ≤ input.mChannels)
    (hwritten : written ≤ input.mValidSize) (hn : n = min (input.mValidSize - written) 128)
    (hroom : input.mValidSize ≤ input.size) :
    frameBytes input written ++ (List.range (n * (4 * input.mChannels))).map
        (floatBytes (input.putInterleaved y 128 written 0).2) = frameBytes input (written + n) := by
  have hnext : (List.range (n * (4 * input.mChannels))).map
      (floatBytes (input.putInterleaved y 128 written 0).2) =
        (List.range (n * (4 * input.mChannels))).map fun t =>
          floatBytes (interleavedSample input) (written * (4 * input.mChannels) + t) :=
    List.map_congr_left fun t ht =>
      floatBytes_putInterleaved hch hwritten hn hroom (List.mem_range.mp ht)
  rw [hnext, frameBytes, map_range_append, ← Nat.add_mul, frameBytes]

/-- **The loop** writes all valid frames, given enough fuel.  It takes 128 frames in each round but
the last; the bytes in the file are the interleaved samples, in order, and nothing but the loop
counter decides when it ends. -/
theorem writeLoop_eq_some (hch : 1 ≤ input.mChannels) (hroom : input.mValidSize ≤ input.size)
    {fuel : ℕ} :
    ∀ {written : ℕ} {y : ℕ → BitVec 32} {wav : Writer}, written ≤ input.mValidSize →
      input.mValidSize - written ≤ fuel → wav.fmt.channels = input.mChannels →
      wav.fmt.bitsPerSample = 32 → wav.Appends (frameBytes input written) →
      ∃ wav', writeLoop input fuel written y wav = some wav' ∧ wav'.fmt = wav.fmt ∧
        wav'.Appends (frameBytes input input.mValidSize) := by
  induction fuel with
  | zero =>
      intro written y wav hle hfuel _ _ happends
      obtain rfl : written = input.mValidSize := by omega
      refine ⟨wav, ?_, rfl, happends⟩
      unfold writeLoop
      exact if_neg (lt_irrefl _)
  | succ fuel ih =>
      intro written y wav hle hfuel hchannels hbits happends
      unfold writeLoop
      split
      · rename_i hlt
        obtain ⟨n, hn⟩ : ∃ n, n = min (input.mValidSize - written) 128 := ⟨_, rfl⟩
        have hcount : (input.putInterleaved y 128 written 0).1 = n := by
          rw [AudioBuffer.putInterleaved_eq hch hle hn (AudioBuffer.mul_mChannels_lt (by omega))]
        have hbytes : n * wav.fmt.channels * wav.fmt.bitsPerSample / 8 =
            n * (4 * input.mChannels) := by
          rw [hchannels, hbits, show n * input.mChannels * 32 = 8 * (n * (4 * input.mChannels)) by
            ring, Nat.mul_div_cancel_left _ (by decide)]
        have hnext :=
          happends.writePcmFrames n (floatBytes (input.putInterleaved y 128 written 0).2)
        rw [hbytes, frameBytes_add hch hle hn hroom] at hnext
        have hfmt := wav.writePcmFrames_fmt n (floatBytes (input.putInterleaved y 128 written 0).2)
        dsimp only
        rw [hcount, Writer.writePcmFrames_fst hbits (hchannels ▸ Nat.ne_of_gt hch)]
        obtain ⟨wav', hloop, hfmt', happends'⟩ :=
          ih (by omega) (by omega) (hfmt ▸ hchannels) (hfmt ▸ hbits) hnext
        exact ⟨wav', hloop, hfmt'.trans hfmt, happends'⟩
      · obtain rfl : written = input.mValidSize := by omega
        exact ⟨wav, rfl, rfl, happends⟩

/-- `write` leaves a closed file in memory. -/
theorem write_memory {sound : Sound w} (interleaved : ℕ → BitVec 32) (out : List UInt8)
    (stored : Bool) (hch : 1 ≤ sound.buffer.mChannels)
    (hroom : sound.buffer.mValidSize ≤ sound.buffer.size) (hrate : (sound.sampleRate : ℕ) ≠ 0)
    (hfit : sound.buffer.mValidSize * (4 * sound.buffer.mChannels) + 36 < 2 ^ 32) :
    ∃ fmt written,
      write sound interleaved out stored sound.buffer.mValidSize = some written ∧
      written.result = true ∧ fmt.OfFloats sound.buffer.mChannels sound.sampleRate ∧
      written.memory =
        header fmt (riffChunkSize (frameBytes sound.buffer sound.buffer.mValidSize).length)
          (dataChunkSizeRiff (frameBytes sound.buffer sound.buffer.mValidSize).length) ++
          (frameBytes sound.buffer sound.buffer.mValidSize ++ List.replicate
            ((frameBytes sound.buffer sound.buffer.mValidSize).length % 2) 0) := by
  obtain ⟨wav, hwav⟩ : ∃ wav,
      initWrite ⟨ieeeFloat, sound.buffer.mChannels, sound.sampleRate, 32⟩ = some wav := ⟨_, rfl⟩
  obtain ⟨happends, hfmt⟩ := appends_of_initWrite hwav
  have hchannels := sound.buffer.channels_lt
  have hfloats := ofFloats_of_preinitWrite hch (by omega) (Nat.one_le_iff_ne_zero.mpr hrate)
    (by have := sound.sampleRate.isLt; omega) hfmt
  have hempty : frameBytes sound.buffer 0 = [] := by
    rw [frameBytes, Nat.zero_mul, List.range_zero, List.map_nil]
  obtain ⟨wav', hloop, hfmt', happends'⟩ := writeLoop_eq_some (y := interleaved) hch hroom
    (Nat.zero_le _) (Nat.sub_le _ 0) hfloats.channels_eq hfloats.bits_eq (hempty ▸ happends)
  have hlength := length_frameBytes sound.buffer sound.buffer.mValidSize
  refine ⟨wav.fmt, ⟨true, if stored then wav'.stream.bytes else [], wav'.uninit.bytes⟩, ?_, rfl,
    hfloats, hfmt' ▸ happends'.uninit_bytes (by omega)⟩
  unfold write
  rw [hwav]
  exact congrArg (Option.map _) hloop

variable {B : BufferType} {foreign : Foreign} {sound target : Sound B.sizeBits}

/-- The calls of the decoder that `load` makes. -/
theorem endsAfter_of_holds {wav : Reader} {payload : List UInt8} (h : wav.Holds payload)
    (hlt : wav.totalPCMFrameCount < 2 ^ w) :
    EndsAfter w wav.decoder ((wav.totalPCMFrameCount + 127) / 128) := by
  have hwrap : ∀ k, wrap w (wav.decoder.decoded k) = min (128 * k) wav.totalPCMFrameCount := by
    intro k
    rw [h.decoded_eq, wrap_of_lt (by omega)]
  refine ⟨fun m hm => ?_, ?_⟩
  · rw [hwrap]
    show _ < wav.totalPCMFrameCount
    omega
  · rw [hwrap]
    show wav.totalPCMFrameCount ≤ _
    omega

/-- There is room for the frames. -/
theorem le_size_prepare {α : Type} [Zero α] {d : Decoder α} {out : AudioBuffer B.sizeBits α}
    (hch : 1 ≤ d.channels) (hlt : d.channels < 2 ^ 8) (htotal : d.total < 2 ^ B.sizeBits)
    (hfit : AudioBuffer.SizeFits B d.total d.channels) :
    d.total ≤ (prepare B d out true).size := by
  have hlength : wrap B.sizeBits d.total = d.total := wrap_of_lt htotal
  have hchannels : wrap 8 d.channels = d.channels := wrap_of_lt hlt
  by_cases hsame : wrap 8 d.channels = out.mChannels ∧ out.size = wrap B.sizeBits d.total
  · have hkept : prepare B d out true = out := if_pos hsame
    rw [hkept, hsame.2, hlength]
  · have hfit' : AudioBuffer.SizeFits B (wrap B.sizeBits d.total) (wrap 8 d.channels) := by
      rwa [hlength, hchannels]
    have hpos : 0 < wrap 8 d.channels := hchannels.symm ▸ hch
    have hsize : (prepare B d out true).size = AudioBuffer.padded B (wrap B.sizeBits d.total) := by
      unfold prepare
      exact AudioBuffer.resize_size hfit' hsame hpos
    rw [hsize, hlength]
    exact AudioBuffer.le_padded B _

/-- What the decoder of the closed file returns are the frames of the buffer. -/
theorem sample_of_holds {wav : Reader} {input : AudioBuffer w (BitVec 32)}
    {rate k c i : ℕ} (h : wav.Holds (frameBytes input input.mValidSize))
    (hfmt : wav.fmt.OfFloats input.mChannels rate)
    (htotal : wav.totalPCMFrameCount = input.mValidSize) (hi : i < wav.decoder.got k)
    (hc : c < input.mChannels) :
    wav.decoder.sample k c i = input.sample c (128 * k + i) := by
  have hbytes : frameBytes input input.mValidSize =
      (List.range (4 * (wav.totalPCMFrameCount * wav.fmt.channels))).map
        (floatBytes (interleavedSample input)) := by
    rw [frameBytes, htotal, hfmt.channels_eq, Nat.mul_left_comm]
  have hsample := (hbytes ▸ h : wav.Holds _).sample_eq
    (hfmt.channels_eq.symm ▸ hfmt.bytesPerPcmFrame_eq) hi (hfmt.channels_eq.symm ▸ hc)
  rw [hsample, hfmt.channels_eq, interleavedSample_eq hc]

/-- `load` of a file with the frames of a buffer. -/
theorem loads_of_holds {wav : Reader} {data : List UInt8}
    (hfile : initMemory foreign data = some ((sound.sampleRate : ℕ), wav.decoder))
    (h : wav.Holds (frameBytes sound.buffer sound.buffer.mValidSize))
    (hfmt : wav.fmt.OfFloats sound.buffer.mChannels sound.sampleRate)
    (htotal : wav.totalPCMFrameCount = sound.buffer.mValidSize) (hch : 1 ≤ sound.buffer.mChannels)
    (hvalid : 1 ≤ sound.buffer.mValidSize)
    (hmemory : AudioBuffer.SizeFits B sound.buffer.mValidSize sound.buffer.mChannels) :
    Loads B foreign data target true sound := by
  have hchannels : wav.decoder.channels = sound.buffer.mChannels := hfmt.channels_eq
  have hframes : wav.decoder.total = sound.buffer.mValidSize := htotal
  have hlt : wav.totalPCMFrameCount < 2 ^ B.sizeBits := htotal ▸ sound.buffer.valid_lt
  have hends := endsAfter_of_holds h hlt
  obtain ⟨n, hn⟩ : ∃ n, n = (wav.totalPCMFrameCount + 127) / 128 := ⟨_, rfl⟩
  rw [← hn] at hends
  have hall : wav.decoder.decoded n = sound.buffer.mValidSize := by
    rw [h.decoded_eq]
    omega
  have hread : wrap B.sizeBits (wav.decoder.decoded n) ≠ 0 := by
    rw [hall, wrap_of_lt sound.buffer.valid_lt]
    exact Nat.ne_of_gt hvalid
  -- `load` succeeds, with what the decoder returns
  have huses : UsesLoop (load B (some wav.decoder) target.buffer true) (store wav.decoder)
      wav.decoder (prepare B wav.decoder target.buffer true) := usesLoop wav.decoder
  obtain ⟨out, hload⟩ := huses.succeeds hends hread
  have hwide := hchannels.symm ▸ sound.buffer.channels_lt
  have hspace : wav.decoder.total ≤ (prepare B wav.decoder target.buffer true).size :=
    le_size_prepare (hchannels.symm ▸ hch) hwide hlt (by rwa [hframes, hchannels])
  have hcompletes : Completes wav.decoder (prepare B wav.decoder target.buffer true) :=
    ⟨n, hends, Or.inr ⟨hall.trans hframes.symm ▸ hspace, hwide⟩⟩
  obtain ⟨hvalid', hchannels', hsamples⟩ :=
    (huses.decodes_iff.mpr hcompletes).result n n out hload
  refine ⟨n, ⟨out, sound.sampleRate⟩, ?_, hchannels'.trans hchannels, rfl, hvalid'.trans hall, ?_⟩
  · have hrate : (⟨wrap 16 sound.sampleRate, wrap_lt _ _⟩ : Fin (2 ^ 16)) = sound.sampleRate :=
      Fin.ext (wrap_of_lt sound.sampleRate.isLt)
    unfold loadMemory
    rw [hfile]
    dsimp only [Option.map_some, Option.getD_some]
    rw [hload, hrate]
    rfl
  · intro c hc i hi
    have hcall : i / 128 < n := by omega
    have hgot : i % 128 < wav.decoder.got (i / 128) := by
      rw [h.got_eq]
      omega
    have hstored := hsamples (i / 128) hcall c (hchannels.symm ▸ hc) (i % 128) hgot
    have hposition : wav.decoder.decoded (i / 128) + i % 128 = i := by
      rw [h.decoded_eq]
      omega
    rw [hposition, sample_of_holds h hfmt htotal hgot hc, Nat.div_add_mod] at hstored
    exact hstored

/-- **What `write` throws away**: with a sample rate, a channel and a valid frame, and if the
size fits in the header, the file that was closed is loaded with the same sound. -/
theorem closed_loads (interleaved : ℕ → BitVec 32) (out : List UInt8) (stored : Bool)
    (hch : 1 ≤ sound.buffer.mChannels) (hvalid : 1 ≤ sound.buffer.mValidSize)
    (hroom : sound.buffer.mValidSize ≤ sound.buffer.size) (hrate : (sound.sampleRate : ℕ) ≠ 0)
    (hfit : sound.buffer.mValidSize * (4 * sound.buffer.mChannels) + 36 < 2 ^ 32)
    (hmemory : AudioBuffer.SizeFits B sound.buffer.mValidSize sound.buffer.mChannels) :
    ∃ fuel written, write sound interleaved out stored fuel = some written ∧
      written.result = true ∧ Loads B foreign written.memory target true sound := by
  obtain ⟨fmt, written, hwrite, hresult, hfloats, hbytes⟩ :=
    write_memory interleaved out stored hch hroom hrate hfit
  obtain ⟨wav, hfile, rfl, htotal, hholds⟩ := initMemory_of_closed hfloats hch
    (length_frameBytes sound.buffer sound.buffer.mValidSize) hfit
  exact ⟨_, written, hwrite, hresult, loads_of_holds (hbytes.symm ▸ hfile) hholds hfloats htotal
    hch hvalid hmemory⟩

end Closed

end Wave

end Tklb
