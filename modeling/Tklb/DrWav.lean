import Tklb.Decoding
import Tklb.Foundation.ByteStreams

/-!
# `dr_wav`

The wave files that `Wave` writes and reads: a RIFF container with samples of type `float`.
A writer is not told how much it will be given, so it starts with a header whose sizes are
those of an empty file (`initWrite`), appends samples, and goes back to fill in the sizes
at the end (`uninit`).  A reader looks for the chunks `fmt ` and `data` and believes the
size of the latter.  Other containers and other sample formats are a parameter, `foreign`:
what the reader makes of a file that is none of these.

Numbers and samples are stored with the lowest byte first, as they are in memory on the
machines the model is about.  There is always memory for the file.

A writer appends as long as it is not closed (`Writer.Appends`), so the file begins with
the header of an empty one, which the reader refuses: `initMemory_of_unfinished`.  After
`uninit` the header has the sizes (`Writer.Appends.uninit_bytes`), and the reader finds the
format and the samples behind it (`initMemory_of_finished`).

### What is embedded, and what is not

The library reads and writes many kinds of files; this is what `Wave` uses of it for files in a
RIFF container with samples of type `float`.  Of a writer all of that is embedded, field by
field, with the sizes computed in the types the source computes them in.  Of a reader it is the
walk over the chunks, the extensible format included, the validation, and the samples.
Compressed formats and other containers are `Foreign`, a function about which nothing is
assumed.

### What is load-bearing

* `Writer.Appends` is the invariant of a writer: what it has written is a header, whose two
  sizes are those of an empty file, and the samples.  `Writer.Appends.uninit_bytes` says what
  closing changes in that, and it is the two sizes only.
* `initMemory_of_unfinished` and `initMemory_of_finished` are two results about one reader, on
  the same bytes but for the two sizes.  They are what makes the difference between a file that
  can be loaded and one that cannot.
* `Reader.Holds` is the invariant of the reader that hands out the samples call by call.
-/

namespace Tklb

open Foundation

namespace DrWav

/-! ### The code -/

/-- `DR_WAVE_FORMAT_*` -/
def adpcm : ℕ := 0x2

@[inherit_doc adpcm] def ieeeFloat : ℕ := 0x3

@[inherit_doc adpcm] def dviAdpcm : ℕ := 0x11

@[inherit_doc adpcm] def extensible : ℕ := 0xFFFE

/-- `drwav_fmt`; of the subformat only the format tag it starts with.  The numbers are those of the
file, whether or not they agree with one another. -/
structure Fmt where
  formatTag : ℕ
  channels : ℕ
  sampleRate : ℕ
  avgBytesPerSec : ℕ
  blockAlign : ℕ
  bitsPerSample : ℕ
  subFormat : ℕ

/-- `drwav_data_format`, for a RIFF container. -/
structure DataFormat where
  format : ℕ
  channels : ℕ
  sampleRate : ℕ
  bitsPerSample : ℕ

/-- The identifier of a chunk. -/
def fourcc (a b c d : Char) : List UInt8 := [a, b, c, d].map Char.toUInt8

/-! #### Writing -/

/-- A `drwav` that writes to memory.  The two sizes in the header are written when the file is
closed; until then they are counted here. -/
structure Writer where
  stream : WriteStream
  fmt : Fmt
  dataChunkDataPos : ℕ
  dataChunkDataSize : ℕ

/-- `drwav_preinit_write` -/
def preinitWrite (f : DataFormat) : Option Fmt :=
  if f.format = extensible ∨ f.format = adpcm ∨ f.format = dviAdpcm then none
  else
    some
      { formatTag := wrap 16 f.format
        channels := wrap 16 f.channels
        sampleRate := f.sampleRate
        avgBytesPerSec := wrap 32 (f.bitsPerSample * f.sampleRate * f.channels) / 8
        blockAlign := wrap 16 (wrap 32 (f.channels * f.bitsPerSample) / 8)
        bitsPerSample := wrap 16 f.bitsPerSample
        subFormat := 0 }

/-- What `drwav_init_write__internal` writes, one field after the other. -/
def headerFields (fmt : Fmt) (chunkSizeRIFF chunkSizeDATA : ℕ) : List (List UInt8) :=
  [fourcc 'R' 'I' 'F' 'F', leBytes 4 chunkSizeRIFF, fourcc 'W' 'A' 'V' 'E',
    fourcc 'f' 'm' 't' ' ', leBytes 4 16,
    leBytes 2 fmt.formatTag, leBytes 2 fmt.channels, leBytes 4 fmt.sampleRate,
    leBytes 4 fmt.avgBytesPerSec, leBytes 2 fmt.blockAlign, leBytes 2 fmt.bitsPerSample,
    fourcc 'd' 'a' 't' 'a', leBytes 4 chunkSizeDATA]

/-- `drwav_init_memory_write` -/
def initWrite (f : DataFormat) : Option Writer :=
  (preinitWrite f).map fun fmt =>
    -- there are no samples yet: 28 is the size of the chunk `fmt ` and of "WAVE"
    { stream := (headerFields fmt 28 0).foldl WriteStream.write .empty
      fmt := fmt
      dataChunkDataPos := (headerFields fmt 28 0).flatten.length
      dataChunkDataSize := 0 }

/-- The bytes of an array of `float`s, which are given by their bit patterns. -/
def floatBytes (x : ℕ → BitVec 32) (k : ℕ) : UInt8 :=
  UInt8.ofNat ((x (k / 4)).toNat / 256 ^ (k % 4))

/-- `drwav_write_raw` -/
def Writer.writeRaw (wav : Writer) (pData : List UInt8) : ℕ × Writer :=
  if pData.length = 0 then (0, wav)
  else
    (pData.length,
      { wav with
        stream := wav.stream.write pData
        dataChunkDataSize := wrap 64 (wav.dataChunkDataSize + pData.length) })

/-- `drwav_write_pcm_frames`, from an array of bytes; the first round of its loop writes all
of them. -/
def Writer.writePcmFrames (wav : Writer) (framesToWrite : ℕ) (pData : ℕ → UInt8) :
    ℕ × Writer :=
  if framesToWrite = 0 then (0, wav)
  else
    let bytesToWrite := framesToWrite * wav.fmt.channels * wav.fmt.bitsPerSample / 8
    let written := wav.writeRaw ((List.range bytesToWrite).map pData)
    (written.1 * 8 / wav.fmt.bitsPerSample / wav.fmt.channels, written.2)

/-- `drwav__riff_chunk_size_riff` -/
def riffChunkSize (dataChunkSize : ℕ) : ℕ :=
  min (4 + 24 + 8 + dataChunkSize + dataChunkSize % 2) 0xFFFFFFFF

/-- `drwav__data_chunk_size_riff` -/
def dataChunkSizeRiff (dataChunkSize : ℕ) : ℕ :=
  if dataChunkSize ≤ 0xFFFFFFFF then dataChunkSize else 0xFFFFFFFF

/-- `drwav_uninit` of a writer: the file afterwards. -/
def Writer.uninit (wav : Writer) : WriteStream :=
  let paddingSize := wav.dataChunkDataSize % 2
  let stream :=
    if 0 < paddingSize then wav.stream.write (List.replicate paddingSize 0) else wav.stream
  let stream := (stream.seek 4).write (leBytes 4 (riffChunkSize wav.dataChunkDataSize))
  (stream.seek (wav.dataChunkDataPos - 4)).write
    (leBytes 4 (dataChunkSizeRiff wav.dataChunkDataSize))

/-! #### Reading -/

/-- `onSeek(offset, drwav_seek_origin_current)`, where the offset is an `int`. -/
def seekCurrent (data : List UInt8) (offset : ℤ) (pos : ℕ) : Option ℕ :=
  if 0 < offset then
    if (data.length : ℤ) < pos + offset then none else some (pos + offset).toNat
  else if (pos : ℤ) < -offset then none
  else some (pos + offset).toNat

/-- The part of a chunk `fmt ` that follows the first 16 bytes, if there is one: the format
tag of the subformat, and how far the reader is.  `cursor` is the reader's own count of the
bytes before its position. -/
def readExtension (data : List UInt8) (formatTag sizeInBytes pos cursor : ℕ) :
    Option (ℕ × ℕ × ℕ) :=
  if sizeInBytes ≤ 16 then some (0, pos, cursor)
  else do
    let (cbSize, pos) ← readBytes data 2 pos
    let extendedSize := leValue cbSize
    let (subFormat, pos) ←
      if extendedSize = 0 then some (0, pos)
      else if formatTag = extensible then
        if extendedSize ≠ 22 then none
        else (readBytes data 22 pos).map fun r => (leValue ((r.1.drop 6).take 2), r.2)
      else (seekCurrent data extendedSize pos).map fun pos => (0, pos)
    -- the bytes that are left, as an `int`
    let pos ← seekCurrent data (Int.bmod (sizeInBytes - (18 + extendedSize)) (2 ^ 32)) pos
    some (subFormat, pos, wrap 64 (cursor + sizeInBytes - 16))

/-- The chunk `fmt `. -/
def readFmt (data : List UInt8) (sizeInBytes pos cursor : ℕ) : Option (Fmt × ℕ × ℕ) := do
  let (formatTag, pos) ← readBytes data 2 pos
  let (channels, pos) ← readBytes data 2 pos
  let (sampleRate, pos) ← readBytes data 4 pos
  let (avgBytesPerSec, pos) ← readBytes data 4 pos
  let (blockAlign, pos) ← readBytes data 2 pos
  let (bitsPerSample, pos) ← readBytes data 2 pos
  let (subFormat, pos, cursor) ←
    readExtension data (leValue formatTag) sizeInBytes pos (cursor + 16)
  some
    ({ formatTag := leValue formatTag
       channels := leValue channels
       sampleRate := leValue sampleRate
       avgBytesPerSec := leValue avgBytesPerSec
       blockAlign := leValue blockAlign
       bitsPerSample := leValue bitsPerSample
       subFormat := subFormat }, pos, cursor)

/-- The loop over the chunks of a RIFF file: the format, if it was found, and the position
and the size of the chunk `data`.  `none` if there is no such chunk, or a broken one before
it.  The loop ends because a chunk has a header of eight bytes. -/
def findChunks (data : List UInt8) : ℕ → Option Fmt → ℕ → ℕ → Option (Option Fmt × ℕ × ℕ)
  | 0, _, _, _ => none
  | fuel + 1, fmt, pos, cursor => do
    let (id, pos) ← readBytes data 4 pos
    let (size, pos) ← readBytes data 4 pos
    let sizeInBytes := leValue size
    let paddingSize := sizeInBytes % 2
    let cursor := cursor + 8
    if id = fourcc 'f' 'm' 't' ' ' then
      let (fmt, pos, cursor) ← readFmt data sizeInBytes pos cursor
      let pos ← seekForward data paddingSize pos
      findChunks data fuel (some fmt) pos (cursor + paddingSize)
    else if id = fourcc 'd' 'a' 't' 'a' then some (fmt, cursor, sizeInBytes)
    else if id = fourcc 'f' 'a' 'c' 't' then
      -- the number of samples is only used for a format that is not known yet
      let (_, pos) ← readBytes data 4 pos
      let rest := wsub 64 sizeInBytes 4 + paddingSize
      let pos ← seekForward data rest pos
      findChunks data fuel fmt pos (cursor + 4 + rest)
    else
      let rest := sizeInBytes + paddingSize
      let pos ← seekForward data rest pos
      findChunks data fuel fmt pos (cursor + rest)

/-- `drwav_get_bytes_per_pcm_frame`, for `float`s. -/
def Fmt.bytesPerPcmFrame (fmt : Fmt) : ℕ := fmt.bitsPerSample * fmt.channels / 8

/-- The basic validation. -/
def Fmt.Valid (fmt : Fmt) : Prop :=
  (fmt.sampleRate ≠ 0 ∧ fmt.sampleRate ≤ 384000) ∧ (fmt.channels ≠ 0 ∧ fmt.channels ≤ 256) ∧
    (fmt.bitsPerSample ≠ 0 ∧ fmt.bitsPerSample ≤ 64) ∧ fmt.blockAlign ≠ 0

instance (fmt : Fmt) : Decidable fmt.Valid := inferInstanceAs (Decidable (_ ∧ _ ∧ _ ∧ _))

/-- The format tag, or that of the subformat. -/
def Fmt.translatedFormatTag (fmt : Fmt) : ℕ :=
  if fmt.formatTag = extensible then fmt.subFormat else fmt.formatTag

/-- A file with samples of type `float` that was opened, before the first sample is read.  The
number of frames is computed from the size of the data when the file is opened. -/
structure Reader where
  data : List UInt8
  fmt : Fmt
  dataChunkDataPos : ℕ
  dataChunkDataSize : ℕ
  totalPCMFrameCount : ℕ

/-- Where a reader is in the samples. -/
structure ReadState where
  pos : ℕ
  bytesRemaining : ℕ
  readCursorInPCMFrames : ℕ

/-- Where it starts. -/
def Reader.start (wav : Reader) : ReadState :=
  ⟨wav.dataChunkDataPos, wav.dataChunkDataSize, 0⟩

/-- The bytes that `drwav_read_pcm_frames_f32` puts into its buffer. -/
def Reader.readPcmBytes (wav : Reader) (framesToRead : ℕ) (s : ReadState) : List UInt8 :=
  let framesToRead := min framesToRead (wav.totalPCMFrameCount - s.readCursorInPCMFrames)
  let bytesToRead := min (framesToRead * wav.fmt.bytesPerPcmFrame) s.bytesRemaining
  (wav.data.drop s.pos).take bytesToRead

/-- `drwav_read_pcm_frames_f32`: how many frames it returns, and where the reader is then. -/
def Reader.readPcmFrames (wav : Reader) (framesToRead : ℕ) (s : ReadState) : ℕ × ReadState :=
  let bytesRead := (wav.readPcmBytes framesToRead s).length
  (bytesRead / wav.fmt.bytesPerPcmFrame,
    ⟨s.pos + bytesRead, s.bytesRemaining - bytesRead,
      s.readCursorInPCMFrames + bytesRead / wav.fmt.bytesPerPcmFrame⟩)

/-- The reader after `n` calls for 128 frames. -/
def Reader.afterCalls (wav : Reader) : ℕ → ReadState
  | 0 => wav.start
  | n + 1 => (wav.readPcmFrames 128 (wav.afterCalls n)).2

/-- A reader that has run dry stays dry. -/
theorem Reader.readPcmFrames_stops (wav : Reader) {n : ℕ} (s : ReadState)
    (h : (wav.readPcmFrames n s).1 = 0) :
    (wav.readPcmFrames n (wav.readPcmFrames n s).2).1 = 0 := by
  unfold readPcmFrames at h ⊢
  dsimp only at h ⊢
  rw [h, Nat.add_zero]
  generalize hframe : wav.fmt.bytesPerPcmFrame = frame at h ⊢
  rcases Nat.eq_zero_or_pos frame with rfl | hpos
  · exact Nat.div_zero _
  -- less than a frame was read: there are no frames any more, or no bytes
  have hless := (Nat.div_eq_zero_iff_lt hpos).mp h
  refine (Nat.div_eq_zero_iff_lt hpos).mpr ?_
  unfold readPcmBytes at hless ⊢
  rw [hframe] at hless ⊢
  simp only [List.length_take, List.length_drop] at hless ⊢
  rcases Nat.eq_zero_or_pos (min n (wav.totalPCMFrameCount - s.readCursorInPCMFrames))
    with hzero | hframes
  · rw [hzero, Nat.zero_mul, Nat.zero_min, Nat.zero_min]
    exact hpos
  · have := Nat.le_mul_of_pos_left frame hframes
    omega

/-- The samples a reader returns, as bit patterns. -/
def Reader.decoder (wav : Reader) : Decoder (BitVec 32) where
  total := wav.totalPCMFrameCount
  channels := wav.fmt.channels
  got n := (wav.readPcmFrames 128 (wav.afterCalls n)).1
  sample n c i := BitVec.ofNat 32 (leValue
    (((wav.readPcmBytes 128 (wav.afterCalls n)).drop (4 * (i * wav.fmt.channels + c))).take 4))
  stops n := wav.readPcmFrames_stops (wav.afterCalls n)

/-- What a reader of another container or another sample format makes of a file. -/
abbrev Foreign : Type := List UInt8 → Option (ℕ × Decoder (BitVec 32))

/-- The rest of `drwav_init__internal`, for a RIFF file with the chunks that were found. -/
def openSamples (foreign : Foreign) (data : List UInt8) (fmt : Fmt)
    (dataChunkDataPos dataChunkSize : ℕ) : Option (ℕ × Decoder (BitVec 32)) :=
  if ¬ fmt.Valid then none
  else if fmt.translatedFormatTag ≠ ieeeFloat ∨ fmt.bitsPerSample ≠ 32 then foreign data
  else if data.length < dataChunkDataPos then none
  else
    -- a file whose size was not filled in for lack of a number
    let dataChunkSize :=
      if dataChunkSize = 0xFFFFFFFF then data.length - dataChunkDataPos else dataChunkSize
    let bytesPerFrame := fmt.bytesPerPcmFrame
    if bytesPerFrame = 0 then none
    else
      let wav : Reader :=
        { data := data
          fmt := fmt
          dataChunkDataPos := dataChunkDataPos
          dataChunkDataSize := dataChunkSize
          totalPCMFrameCount := dataChunkSize / bytesPerFrame }
      some (fmt.sampleRate, wav.decoder)

/-- `drwav_init_memory`: the sample rate and the samples. -/
def initMemory (foreign : Foreign) (data : List UInt8) : Option (ℕ × Decoder (BitVec 32)) := do
  let (riff, pos) ← readBytes data 4 0
  if riff = fourcc 'R' 'I' 'F' 'F' then
    let (chunkSize, pos) ← readBytes data 4 pos
    if leValue chunkSize < 36 then none
    else
      let (wave, pos) ← readBytes data 4 pos
      if wave = fourcc 'W' 'A' 'V' 'E' then
        let (fmt, dataPos, dataSize) ← findChunks data data.length none pos pos
        openSamples foreign data (← fmt) dataPos dataSize
      else none
  else foreign data

/-! ### Writing -/

section Writing

variable {wav : Writer} {payload : List UInt8}

/-- The header as it is written. -/
def header (fmt : Fmt) (chunkSizeRIFF chunkSizeDATA : ℕ) : List UInt8 :=
  (headerFields fmt chunkSizeRIFF chunkSizeDATA).flatten

theorem length_header (fmt : Fmt) (r n : ℕ) : (header fmt r n).length = 44 := rfl

/-- **A writer that has not been closed**: behind the header of an empty file are the samples,
and the writer behind them. -/
structure Writer.Appends (wav : Writer) (payload : List UInt8) : Prop where
  atEnd : wav.stream.AtEnd
  bytes : wav.stream.bytes = header wav.fmt 28 0 ++ payload
  dataPos : wav.dataChunkDataPos = 44
  dataSize : wav.dataChunkDataSize = wrap 64 payload.length

theorem appends_of_initWrite {f : DataFormat} (h : initWrite f = some wav) :
    wav.Appends [] ∧ preinitWrite f = some wav.fmt := by
  obtain ⟨fmt, hfmt, rfl⟩ := Option.map_eq_some_iff.mp h
  obtain ⟨hend, hbytes⟩ :=
    WriteStream.foldl_write WriteStream.atEnd_empty (headerFields fmt 28 0)
  exact ⟨⟨hend, hbytes.trans (List.append_nil _).symm, rfl, rfl⟩, hfmt⟩

theorem Writer.Appends.writeRaw (h : wav.Appends payload) (pData : List UInt8) :
    (wav.writeRaw pData).2.Appends (payload ++ pData) := by
  unfold Writer.writeRaw
  split
  · rename_i hnone
    rwa [List.eq_nil_of_length_eq_zero hnone, List.append_nil]
  · refine ⟨h.atEnd.write pData, ?_, h.dataPos, ?_⟩
    · show (wav.stream.write pData).bytes = header wav.fmt 28 0 ++ (payload ++ pData)
      rw [WriteStream.write_of_atEnd h.atEnd, h.bytes, List.append_assoc]
    · show wrap 64 (wav.dataChunkDataSize + pData.length) = wrap 64 (payload ++ pData).length
      rw [h.dataSize, List.length_append, wrap, wrap, wrap, Nat.mod_add_mod]

theorem Writer.writeRaw_fmt (pData : List UInt8) : (wav.writeRaw pData).2.fmt = wav.fmt := by
  unfold Writer.writeRaw
  split <;> rfl

theorem Writer.writePcmFrames_fmt (n : ℕ) (pData : ℕ → UInt8) :
    (wav.writePcmFrames n pData).2.fmt = wav.fmt := by
  unfold Writer.writePcmFrames
  split
  · rfl
  · exact writeRaw_fmt _

/-- **More samples** are appended.  A writer that has not been closed is always at the end of its
file, so writing the next samples leaves the ones before as they are. -/
theorem Writer.Appends.writePcmFrames (h : wav.Appends payload) (n : ℕ) (pData : ℕ → UInt8) :
    (wav.writePcmFrames n pData).2.Appends
      (payload ++ (List.range (n * wav.fmt.channels * wav.fmt.bitsPerSample / 8)).map pData) := by
  unfold Writer.writePcmFrames
  split
  · rename_i hnone
    rw [hnone, Nat.zero_mul, Nat.zero_mul, Nat.zero_div, List.range_zero, List.map_nil,
      List.append_nil]
    exact h
  · exact h.writeRaw _

/-- The number of frames that is returned. -/
theorem Writer.writePcmFrames_fst (hbits : wav.fmt.bitsPerSample = 32)
    (hchannels : wav.fmt.channels ≠ 0) (n : ℕ) (pData : ℕ → UInt8) :
    (wav.writePcmFrames n pData).1 = n := by
  have hbytes : n * wav.fmt.channels * 32 / 8 = 4 * wav.fmt.channels * n := by
    rw [show n * wav.fmt.channels * 32 = 8 * (4 * wav.fmt.channels * n) by ring,
      Nat.mul_div_cancel_left _ (by decide)]
  unfold Writer.writePcmFrames
  split
  · rename_i hnone
    exact hnone.symm
  rename_i hsome
  have hpos : 4 * wav.fmt.channels * n ≠ 0 :=
    Nat.mul_ne_zero (Nat.mul_ne_zero four_ne_zero hchannels) hsome
  dsimp only
  rw [hbits, hbytes, Writer.writeRaw, List.length_map, List.length_range, if_neg hpos,
    show 4 * wav.fmt.channels * n * 8 = 32 * (n * wav.fmt.channels) by ring,
    Nat.mul_div_cancel_left _ (by decide), Nat.mul_div_cancel _ (Nat.pos_of_ne_zero hchannels)]

/-- The header between its two sizes. -/
def headerMiddle (fmt : Fmt) : List UInt8 :=
  (((headerFields fmt 0 0).drop 2).take 10).flatten

/-- The header around its sizes. -/
theorem header_append (fmt : Fmt) (r n : ℕ) (rest : List UInt8) :
    header fmt r n ++ rest =
      fourcc 'R' 'I' 'F' 'F' ++ leBytes 4 r ++ (headerMiddle fmt ++ (leBytes 4 n ++ rest)) := by
  simp only [header, headerMiddle, headerFields, List.drop_succ_cons, List.drop_zero,
    List.take_succ_cons, List.take_zero, List.flatten_cons, List.flatten_nil, List.append_nil,
    List.append_assoc]

theorem length_headerMiddle (fmt : Fmt) : (headerMiddle fmt).length = 32 := rfl

/-- Filling in the size of the RIFF chunk. -/
theorem write_riffChunkSize {s : WriteStream} {fmt : Fmt} {r r' n : ℕ} {rest : List UInt8}
    (h : s.bytes = header fmt r n ++ rest) :
    ((s.seek 4).write (leBytes 4 r')).bytes = header fmt r' n ++ rest := by
  rw [header_append] at h ⊢
  refine WriteStream.write_of_split h ?_ ?_
  · show min 4 s.bytes.length = 4
    rw [h]
    exact Nat.min_eq_left (by simp [fourcc])
  · rw [length_leBytes, length_leBytes]

/-- Filling in the size of the samples. -/
theorem write_dataChunkSize {s : WriteStream} {fmt : Fmt} {r n n' : ℕ} {rest : List UInt8}
    (h : s.bytes = header fmt r n ++ rest) :
    ((s.seek 40).write (leBytes 4 n')).bytes = header fmt r n' ++ rest := by
  rw [header_append, ← List.append_assoc, ← List.append_assoc] at h ⊢
  refine WriteStream.write_of_split h ?_ ?_
  · show min 40 s.bytes.length = 40
    rw [h]
    refine Nat.min_eq_left ?_
    simp only [List.length_append, length_leBytes, length_headerMiddle]
    show 40 ≤ 4 + 4 + 32 + 4 + rest.length
    exact Nat.le_add_right_of_le (by decide)
  · rw [length_leBytes, length_leBytes]

/-- **Closing the file** fills in the sizes, and appends a byte if the samples take an odd
number of them. -/
theorem Writer.Appends.uninit_bytes (h : wav.Appends payload) (hlt : payload.length < 2 ^ 64) :
    wav.uninit.bytes =
      header wav.fmt (riffChunkSize payload.length) (dataChunkSizeRiff payload.length) ++
        (payload ++ List.replicate (payload.length % 2) 0) := by
  have hsize : wav.dataChunkDataSize = payload.length := h.dataSize.trans (wrap_of_lt hlt)
  -- the file with its padding
  have hpadded : (if 0 < payload.length % 2 then
      wav.stream.write (List.replicate (payload.length % 2) 0) else wav.stream).bytes =
        header wav.fmt 28 0 ++ (payload ++ List.replicate (payload.length % 2) 0) := by
    split
    · rw [WriteStream.write_of_atEnd h.atEnd, h.bytes, List.append_assoc]
    · rename_i heven
      rw [Nat.eq_zero_of_not_pos heven, List.replicate_zero, List.append_nil]
      exact h.bytes
  unfold Writer.uninit
  rw [hsize, h.dataPos]
  exact write_dataChunkSize (write_riffChunkSize hpadded)

end Writing

/-! ### Opening -/

section Opening

variable {foreign : Foreign} {fmt : Fmt} {data rest : List UInt8} {r n : ℕ}

/-- A file that begins with a RIFF header. -/
theorem initMemory_of_riff (hdata : data = fourcc 'R' 'I' 'F' 'F' ++ (leBytes 4 r ++ rest))
    (hr : r < 2 ^ 32) :
    initMemory foreign data =
      if r < 36 then none
      else (readBytes data 4 8).bind fun w =>
        if w.1 = fourcc 'W' 'A' 'V' 'E' then
          (findChunks data data.length none w.2 w.2).bind fun found =>
            found.1.bind fun fmt => openSamples foreign data fmt found.2.1 found.2.2
        else none := by
  have hriff : data.drop 0 = fourcc 'R' 'I' 'F' 'F' ++ (leBytes 4 r ++ rest) := hdata
  have hsize : data.drop 4 = leBytes 4 r ++ rest := drop_of_drop hriff rfl
  have hread : readBytes data 4 0 = some (fourcc 'R' 'I' 'F' 'F', 4) := readBytes_of_drop hriff rfl
  have hread' : readBytes data 4 4 = some (leBytes 4 r, 8) :=
    readBytes_of_drop hsize (length_leBytes 4 r)
  have hvalue : leValue (leBytes 4 r) = r := leValue_leBytes_of_lt hr
  unfold initMemory
  simp only [hread, hread', hvalue, Option.bind_eq_bind, Option.bind_some, if_true]

/-- **A file that was not closed** is refused: the size in its header is that of an empty
file, and less than a reader accepts. -/
theorem initMemory_of_unfinished (foreign : Foreign) (fmt : Fmt) (payload : List UInt8) :
    initMemory foreign (header fmt 28 0 ++ payload) = none := by
  have hdata := header_append fmt 28 0 payload
  rw [List.append_assoc] at hdata
  rw [initMemory_of_riff hdata (by decide), if_pos (by decide)]

/-- The numbers of a format fit their fields.  A number that does not fit is cut off when it is
written, and another one is read back. -/
structure Fmt.Fits (fmt : Fmt) : Prop where
  formatTag : fmt.formatTag < 2 ^ 16
  channels : fmt.channels < 2 ^ 16
  sampleRate : fmt.sampleRate < 2 ^ 32
  avgBytesPerSec : fmt.avgBytesPerSec < 2 ^ 32
  blockAlign : fmt.blockAlign < 2 ^ 16
  bitsPerSample : fmt.bitsPerSample < 2 ^ 16
  subFormat : fmt.subFormat = 0

/-- The format is read back. -/
theorem readFmt_of_drop (hfits : fmt.Fits) {pos : ℕ} (cursor : ℕ)
    (h : data.drop pos = leBytes 2 fmt.formatTag ++ (leBytes 2 fmt.channels ++
      (leBytes 4 fmt.sampleRate ++ (leBytes 4 fmt.avgBytesPerSec ++ (leBytes 2 fmt.blockAlign ++
        (leBytes 2 fmt.bitsPerSample ++ rest)))))) :
    readFmt data 16 pos cursor = some (fmt, pos + 16, cursor + 16) ∧
      data.drop (pos + 16) = rest := by
  have h2 := drop_of_drop h (length_leBytes _ _)
  have h4 := drop_of_drop h2 (length_leBytes _ _)
  have h8 := drop_of_drop h4 (length_leBytes _ _)
  have h12 := drop_of_drop h8 (length_leBytes _ _)
  have h14 := drop_of_drop h12 (length_leBytes _ _)
  have h16 := drop_of_drop h14 (length_leBytes _ _)
  -- every number is read back
  have htag : leValue (leBytes 2 fmt.formatTag) = fmt.formatTag :=
    leValue_leBytes_of_lt hfits.formatTag
  have hchannels : leValue (leBytes 2 fmt.channels) = fmt.channels :=
    leValue_leBytes_of_lt hfits.channels
  have hrate : leValue (leBytes 4 fmt.sampleRate) = fmt.sampleRate :=
    leValue_leBytes_of_lt hfits.sampleRate
  have havg : leValue (leBytes 4 fmt.avgBytesPerSec) = fmt.avgBytesPerSec :=
    leValue_leBytes_of_lt hfits.avgBytesPerSec
  have halign : leValue (leBytes 2 fmt.blockAlign) = fmt.blockAlign :=
    leValue_leBytes_of_lt hfits.blockAlign
  have hbits : leValue (leBytes 2 fmt.bitsPerSample) = fmt.bitsPerSample :=
    leValue_leBytes_of_lt hfits.bitsPerSample
  refine ⟨?_, h16⟩
  unfold readFmt readExtension
  simp only [readBytes_of_drop h (length_leBytes _ _), readBytes_of_drop h2 (length_leBytes _ _),
    readBytes_of_drop h4 (length_leBytes _ _), readBytes_of_drop h8 (length_leBytes _ _),
    readBytes_of_drop h12 (length_leBytes _ _), readBytes_of_drop h14 (length_leBytes _ _),
    Option.bind_eq_bind, Option.bind_some, le_refl, if_true, htag, hchannels, hrate, havg, halign,
    hbits, ← hfits.subFormat]

/-- The rest of a header, behind its first size. -/
theorem drop_header (fmt : Fmt) (r n : ℕ) (rest : List UInt8) :
    (header fmt r n ++ rest).drop 8 = fourcc 'W' 'A' 'V' 'E' ++ (fourcc 'f' 'm' 't' ' ' ++
      (leBytes 4 16 ++ (leBytes 2 fmt.formatTag ++ (leBytes 2 fmt.channels ++
        (leBytes 4 fmt.sampleRate ++ (leBytes 4 fmt.avgBytesPerSec ++ (leBytes 2 fmt.blockAlign ++
          (leBytes 2 fmt.bitsPerSample ++ (fourcc 'd' 'a' 't' 'a' ++
            (leBytes 4 n ++ rest)))))))))) := by
  rw [header_append, List.drop_left' (by rw [List.length_append, length_leBytes]; rfl)]
  simp only [headerMiddle, headerFields, List.drop_succ_cons, List.drop_zero, List.take_succ_cons,
    List.take_zero, List.flatten_cons, List.flatten_nil, List.append_nil, List.append_assoc]

/-- The chunks of a file with a header. -/
theorem findChunks_of_header (hfits : fmt.Fits) (hn : n < 2 ^ 32)
    (hdata : data = header fmt r n ++ rest) :
    findChunks data data.length none 12 12 = some (some fmt, 44, n) ∧ data.drop 44 = rest := by
  have h8 := hdata ▸ drop_header fmt r n rest
  have h12 := drop_of_drop h8 rfl
  have h16 := drop_of_drop h12 rfl
  have h20 := drop_of_drop h16 (length_leBytes 4 16)
  have hfmt : readFmt data 16 20 20 = some (fmt, 36, 36) := (readFmt_of_drop hfits 20 h20).1
  have h36 := (readFmt_of_drop hfits 20 h20).2
  have h40 := drop_of_drop h36 rfl
  have h44 := drop_of_drop h40 (length_leBytes 4 n)
  have hid : readBytes data 4 12 = some (fourcc 'f' 'm' 't' ' ', 16) := readBytes_of_drop h12 rfl
  have hsize : readBytes data 4 16 = some (leBytes 4 16, 20) :=
    readBytes_of_drop h16 (length_leBytes 4 16)
  have hid' : readBytes data 4 36 = some (fourcc 'd' 'a' 't' 'a', 40) := readBytes_of_drop h36 rfl
  have hsize' : readBytes data 4 40 = some (leBytes 4 n, 44) :=
    readBytes_of_drop h40 (length_leBytes 4 n)
  have hsixteen : leValue (leBytes 4 16) = 16 := rfl
  have hvalue : leValue (leBytes 4 n) = n := leValue_leBytes_of_lt hn
  have hother : fourcc 'd' 'a' 't' 'a' ≠ fourcc 'f' 'm' 't' ' ' := by decide
  -- two chunks, so two rounds of the loop
  obtain ⟨fuel, hfuel⟩ : ∃ fuel, data.length = fuel + 1 + 1 := by
    refine ⟨data.length - 2, ?_⟩
    rw [hdata, List.length_append, length_header]
    omega
  refine ⟨?_, h44⟩
  rw [hfuel, findChunks]
  simp only [hid, hsize, hsixteen, hfmt, Option.bind_eq_bind, Option.bind_some, if_true,
    Nat.reduceAdd, Nat.reduceMod, seekForward_zero]
  rw [findChunks]
  simp only [hid', hsize', hvalue, Option.bind_eq_bind, Option.bind_some, if_true, if_neg hother]

/-- **A file that was closed** is opened, with the format and the size in its header. -/
theorem initMemory_of_finished (hfits : fmt.Fits) (hlow : 36 ≤ r) (hr : r < 2 ^ 32)
    (hn : n < 2 ^ 32) (hdata : data = header fmt r n ++ rest) :
    initMemory foreign data = openSamples foreign data fmt 44 n := by
  obtain ⟨hfound, -⟩ := findChunks_of_header hfits hn hdata
  have hwave : readBytes data 4 8 = some (fourcc 'W' 'A' 'V' 'E', 12) :=
    readBytes_of_drop (hdata ▸ drop_header fmt r n rest) rfl
  have hriff := hdata.trans (header_append fmt r n rest)
  rw [List.append_assoc] at hriff
  rw [initMemory_of_riff hriff hr, if_neg (Nat.not_lt.mpr hlow), hwave, Option.bind_some,
    if_pos rfl, hfound, Option.bind_some, Option.bind_some]

end Opening

/-! ### Reading -/

section Reading

variable {wav : Reader} {payload : List UInt8} {done : ℕ}

/-- The samples are there, as many as the reader expects. -/
structure Reader.Holds (wav : Reader) (payload : List UInt8) : Prop where
  frame_pos : 0 < wav.fmt.bytesPerPcmFrame
  drop_eq : wav.data.drop wav.dataChunkDataPos = payload
  length_eq : payload.length = wav.totalPCMFrameCount * wav.fmt.bytesPerPcmFrame
  size_eq : wav.dataChunkDataSize = wav.totalPCMFrameCount * wav.fmt.bytesPerPcmFrame

/-- Where the reader is after so many frames. -/
def Reader.stateAt (wav : Reader) (done : ℕ) : ReadState :=
  ⟨wav.dataChunkDataPos + done * wav.fmt.bytesPerPcmFrame,
    (wav.totalPCMFrameCount - done) * wav.fmt.bytesPerPcmFrame, done⟩

/-- A call reads the next frames. -/
theorem Reader.Holds.readPcmBytes_eq (h : wav.Holds payload) (n : ℕ) :
    wav.readPcmBytes n (wav.stateAt done) =
      (payload.drop (done * wav.fmt.bytesPerPcmFrame)).take
        (min n (wav.totalPCMFrameCount - done) * wav.fmt.bytesPerPcmFrame) := by
  have hbytes : min (min n (wav.totalPCMFrameCount - done) * wav.fmt.bytesPerPcmFrame)
      ((wav.totalPCMFrameCount - done) * wav.fmt.bytesPerPcmFrame) =
        min n (wav.totalPCMFrameCount - done) * wav.fmt.bytesPerPcmFrame :=
    Nat.min_eq_left (Nat.mul_le_mul_right _ (Nat.min_le_right _ _))
  rw [← h.drop_eq, List.drop_drop, ← hbytes]
  rfl

/-- It returns as many as there are, up to 128, and goes behind them. -/
theorem Reader.Holds.readPcmFrames_eq (h : wav.Holds payload)
    (hdone : done ≤ wav.totalPCMFrameCount) (n : ℕ) :
    wav.readPcmFrames n (wav.stateAt done) =
      (min n (wav.totalPCMFrameCount - done),
        wav.stateAt (done + min n (wav.totalPCMFrameCount - done))) := by
  obtain ⟨got, hgot⟩ : ∃ got, got = min n (wav.totalPCMFrameCount - done) := ⟨_, rfl⟩
  have hlength : (wav.readPcmBytes n (wav.stateAt done)).length =
      got * wav.fmt.bytesPerPcmFrame := by
    rw [h.readPcmBytes_eq, List.length_take, List.length_drop, h.length_eq, ← Nat.sub_mul, ← hgot]
    exact Nat.min_eq_left (Nat.mul_le_mul_right _ (by omega))
  unfold Reader.readPcmFrames
  dsimp only
  rw [hlength, Nat.mul_div_cancel _ h.frame_pos, ← hgot]
  refine Prod.ext rfl ?_
  simp only [Reader.stateAt, Nat.add_mul, Nat.add_assoc, ← Nat.sub_mul, Nat.sub_sub]

theorem Reader.Holds.afterCalls_eq (h : wav.Holds payload) (k : ℕ) :
    wav.afterCalls k = wav.stateAt (min (128 * k) wav.totalPCMFrameCount) := by
  induction k with
  | zero =>
      rw [Reader.afterCalls, Nat.mul_zero, Nat.zero_min, Reader.stateAt, Nat.zero_mul, Nat.sub_zero,
        ← h.size_eq]
      rfl
  | succ k ih =>
      rw [Reader.afterCalls, ih, h.readPcmFrames_eq (Nat.min_le_right _ _)]
      show wav.stateAt _ = wav.stateAt _
      congr 1
      omega

/-- Every call but the last returns 128 frames. -/
theorem Reader.Holds.got_eq (h : wav.Holds payload) (k : ℕ) :
    wav.decoder.got k = min 128 (wav.totalPCMFrameCount - 128 * k) := by
  show (wav.readPcmFrames 128 (wav.afterCalls k)).1 = _
  rw [h.afterCalls_eq, h.readPcmFrames_eq (Nat.min_le_right _ _)]
  dsimp only
  omega

theorem Reader.Holds.decoded_eq (h : wav.Holds payload) (k : ℕ) :
    wav.decoder.decoded k = min (128 * k) wav.totalPCMFrameCount := by
  induction k with
  | zero => rw [Decoder.decoded_zero, Nat.mul_zero, Nat.zero_min]
  | succ k ih =>
      rw [Decoder.decoded_succ, ih, h.got_eq]
      omega

/-- A `float` is read back from its bytes. -/
theorem leValue_floatBytes (x : ℕ → BitVec 32) (j : ℕ) :
    BitVec.ofNat 32 (leValue ((List.range 4).map fun i => floatBytes x (4 * j + i))) = x j := by
  have hbytes : ((List.range 4).map fun i => floatBytes x (4 * j + i)) =
      leBytes 4 (x j).toNat := by
    rw [leBytes_eq_map]
    apply List.map_congr_left
    intro i hi
    have hlt := List.mem_range.mp hi
    rw [floatBytes, Nat.mul_add_div (by decide), Nat.div_eq_of_lt hlt, Nat.add_zero,
      Nat.mul_add_mod, Nat.mod_eq_of_lt hlt]
  have hvalue : leValue (leBytes 4 (x j).toNat) = (x j).toNat := leValue_leBytes_of_lt (x j).isLt
  rw [hbytes, hvalue, BitVec.ofNat_toNat, BitVec.setWidth_eq]

/-- **The samples** of a call are the next ones of the file. -/
theorem Reader.Holds.sample_eq {x : ℕ → BitVec 32}
    (h : wav.Holds ((List.range (4 * (wav.totalPCMFrameCount * wav.fmt.channels))).map
      (floatBytes x)))
    (hframe : wav.fmt.bytesPerPcmFrame = 4 * wav.fmt.channels) {k c i : ℕ}
    (hi : i < wav.decoder.got k) (hc : c < wav.fmt.channels) :
    wav.decoder.sample k c i = x ((128 * k + i) * wav.fmt.channels + c) := by
  obtain ⟨got, hgot⟩ : ∃ got, got = wav.decoder.got k := ⟨_, rfl⟩
  have hcount := hgot.trans (h.got_eq k)
  rw [← hgot] at hi
  have hbefore : min (128 * k) wav.totalPCMFrameCount = 128 * k := by omega
  have hframes : min 128 (wav.totalPCMFrameCount - 128 * k) = got := hcount.symm
  -- the bytes of the call, and the four of the sample among them
  have hcall : wav.readPcmBytes 128 (wav.afterCalls k) =
      (List.range (got * (4 * wav.fmt.channels))).map
        fun t => floatBytes x (128 * k * (4 * wav.fmt.channels) + t) := by
    rw [h.afterCalls_eq, h.readPcmBytes_eq, hbefore, hframes, hframe]
    apply take_drop_map_range
    have hrow : (128 * k + got) * wav.fmt.channels ≤
        wav.totalPCMFrameCount * wav.fmt.channels := Nat.mul_le_mul_right _ (by omega)
    calc 128 * k * (4 * wav.fmt.channels) + got * (4 * wav.fmt.channels)
        = 4 * ((128 * k + got) * wav.fmt.channels) := by ring
      _ ≤ 4 * (wav.totalPCMFrameCount * wav.fmt.channels) := Nat.mul_le_mul_left _ hrow
  have hfit : 4 * (i * wav.fmt.channels + c) + 4 ≤ got * (4 * wav.fmt.channels) := by
    have hrow : (i + 1) * wav.fmt.channels ≤ got * wav.fmt.channels :=
      Nat.mul_le_mul_right _ hi
    rw [Nat.add_mul, Nat.one_mul] at hrow
    rw [Nat.mul_left_comm]
    omega
  have hindex : ∀ t, 128 * k * (4 * wav.fmt.channels) + (4 * (i * wav.fmt.channels + c) + t) =
      4 * ((128 * k + i) * wav.fmt.channels + c) + t := by
    intro t
    ring
  show BitVec.ofNat 32 (leValue (((wav.readPcmBytes 128 (wav.afterCalls k)).drop
    (4 * (i * wav.fmt.channels + c))).take 4)) = _
  rw [hcall, take_drop_map_range hfit]
  simp only [hindex]
  exact leValue_floatBytes x _

end Reading

/-! ### What was written is read -/

section RoundTrip

variable {foreign : Foreign} {fmt : Fmt} {channels sampleRate total : ℕ}

/-- The format of a file of `float`s. -/
structure Fmt.OfFloats (fmt : Fmt) (channels sampleRate : ℕ) : Prop where
  fits : fmt.Fits
  valid : fmt.Valid
  channels_eq : fmt.channels = channels
  sampleRate_eq : fmt.sampleRate = sampleRate
  tag_eq : fmt.translatedFormatTag = ieeeFloat
  bits_eq : fmt.bitsPerSample = 32

theorem Fmt.OfFloats.bytesPerPcmFrame_eq (h : fmt.OfFloats channels sampleRate) :
    fmt.bytesPerPcmFrame = 4 * channels := by
  rw [Fmt.bytesPerPcmFrame, h.bits_eq, h.channels_eq,
    show 32 * channels = 8 * (4 * channels) by ring, Nat.mul_div_cancel_left _ (by decide)]

theorem ofFloats_of_preinitWrite (hchannels : 1 ≤ channels) (hlt : channels ≤ 256)
    (hrate : 1 ≤ sampleRate) (hmax : sampleRate ≤ 384000)
    (h : preinitWrite ⟨ieeeFloat, channels, sampleRate, 32⟩ = some fmt) :
    fmt.OfFloats channels sampleRate := by
  have hch : wrap 16 channels = channels := wrap_of_lt (by omega)
  have halign : wrap 16 (wrap 32 (channels * 32) / 8) = 4 * channels := by
    rw [wrap_of_lt (show channels * 32 < 2 ^ 32 by omega), wrap_of_lt (by omega)]
    omega
  have hrate' : sampleRate < 2 ^ 32 := by omega
  have havg : wrap 32 (32 * sampleRate * channels) / 8 < 2 ^ 32 :=
    (Nat.div_le_self _ _).trans_lt (wrap_lt _ _)
  have hbits : wrap 16 32 ≠ 0 ∧ wrap 16 32 ≤ 64 := by decide
  have hchannels' : wrap 16 channels ≠ 0 ∧ wrap 16 channels ≤ 256 := by omega
  have halign' : wrap 16 (wrap 32 (channels * 32) / 8) ≠ 0 := by omega
  obtain rfl := Option.some.inj h
  exact ⟨⟨wrap_lt _ _, wrap_lt _ _, hrate', havg, wrap_lt _ _, wrap_lt _ _, rfl⟩,
    ⟨⟨Nat.ne_of_gt hrate, hmax⟩, hchannels', hbits, halign'⟩, hch, rfl, rfl, rfl⟩

/-- The reader of a file of `float`s. -/
theorem openSamples_of_floats (hfmt : fmt.OfFloats channels sampleRate) (hchannels : 1 ≤ channels)
    {data : List UInt8} (hlength : 44 ≤ data.length) :
    openSamples foreign data fmt 44 (total * (4 * channels)) =
      some (sampleRate, Reader.decoder ⟨data, fmt, 44, total * (4 * channels), total⟩) := by
  have hbytes := hfmt.bytesPerPcmFrame_eq
  have hknown : total * (4 * channels) ≠ 0xFFFFFFFF := by
    -- the size is even
    rw [Nat.mul_left_comm]
    omega
  have htotal : total * (4 * channels) / (4 * channels) = total :=
    Nat.mul_div_cancel _ (by omega)
  unfold openSamples
  rw [if_neg (not_not.mpr hfmt.valid),
    if_neg (not_or.mpr ⟨not_not.mpr hfmt.tag_eq, not_not.mpr hfmt.bits_eq⟩),
    if_neg (Nat.not_lt.mpr hlength)]
  simp only [if_neg hknown, hbytes, if_neg (show 4 * channels ≠ 0 by omega), htotal,
    hfmt.sampleRate_eq]

/-- **A file that was closed is opened**, with the samples that were written to it. -/
theorem initMemory_of_closed (hfmt : fmt.OfFloats channels sampleRate) (hchannels : 1 ≤ channels)
    {payload : List UInt8} (hpayload : payload.length = total * (4 * channels))
    (hfit : total * (4 * channels) + 36 < 2 ^ 32) :
    ∃ wav : Reader,
      initMemory foreign (header fmt (riffChunkSize payload.length)
        (dataChunkSizeRiff payload.length) ++
          (payload ++ List.replicate (payload.length % 2) 0)) =
        some (sampleRate, wav.decoder) ∧
      wav.fmt = fmt ∧ wav.totalPCMFrameCount = total ∧ wav.Holds payload := by
  have heven : payload.length % 2 = 0 := by
    rw [hpayload, Nat.mul_left_comm]
    omega
  have hriff : riffChunkSize payload.length = 36 + payload.length := by
    unfold riffChunkSize
    omega
  have hdata : dataChunkSizeRiff payload.length = payload.length := if_pos (by omega)
  rw [hriff, hdata, heven, List.replicate_zero, List.append_nil]
  obtain ⟨data, hfile⟩ :
      ∃ data, data = header fmt (36 + payload.length) payload.length ++ payload := ⟨_, rfl⟩
  have hdrop := (findChunks_of_header hfmt.fits (by omega) hfile).2
  have hlength : 44 ≤ data.length := by
    rw [hfile, List.length_append, length_header]
    exact Nat.le_add_right _ _
  rw [← hfile, initMemory_of_finished hfmt.fits (by omega) (by omega) (by omega) hfile, hpayload,
    openSamples_of_floats hfmt hchannels hlength]
  have hbytes := hfmt.bytesPerPcmFrame_eq
  refine ⟨_, rfl, rfl, rfl, ?_, hdrop, ?_, ?_⟩
  · show 0 < fmt.bytesPerPcmFrame
    omega
  · show payload.length = total * fmt.bytesPerPcmFrame
    rw [hpayload, hbytes]
  · show total * (4 * channels) = total * fmt.bytesPerPcmFrame
    rw [hbytes]

end RoundTrip

end DrWav

end Tklb
