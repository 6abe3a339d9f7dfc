import Tklb.TString
import Tklb.HeapBuffer.Arguments
import Tklb.HeapBuffer.Sizes
import Mathlib.Data.List.TakeWhile

/-!
# The characters of a string

`Contents s l` says that the `size()` characters of a string are the list `l`, the
terminator included, and `Terminated s text` that it is the text `text` with one NUL behind
it.  Here is what the operations on the storage do to the characters: `resize` to a larger
size (`resize_grows`), an assignment (`setChar_spec`), the copying loop (`copyFrom_spec`)
and the construction from a C string (`ofCString_spec`).  Each of them leaves the strings
in other blocks of the heap alone (`Elsewhere`).

### What is load-bearing

`Contents` is about characters in `size()` cells, `Terminated` about texts, and `Holding` adds
that the memory is the string's own, with some room.  The three are used for different things:
what a loop copies, what a caller reads, and what the next call may rely on.

`Elsewhere` is the frame of a call on one of several strings.  A call works in the memory the
string had or in a block it obtained, and both are different from the memory of any other string
(`Housed`).
-/

namespace Tklb

open Foundation HeapBuffer BufferState

namespace TString

variable {B : BufferType} {s t : BufferState UInt8} {l text : List UInt8}

/-- The characters of the string are `l`.  They are in the first cells of its memory; the room
behind them may hold anything. -/
structure Contents (s : BufferState UInt8) (l : List UInt8) : Prop where
  size : s.buffer.mSize = l.length
  value : ∀ i < l.length, s.value i = l[i]?

/-- The string is the text `text`, and the terminator is its only NUL. A C string could be read from
its memory, and would be the text. -/
structure Terminated (s : BufferState UInt8) (text : List UInt8) : Prop where
  contents : Contents s (text ++ [terminator])
  noNul : terminator ∉ text

theorem Contents.charAt (h : Contents s l) (i : ℕ) : TString.charAt s i = l[i]? := by
  unfold TString.charAt
  rw [h.size]
  split
  · rename_i hi
    exact h.value i hi
  · rename_i hi
    exact (List.getElem?_eq_none (Nat.le_of_not_lt hi)).symm

/-- Characters are read from the string's own memory. -/
theorem charAt_congr {h h' : Heap UInt8} {d : HeapBuffer}
    (hsame : ∀ b, d.mBuf = some b → h'.objects.slot b = h.objects.slot b) (i : ℕ) :
    charAt ⟨h', d⟩ i = charAt ⟨h, d⟩ i := by
  unfold charAt value BufferState.slot
  cases hb : d.mBuf with
  | none => rfl
  | some b =>
      simp only [Option.bind_some]
      rw [hsame b hb]

theorem Contents.congr {h h' : Heap UInt8} {d : HeapBuffer}
    (hsame : ∀ b, d.mBuf = some b → h'.objects.slot b = h.objects.slot b)
    (hc : Contents ⟨h, d⟩ l) : Contents ⟨h', d⟩ l where
  size := hc.size
  value i hi := by
    have hread := charAt_congr hsame i
    rwa [hc.charAt, TString.charAt, if_pos (by exact hc.size ▸ hi)] at hread

/-- What a call may do to the heap: it worked in the memory the string had, or in a block
it obtained. -/
structure Elsewhere (s t : BufferState UInt8) : Prop where
  block : t.buffer.mBuf = s.buffer.mBuf ∨ t.buffer.mBuf = some s.heap.blocks
  blocks : s.heap.blocks ≤ t.heap.blocks
  inside : ∀ b, t.buffer.mBuf = some b → b < t.heap.blocks
  others : ∀ b, s.buffer.mBuf ≠ some b → b ≠ s.heap.blocks →
    t.heap.objects.slot b = s.heap.objects.slot b

/-! ### Assignments -/

/-- Only characters in the memory of the string were written. -/
structure Writes (s t : BufferState UInt8) : Prop where
  buffer : t.buffer = s.buffer
  blocks : t.heap.blocks = s.heap.blocks
  others : ∀ b, s.buffer.mBuf ≠ some b → t.heap.objects.slot b = s.heap.objects.slot b

theorem Writes.refl (s : BufferState UInt8) : Writes s s := ⟨rfl, rfl, fun _ _ => rfl⟩

theorem Writes.trans {r : BufferState UInt8} (h : Writes r s) (h' : Writes s t) :
    Writes r t where
  buffer := h'.buffer.trans h.buffer
  blocks := h'.blocks.trans h.blocks
  others b hb := (h'.others b (by rw [h.buffer]; exact hb)).trans (h.others b hb)

theorem Elsewhere.writes {r : BufferState UInt8} (h : Elsewhere r s) (h' : Writes s t) :
    Elsewhere r t where
  block := by rw [h'.buffer]; exact h.block
  blocks := by rw [h'.blocks]; exact h.blocks
  inside b hb := by
    rw [h'.buffer] at hb
    rw [h'.blocks]
    exact h.inside b hb
  others b hb hnew := by
    refine (h'.others b fun heq => ?_).trans (h.others b hb hnew)
    rcases h.block with hold | hblock
    · exact hb (hold.symm.trans heq)
    · exact hnew (Option.some.inj (heq.symm.trans hblock))

/-- An assignment outside the string is none. -/
theorem setChar_of_le {i : ℕ} (hi : s.buffer.mSize ≤ i) (c : UInt8) : setChar s i c = none :=
  if_neg (by omega)

/-- **An assignment.**  The index must be one of the string; the size stays, and so do the other
characters and the other strings. -/
theorem setChar_spec (h : Contents s l) {i : ℕ} (hi : i < l.length) (c : UInt8) :
    ∃ t, setChar s i c = some t ∧ Contents t (l.set i c) ∧ Writes s t := by
  have hvalue := h.value i hi
  rw [List.getElem?_eq_getElem hi, BufferState.value, Option.map_eq_some_iff] at hvalue
  obtain ⟨object, hobject, -⟩ := hvalue
  obtain ⟨b, hb, -⟩ : ∃ b, s.buffer.mBuf = some b ∧ s.heap.objects.slot b i = some object :=
    Option.bind_eq_some_iff.mp hobject
  refine ⟨s.onMemory fun objects b => objects.put b i (some (c, object.2)), ?_, ?_, ?_⟩
  · rw [setChar, if_pos (by rw [h.size]; exact hi), hobject, Option.map_some]
  · refine ⟨by rw [onMemory_buffer, h.size, List.length_set], fun j hj => ?_⟩
    rw [List.length_set] at hj
    rw [BufferState.value, onMemory_slot hb, ObjectStore.put_slot, List.getElem?_set]
    by_cases hij : i = j
    · rw [if_pos hij.symm, if_pos hij, if_pos hi, Option.map_some]
    · rw [if_neg (Ne.symm hij), if_neg hij, ← h.value j hj, BufferState.value, BufferState.slot,
        hb, Option.bind_some]
  · obtain ⟨X, hX⟩ := onMemory_heap (s := s) fun objects b => objects.put b i (some (c, object.2))
    refine ⟨onMemory_buffer, by rw [hX], fun b' hb' => ?_⟩
    rw [onMemory_objects hb]
    exact ObjectStore.put_slot_of_ne (fun heq => hb' (by rw [hb, heq])) _

/-- **The copying loop.**  The characters `chars` of another string replace those from
`start + i` on. -/
theorem copyFrom_spec {str : HeapBuffer} {chars : List UInt8} {start i : ℕ}
    (hstr : ∀ k < chars.length, charAt ⟨s.heap, str⟩ (i + k) = chars[k]?)
    (hne : ∀ b, str.mBuf = some b → s.buffer.mBuf ≠ some b) (h : Contents s l)
    (hfit : start + i + chars.length ≤ l.length) (hlt : l.length < 2 ^ B.sizeBits) :
    ∃ t, copyFrom B str start chars.length i s = some t ∧
      Contents t (l.take (start + i) ++ chars ++ l.drop (start + i + chars.length)) ∧
      Writes s t := by
  induction chars generalizing s l i with
  | nil =>
      refine ⟨s, rfl, ?_, Writes.refl s⟩
      rw [List.append_nil, List.length_nil, Nat.add_zero, List.take_append_drop]
      exact h
  | cons c chars ih =>
      rw [List.length_cons] at hfit
      have hread : charAt ⟨s.heap, str⟩ i = some c := by
        simpa using hstr 0 (by simp)
      obtain ⟨t, hset, hcontents, hwrites⟩ := setChar_spec h (i := start + i) (by omega) c
      have hkeep : ∀ j, charAt ⟨t.heap, str⟩ j = charAt ⟨s.heap, str⟩ j :=
        charAt_congr fun b hb => hwrites.others b (hne b hb)
      obtain ⟨u, hcopy, hu, hwrites'⟩ := ih (s := t) (l := l.set (start + i) c) (i := i + 1)
        (fun k hk => by
          rw [hkeep, show i + 1 + k = i + (k + 1) by omega, hstr (k + 1) (by simpa using hk),
            List.getElem?_cons_succ])
        (fun b hb => by rw [hwrites.buffer]; exact hne b hb) hcontents
        (by rw [List.length_set]; omega) (by rw [List.length_set]; exact hlt)
      refine ⟨u, ?_, ?_, hwrites.trans hwrites'⟩
      · rw [List.length_cons, copyFrom, hread]
        simp only [Option.bind_eq_bind, Option.bind_some]
        rw [wrap_of_lt (by omega), hset, Option.bind_some, hcopy]
      · have hlen : (l.take (start + i)).length = start + i := by
          rw [List.length_take]
          omega
        have hsplit : l.set (start + i) c =
            l.take (start + i) ++ c :: l.drop (start + i + 1) := by
          rw [List.set_eq_take_append_cons_drop, if_pos (by omega)]
        have hfront : (l.set (start + i) c).take (start + (i + 1)) = l.take (start + i) ++ [c] := by
          rw [hsplit, List.take_append, hlen, List.take_of_length_le (by omega),
            show start + (i + 1) - (start + i) = 1 by omega]
          rfl
        have hback : (l.set (start + i) c).drop (start + (i + 1) + chars.length) =
            l.drop (start + i + (chars.length + 1)) := by
          rw [List.drop_set_of_lt (by omega)]
          congr 1
          omega
        rw [hfront, hback, List.append_assoc, List.append_assoc] at hu
        rw [List.length_cons, List.append_assoc]
        exact hu

/-! ### Growing -/

theorem Contents.extend (h : Contents s l) {b n : ℕ} (hb : s.buffer.mBuf = some b)
    (hn : l.length ≤ n) : Contents (s.extend n) (l ++ List.replicate (n - l.length) 0) where
  size := by
    rw [List.length_append, List.length_replicate, Nat.add_sub_cancel' hn]
    exact congrArg mSize (extend_buffer n)
  value i hi := by
    have hsize := h.size
    rw [List.length_append, List.length_replicate] at hi
    have hmemory : (s.extend n).slot i = (s.heap.objects.constructFrom b s.buffer.mSize
        (List.replicate (n - s.buffer.mSize) default)).slot b i := by
      rw [extend_eq_grown, grown, BufferState.slot, hb, Option.bind_some, constructFrom,
        onMemory_objects hb]
    rw [BufferState.value, hmemory, ObjectStore.constructFrom_slot, List.length_replicate, hsize]
    by_cases hlt : i < l.length
    · have hold := h.value i hlt
      rw [BufferState.value, BufferState.slot, hb, Option.bind_some] at hold
      rw [if_neg (by omega), hold, List.getElem?_append_left hlt]
    · rw [if_pos (by omega), List.getElem?_append_right (by omega), ← List.getElem?_map,
        List.zipIdx_map_fst]
      rfl

/-- What construction behind the last character does to the heap. -/
theorem extend_elsewhere (s : BufferState UInt8) (n : ℕ) :
    (s.extend n).heap.blocks = s.heap.blocks ∧ ∀ b, s.buffer.mBuf ≠ some b →
      (s.extend n).heap.objects.slot b = s.heap.objects.slot b := by
  rw [extend_eq_grown]
  obtain ⟨X, hX⟩ := grown_heap (s := s) (List.replicate (n - s.buffer.mSize) default) n
  refine ⟨by rw [hX], fun b hb => funext fun i => ?_⟩
  exact grown_frame (fun heq => absurd heq hb) _ n

/-- What a string knows of its memory.  With a capacity there is a block, and it is one of those
obtained so far, so a block that is obtained later is another one. -/
structure Housed (s : BufferState UInt8) : Prop where
  isSome : s.buffer.mRealSize ≠ 0 → s.buffer.mBuf.isSome
  inside : ∀ b, s.buffer.mBuf = some b → b < s.heap.blocks

/-- **`resize` to a larger size**, if the memory need not be exchanged or the allocator
has the new one. -/
theorem resize_grows (h : Contents s l) (hs : Housed s) {n : ℕ} (hl : l.length ≤ n)
    (hpos : 0 < n) (hfit : (n + 15) / 16 * 16 < 2 ^ B.sizeBits)
    (hgrant : (n + 15) / 16 * 16 = s.buffer.mRealSize ∨
      s.heap.grants s.heap.requests = true) :
    ∃ t, resize B s n = (true, t) ∧ t.buffer.mRealSize = (n + 15) / 16 * 16 ∧
      t.buffer.mBuf.isSome ∧ Contents t (l ++ List.replicate (n - l.length) 0) ∧
      Elsewhere s t := by
  have hchunk : closestChunkSize B n chunkSize = (n + 15) / 16 * 16 := by
    rw [closestChunkSize_of_lt (by omega), if_pos hfit]
  by_cases hsame : (n + 15) / 16 * 16 = s.buffer.mRealSize
  · -- the memory is kept
    have hkeeps : ¬ Reallocates B s.buffer n true := by
      simp only [Reallocates, hchunk, true_and]
      omega
    obtain ⟨b, hb⟩ := Option.isSome_iff_exists.mp (hs.isSome (by omega))
    obtain ⟨hblocks, hothers⟩ := extend_elsewhere s n
    refine ⟨s.extend n, by rw [resize, if_neg hkeeps], ?_, ?_, h.extend hb hl, ?_⟩
    · rw [extend_buffer, hsame]
    · rw [extend_buffer, hb]
      rfl
    · refine ⟨Or.inl (by rw [extend_buffer]), hblocks.ge, fun c hc => ?_,
        fun c hc _ => hothers c hc⟩
      rw [extend_buffer] at hc
      rw [hblocks]
      exact hs.inside c hc
  · have hreallocates : Reallocates B s.buffer n true := by
      simp only [Reallocates, hchunk, true_and]
      omega
    have hchunkpos : 0 < (n + 15) / 16 * 16 := by omega
    obtain ⟨t, hcall, hexchanged, hblocks, -, hslot⟩ :=
      allocate_exchanges (B := B) hchunkpos (hgrant.resolve_left hsame)
    have hslot := hslot fun heq => lt_irrefl _ (hs.inside _ heq)
    have hb : t.buffer.mBuf = some s.heap.blocks := by rw [hexchanged.buffer]
    have hmoved : Contents t l := by
      refine ⟨by rw [hexchanged.buffer, h.size], fun i hi => ?_⟩
      have hsize := h.size
      rw [BufferState.value, hslot, if_pos (by omega)]
      exact h.value i hi
    obtain ⟨hblocks', hothers⟩ := extend_elsewhere t n
    refine ⟨t.extend n, ?_, ?_, ?_, hmoved.extend hb hl, ?_⟩
    · rw [resize, if_pos hreallocates, hchunk, hcall]
      rfl
    · rw [extend_buffer, hexchanged.buffer]
    · rw [extend_buffer, hb]
      rfl
    · refine ⟨Or.inr (by rw [extend_buffer, hb]), by rw [hblocks', hblocks]; omega,
        fun c hc => ?_, fun c hc hnew => ?_⟩
      · rw [extend_buffer, hb] at hc
        rw [hblocks', hblocks]
        have := Option.some.inj hc
        omega
      · rw [hothers c (by rw [hb]; exact fun heq => hnew (Option.some.inj heq).symm)]
        refine hexchanged.others c (fun heq => hnew (Option.some.inj heq).symm) fun heq => ?_
        unfold owned at heq
        split at heq
        · cases heq
        · exact hc heq

/-- A larger block the allocator does not have. -/
theorem resize_refused {n : ℕ} (hfit : (n + 15) / 16 * 16 < 2 ^ B.sizeBits) (hpos : 0 < n)
    (hchange : (n + 15) / 16 * 16 ≠ s.buffer.mRealSize)
    (hrefused : s.heap.grants s.heap.requests = false) :
    resize B s n = (false, { s with heap := { s.heap with requests := s.heap.requests + 1 } }) := by
  have hchunk : closestChunkSize B n chunkSize = (n + 15) / 16 * 16 := by
    rw [closestChunkSize_of_lt (by omega), if_pos hfit]
  have hreallocates : Reallocates B s.buffer n true := by
    simp only [Reallocates, hchunk, true_and]
    omega
  rw [resize, if_pos hreallocates, hchunk, allocate_refused (by omega) hrefused]
  rfl

/-! ### Construction from a C string -/

/-- The text `set` takes from a C string: it ends before the first NUL, and `MAX_LENGTH`
characters with the terminator are enough. -/
def cText (B : BufferType) (str : List UInt8) : List UInt8 :=
  (str.takeWhile (· ≠ terminator)).take (maxLength B - 1)

theorem terminator_notMem_cText (str : List UInt8) : terminator ∉ cText B str := by
  intro hmem
  have hchar := List.mem_takeWhile_imp (List.mem_of_mem_take hmem)
  simp at hchar

/-- What the loop of `set` finds in a memory, with `n` characters to go. -/
def lengthIn : ℕ → List UInt8 → Option ℕ
  | 0, _ => some 0
  | _ + 1, [] => none
  | n + 1, c :: str => if c = terminator then some 1 else (lengthIn n str).map (· + 1)

/-- The loop reads a C string that is not on the heap one character after the other. -/
theorem cLength_elsewhere (h : Heap UInt8) (str : List UInt8) (n i : ℕ) :
    cLength h (.elsewhere str) n i = (lengthIn n (str.drop i)).map (i + ·) := by
  induction n generalizing i with
  | zero => rfl
  | succ n ih =>
      rw [cLength, Argument.read]
      rcases Nat.lt_or_ge i str.length with hlt | hge
      · rw [List.getElem?_eq_getElem hlt, List.drop_eq_getElem_cons hlt, lengthIn,
          Option.bind_eq_bind, Option.bind_some]
        split
        · rfl
        · rw [ih, Option.map_map]
          refine congrArg (Option.map · _) (funext fun k => ?_)
          simp only [Function.comp_apply]
          omega
      · rw [List.getElem?_eq_none hge, List.drop_of_length_le hge]
        rfl

theorem cLength_zero (h : Heap UInt8) (str : List UInt8) (n : ℕ) :
    cLength h (.elsewhere str) n 0 = lengthIn n str := by
  simp [cLength_elsewhere]

/-- What the loop of `set` finds: the text, and a character to write the terminator to. -/
theorem lengthIn_spec {n length : ℕ} {str : List UInt8} (h : lengthIn n str = some length)
    (hn : 0 < n) : 0 < length ∧ length ≤ n ∧ length ≤ str.length ∧
      (str.take length).set (length - 1) terminator =
        (str.takeWhile (· ≠ terminator)).take (n - 1) ++ [terminator] := by
  induction str generalizing n length with
  | nil =>
      obtain ⟨m, rfl⟩ := Nat.exists_eq_succ_of_ne_zero hn.ne'
      cases h
  | cons c str ih =>
      obtain ⟨m, rfl⟩ := Nat.exists_eq_succ_of_ne_zero hn.ne'
      rw [Nat.succ_eq_add_one, lengthIn] at h
      split at h
      · rename_i hc
        obtain rfl := Option.some.inj h
        simp [hc]
      · rename_i hc
        obtain ⟨k, hk, rfl⟩ := Option.map_eq_some_iff.mp h
        rw [List.takeWhile_cons, if_pos (by simpa using hc)]
        rcases Nat.eq_zero_or_pos m with rfl | hm
        · -- the last character there is room for is overwritten
          obtain rfl : k = 0 := by simpa [lengthIn] using hk.symm
          simp
        · obtain ⟨hkpos, hkm, hklen, htext⟩ := ih hk hm
          refine ⟨by omega, by omega, by simpa using hklen, ?_⟩
          obtain ⟨k, rfl⟩ := Nat.exists_eq_succ_of_ne_zero hkpos.ne'
          obtain ⟨m, rfl⟩ := Nat.exists_eq_succ_of_ne_zero hm.ne'
          simp only [Nat.succ_eq_add_one, Nat.add_sub_cancel] at htext ⊢
          rw [List.take_succ_cons, List.set_cons_succ, htext, List.take_succ_cons,
            List.cons_append]

/-- `MAX_LENGTH` is a size that can be rounded up, if it is not zero. -/
theorem maxLength_eq (hpos : 0 < maxLength B) :
    maxLength B = 2 ^ 25 ∧ 2 ^ 26 ≤ 2 ^ B.sizeBits := by
  have hbits : 26 ≤ B.sizeBits := by
    by_contra hlt
    have hdvd : 2 ^ B.sizeBits ∣ 1024 * 1024 * 32 := by
      rw [show 1024 * 1024 * 32 = 2 ^ 25 from rfl]
      exact Nat.pow_dvd_pow 2 (by omega)
    rw [maxLength, wrap, Nat.mod_eq_zero_of_dvd hdvd] at hpos
    exact lt_irrefl _ hpos
  have hle := Nat.pow_le_pow_right (n := 2) (by omega) hbits
  refine ⟨?_, hle⟩
  rw [maxLength, wrap_of_lt (by omega)]
  rfl

theorem length_cText_lt (hpos : 0 < maxLength B) (str : List UInt8) :
    (cText B str).length < maxLength B := by
  rw [cText, List.length_take]
  omega

/-- The string holds a text in memory of its own, with the room `resize` gives it.  The capacity is
the size rounded up, since `resize` does not leave any other; so whether the next `append` needs
memory can be told from the sizes. -/
structure Holding (B : BufferType) (s : BufferState UInt8) (text : List UInt8) : Prop where
  terminated : Terminated s text
  housed : Housed s
  isSome : s.buffer.mBuf.isSome
  capacity : s.buffer.mRealSize = (text.length + 1 + 15) / 16 * 16
  fits : (text.length + 1 + 15) / 16 * 16 < 2 ^ B.sizeBits

theorem Elsewhere.housed (h : Elsewhere s t) (hsome : t.buffer.mBuf.isSome) : Housed t :=
  ⟨fun _ => hsome, h.inside⟩

/-- Characters constructed in place of others. -/
theorem Contents.constructFrom {data : List UInt8} (h : Contents s l)
    (hlen : data.length = l.length) (hsome : s.buffer.mBuf.isSome) :
    Contents (s.constructFrom 0 data) data ∧ Writes s (s.constructFrom 0 data) := by
  obtain ⟨b, hb⟩ := Option.isSome_iff_exists.mp hsome
  have hbuffer : (s.constructFrom 0 data).buffer = s.buffer := onMemory_buffer
  obtain ⟨X, hX⟩ := onMemory_heap (s := s) fun objects b => objects.constructFrom b 0 data
  refine ⟨⟨by rw [hbuffer, h.size, hlen], fun i hi => ?_⟩, hbuffer, ?_, fun c hc => ?_⟩
  · rw [BufferState.value, BufferState.constructFrom, onMemory_slot hb,
      ObjectStore.constructFrom_slot, if_pos (by omega), Nat.sub_zero, ← List.getElem?_map,
      List.zipIdx_map_fst]
  · rw [BufferState.constructFrom, hX]
  · rw [BufferState.constructFrom, onMemory_objects hb]
    exact ObjectStore.constructFrom_slot_of_ne fun heq => hc (by rw [hb, heq])

/-- A buffer without elements grows and takes the data. -/
theorem resize_constructFrom {data : List UInt8} (h : Contents s []) (hs : Housed s)
    (hpos : 0 < data.length) (hfit : (data.length + 15) / 16 * 16 < 2 ^ B.sizeBits)
    (hgrant : s.heap.grants s.heap.requests = true) :
    ∃ t, resize B s data.length = (true, t) ∧ Contents (t.constructFrom 0 data) data ∧
      (t.constructFrom 0 data).buffer.mBuf.isSome ∧
      (t.constructFrom 0 data).buffer.mRealSize = (data.length + 15) / 16 * 16 ∧
      Elsewhere s (t.constructFrom 0 data) := by
  obtain ⟨t, hresize, hreal, hsome, hcontents, helsewhere⟩ :=
    resize_grows (B := B) h hs (Nat.zero_le data.length) hpos hfit (Or.inr hgrant)
  have hlen : data.length = ([] ++ List.replicate (data.length - 0) (0 : UInt8)).length := by
    rw [List.nil_append, List.length_replicate, Nat.sub_zero]
  obtain ⟨hfilled, hwrites⟩ := hcontents.constructFrom hlen hsome
  refine ⟨t, hresize, hfilled, ?_, ?_, helsewhere.writes hwrites⟩
  · rwa [hwrites.buffer]
  · rw [hwrites.buffer, hreal]

/-- Characters that are not on the heap are copied. -/
theorem constructCopies_take {str : List UInt8} {n : ℕ} (hn : n ≤ str.length) :
    constructCopies (.elsewhere str) n 0 s = some (s.constructFrom 0 (str.take n)) := by
  have hlen : (str.take n).length = n := List.length_take_of_le hn
  have hread : ∀ i < (str.take n).length,
      (Argument.elsewhere str).read s.heap (0 + i) = (str.take n)[i]? := by
    intro i hi
    rw [Argument.read, Nat.zero_add, List.getElem?_take_of_lt (by omega)]
  have hcopied := constructCopies_eq (s := s) hread trivial
  rwa [hlen] at hcopied

/-- `HeapBuffer::set` on an empty buffer that is refused its memory: nothing is stored. -/
theorem setData_refused {h : Heap UInt8} {data : Argument UInt8} {n : ℕ} (hpos : 0 < n)
    (hfit : (n + 15) / 16 * 16 < 2 ^ B.sizeBits) (hgrant : h.grants h.requests = false) :
    setData B ⟨h, .initial⟩ data n =
      some (false, ⟨{ h with requests := h.requests + 1 }, .initial⟩) := by
  have hrefused : resize B ⟨h, .initial⟩ n =
      (false, ⟨{ h with requests := h.requests + 1 }, .initial⟩) :=
    resize_refused hfit hpos (show (n + 15) / 16 * 16 ≠ 0 by omega) hgrant
  rw [setData, if_neg (by rw [HeapBuffer.initial]; exact Bool.false_ne_true), hrefused]
  rfl

/-- `HeapBuffer::set` on an empty buffer that is granted its memory: the data is stored. -/
theorem setData_granted {h : Heap UInt8} {str : List UInt8} {n : ℕ} (hn : n ≤ str.length)
    (hpos : 0 < n) (hfit : (n + 15) / 16 * 16 < 2 ^ B.sizeBits)
    (hgrant : h.grants h.requests = true) :
    ∃ t, setData B ⟨h, .initial⟩ (.elsewhere str) n = some (true, t) ∧
      Contents t (str.take n) ∧ t.buffer.mBuf.isSome ∧
      t.buffer.mRealSize = (n + 15) / 16 * 16 ∧ Elsewhere ⟨h, .initial⟩ t := by
  have hlen : (str.take n).length = n := List.length_take_of_le hn
  have hinitial : Contents ⟨h, .initial⟩ [] := ⟨rfl, fun i hi => absurd hi (Nat.not_lt_zero i)⟩
  have hhoused : Housed ⟨h, .initial⟩ := ⟨fun hne => absurd rfl hne, fun b hb => by cases hb⟩
  have hpos' : 0 < (str.take n).length := by rwa [hlen]
  obtain ⟨t, hresize, hfilled⟩ := resize_constructFrom (B := B) hinitial hhoused hpos'
    (by rwa [hlen]) hgrant
  rw [hlen] at hresize hfilled
  refine ⟨t.constructFrom 0 (str.take n), ?_, hfilled⟩
  rw [setData, if_neg (by rw [HeapBuffer.initial]; exact Bool.false_ne_true), hresize]
  dsimp only
  rw [if_pos rfl, constructCopies_take hn, Option.map_some]

/-- **A string made from a C string holds its text**, if it could be made at all. -/
theorem ofCString_spec {h : Heap UInt8} {str : List UInt8} (hpos : 0 < maxLength B)
    (hcall : ofCString B h (some str) = some s) :
    Holding B s (cText B str) ∧ Elsewhere ⟨h, .initial⟩ s := by
  obtain ⟨length, hlength, hset⟩ := Option.bind_eq_some_iff.mp hcall
  rw [cLength_zero] at hlength
  obtain ⟨hlpos, hlmax, hlstr, htext⟩ := lengthIn_spec hlength hpos
  obtain ⟨hmax, hbits⟩ := maxLength_eq hpos
  rw [setChars, if_neg (by omega)] at hset
  have hdata : (str.take length).length = length := List.length_take_of_le hlstr
  have hfit : (length + 15) / 16 * 16 < 2 ^ B.sizeBits := by omega
  cases hgrant : h.grants h.requests with
  | false =>
      -- the result of `mData.set` is ignored, and the terminator is written nowhere
      rw [setData_refused (by omega) hfit hgrant, Option.bind_some,
        setChar_of_le (Nat.zero_le _)] at hset
      cases hset
  | true =>
      obtain ⟨t, hdone, hfilled, hsome, hreal, helsewhere⟩ :=
        setData_granted (B := B) hlstr (by omega) hfit hgrant
      rw [hdone, Option.bind_some] at hset
      obtain ⟨u, hu, hlast, hwrites⟩ := setChar_spec hfilled (i := length - 1) (by omega) terminator
      obtain rfl : u = s := Option.some.inj (hu.symm.trans hset)
      have hall := helsewhere.writes hwrites
      have hsize : (cText B str).length + 1 = length := by
        have hlen := congrArg List.length htext
        rw [List.length_set, hdata, List.length_append] at hlen
        exact hlen.symm
      rw [htext] at hlast
      refine ⟨⟨⟨hlast, terminator_notMem_cText str⟩, hall.housed (by rwa [hwrites.buffer]),
        by rwa [hwrites.buffer], ?_, ?_⟩, hall⟩
      · rw [hwrites.buffer, hreal, hsize]
      · rw [hsize]
        exact hfit

end TString

end Tklb
