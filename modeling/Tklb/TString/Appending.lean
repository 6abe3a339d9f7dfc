import Tklb.TString.Contents
import Tklb.Foundation.Runs

/-!
# Appending strings

`append` crops the terminator off, resizes the storage and copies the other string with its
terminator behind the text (`Holding.append`).  The position of the terminator is `size()`
minus one, and so the call is wrong for a string that has no storage, whose size is zero, and
for one appended that has none, whose size does not count a terminator.  It ignores the
result of `resize`, and so it is wrong if the allocator has no larger block
(`append_terminated_iff`).

### What is load-bearing

`append_terminated_iff` is proved from both sides.  Where `AppendFits` holds, the call is
followed statement by statement (`append_of_fits`).  Where it does not, one character of the
result is enough: the terminator is missing, or it stands in front of what was appended.

The result of `resize` is ignored by `append`, so a refused block is not an error there: the
characters are written all the same, over the terminator and behind the end.
-/

namespace Tklb

open Foundation HeapBuffer BufferState

namespace TString

variable {B : BufferType} {s r : BufferState UInt8} {str : HeapBuffer} {text text' : List UInt8}

/-! ### One call -/

/-- The string is the text: it holds the text, or it is default constructed and the text is
empty. -/
def IsText (B : BufferType) (s : BufferState UInt8) (text : List UInt8) : Prop :=
  s.buffer = .initial ∧ text = [] ∨ Holding B s text

/-- The sizes and the allocator let `append` go right: both strings have storage and the
larger one is there; or, the other way round, the string appended has none and the
allocator does not have the smaller block either. -/
def AppendFits (B : BufferType) (s : BufferState UInt8) (str : HeapBuffer) : Prop :=
  s.buffer.mSize ≠ 0 ∧ str.mSize ≠ 0 ∧
      (s.buffer.mSize + str.mSize - 1 + 15) / 16 * 16 < 2 ^ B.sizeBits ∧
      ((s.buffer.mSize + str.mSize - 1 + 15) / 16 * 16 = s.buffer.mRealSize ∨
        s.heap.grants s.heap.requests = true) ∨
    str.mSize = 0 ∧ 1 < s.buffer.mSize ∧ (s.buffer.mSize - 1) % 16 = 0 ∧
      s.heap.grants s.heap.requests = false

instance : Decidable (AppendFits B s str) := inferInstanceAs (Decidable (_ ∨ _))

/-- A terminated string has one character more than its text. -/
theorem Terminated.size (h : Terminated s text) : s.buffer.mSize = text.length + 1 := by
  rw [h.contents.size, List.length_append, List.length_singleton]

theorem Holding.size (h : Holding B s text) : s.buffer.mSize = text.length + 1 :=
  h.terminated.size

/-- The other string is copied to the place of the terminator. -/
theorem Holding.append_eq (h : Holding B s text) (str : HeapBuffer) :
    append B s str = copyFrom B str text.length str.mSize 0
      (resize B s (wrap B.sizeBits (text.length + str.mSize))).2 := by
  have hsize := h.size
  have hfits := h.fits
  have hstart : wsub B.sizeBits s.buffer.mSize 1 = text.length := by
    rw [hsize, wsub_of_le (by omega) (by omega), Nat.add_sub_cancel]
  rw [TString.append, hstart]

/-- **The concatenation.**  Both strings have storage, and there is a block for both texts and a
terminator, or the one there is has room; the string that is appended stays as it is. -/
theorem Holding.append (h : Holding B s text) (h' : Holding B ⟨s.heap, str⟩ text')
    (hne : ∀ b, str.mBuf = some b → s.buffer.mBuf ≠ some b)
    (hfit : (text.length + (text'.length + 1) + 15) / 16 * 16 < 2 ^ B.sizeBits)
    (hgrant : (text.length + (text'.length + 1) + 15) / 16 * 16 = s.buffer.mRealSize ∨
      s.heap.grants s.heap.requests = true) :
    ∃ r, append B s str = some r ∧ Holding B r (text ++ text') ∧ Elsewhere s r := by
  have hsize := h.size
  have hsize' : str.mSize = text'.length + 1 := h'.size
  obtain ⟨t, hresize, hreal, hsome, hcontents, helsewhere⟩ :=
    resize_grows (B := B) h.terminated.contents h.housed
      (n := text.length + (text'.length + 1)) (by simp) (by omega) hfit hgrant
  -- the other string is in a block of its own
  have hkeep : ∀ k, charAt ⟨t.heap, str⟩ k = charAt ⟨s.heap, str⟩ k :=
    charAt_congr fun b hb => helsewhere.others b (hne b hb) fun heq =>
      lt_irrefl _ (heq ▸ h'.housed.inside b hb)
  have hother : ∀ b, str.mBuf = some b → t.buffer.mBuf ≠ some b := by
    intro b hb heq
    rcases helsewhere.block with hold | hnew
    · exact hne b hb (hold.symm.trans heq)
    · have hblock : b = s.heap.blocks := Option.some.inj (heq.symm.trans hnew)
      exact lt_irrefl _ (hblock ▸ h'.housed.inside b hb)
  have hread : ∀ k < (text' ++ [terminator]).length,
      charAt ⟨t.heap, str⟩ (0 + k) = (text' ++ [terminator])[k]? := fun k _ => by
    rw [hkeep, Nat.zero_add, h'.terminated.contents.charAt]
  obtain ⟨r, hcopy, hr, hwrites⟩ : ∃ r, copyFrom B str text.length
      (text' ++ [terminator]).length 0 t = some r ∧ _ ∧ Writes t r :=
    copyFrom_spec hread hother hcontents (by simp; omega) (by simp; omega)
  have htaken : (text ++ [terminator] ++ List.replicate (text.length + (text'.length + 1) -
      (text ++ [terminator]).length) 0).take (text.length + 0) = text := by
    rw [List.append_assoc, Nat.add_zero, List.take_left']
    rfl
  have hdropped : (text ++ [terminator] ++ List.replicate (text.length + (text'.length + 1) -
      (text ++ [terminator]).length) 0).drop
        (text.length + 0 + (text' ++ [terminator]).length) = [] := by
    rw [List.drop_eq_nil_iff]
    simp
    omega
  rw [htaken, hdropped, List.append_nil, ← List.append_assoc] at hr
  have hall := helsewhere.writes hwrites
  refine ⟨r, ?_, ⟨⟨hr, ?_⟩, hall.housed (by rwa [hwrites.buffer]), by rwa [hwrites.buffer], ?_, ?_⟩,
    hall⟩
  · rw [List.length_append, List.length_singleton] at hcopy
    rw [h.append_eq, hsize', wrap_of_lt (by omega), hresize]
    exact hcopy
  · rw [List.mem_append, not_or]
    exact ⟨h.terminated.noNul, h'.terminated.noNul⟩
  · rw [hwrites.buffer, hreal, List.length_append, Nat.add_assoc text.length text'.length 1]
  · rw [List.length_append, Nat.add_assoc text.length text'.length 1]
    exact hfit

/-- A string without storage is appended, and the allocator has no smaller block: nothing
happens, as it should. -/
theorem Holding.append_unstored (h : Holding B s text) (hzero : str.mSize = 0)
    (hpos : 0 < text.length) (hchunks : text.length % 16 = 0)
    (hrefused : s.heap.grants s.heap.requests = false) :
    ∃ r, TString.append B s str = some r ∧ Holding B r text ∧ Elsewhere s r := by
  have hsize := h.size
  have hfits := h.fits
  have hcap := h.capacity
  refine ⟨{ s with heap := { s.heap with requests := s.heap.requests + 1 } }, ?_, ?_, ?_⟩
  · rw [h.append_eq, hzero, Nat.add_zero, wrap_of_lt (by omega),
      resize_refused (by omega) hpos (by omega) hrefused]
    rfl
  · exact ⟨⟨⟨h.terminated.contents.size, h.terminated.contents.value⟩, h.terminated.noNul⟩,
      ⟨h.housed.isSome, h.housed.inside⟩, h.isSome, h.capacity, h.fits⟩
  · exact ⟨Or.inl rfl, le_rfl, h.housed.inside, fun _ _ _ => rfl⟩

/-- **`append` where it goes right.**  The cases are those of `AppendFits`.  In the second one
nothing is copied, and what saves the terminator is that the allocator refuses the smaller block. -/
theorem append_of_fits (h : IsText B s text) (h' : IsText B ⟨s.heap, str⟩ text')
    (hne : ∀ b, str.mBuf = some b → s.buffer.mBuf ≠ some b) (hfit : AppendFits B s str) :
    ∃ r, append B s str = some r ∧ Holding B r (text ++ text') ∧ Elsewhere s r := by
  rcases hfit with ⟨hs, hs', hround, hgrant⟩ | ⟨hzero, hpos, hchunks, hrefused⟩
  · have h := h.resolve_left fun hinitial => hs (congrArg mSize hinitial.1)
    have h' := h'.resolve_left fun hinitial => hs' (congrArg mSize hinitial.1)
    have hsize := h.size
    have hsize' : str.mSize = text'.length + 1 := h'.size
    rw [show s.buffer.mSize + str.mSize - 1 = text.length + (text'.length + 1) by omega]
      at hround hgrant
    exact h.append h' hne hround hgrant
  · rcases h with ⟨hs, -⟩ | h
    · have : s.buffer.mSize = 0 := congrArg mSize hs
      omega
    · have hsize := h.size
      rcases h' with ⟨-, rfl⟩ | h'
      · rw [List.append_nil]
        exact h.append_unstored hzero (by omega) (by omega) hrefused
      · have hsize' : str.mSize = text'.length + 1 := h'.size
        omega

/-! ### Where it goes wrong -/

/-- Whether `resize` succeeds or not, it leaves one of two sizes. -/
theorem resize_size (B : BufferType) (s : BufferState UInt8) (n : ℕ) :
    (resize B s n).1 = true ∧ (resize B s n).2.buffer.mSize = n ∨
      (resize B s n).1 = false ∧ (resize B s n).2.buffer.mSize = s.buffer.mSize ∧
        s.heap.grants s.heap.requests = false ∧
        0 < closestChunkSize B n chunkSize ∧
        closestChunkSize B n chunkSize ≠ s.buffer.mRealSize := by
  unfold resize
  split
  · rename_i hreallocates
    have hchange : closestChunkSize B n chunkSize ≠ s.buffer.mRealSize := by
      simp only [Reallocates, true_and] at hreallocates
      omega
    rcases Nat.eq_zero_or_pos (closestChunkSize B n chunkSize) with hzero | hpos
    · obtain ⟨t, hcall, -⟩ := allocate_zero_exchanges B s
      rw [hzero, hcall]
      exact Or.inl ⟨rfl, congrArg mSize (extend_buffer n)⟩
    · cases hgrant : s.heap.grants s.heap.requests with
      | true =>
          obtain ⟨t, hcall, -⟩ := allocate_exchanges (B := B) hpos hgrant
          rw [hcall]
          exact Or.inl ⟨rfl, congrArg mSize (extend_buffer n)⟩
      | false =>
          rw [allocate_refused hpos hgrant]
          exact Or.inr ⟨rfl, rfl, rfl, hpos, hchange⟩
  · exact Or.inl ⟨rfl, congrArg mSize (extend_buffer n)⟩

/-- The loop does not change the size. -/
theorem copyFrom_buffer {start n i : ℕ} (h : copyFrom B str start n i s = some r) :
    r.buffer = s.buffer := by
  induction n generalizing i s with
  | zero =>
      obtain rfl := Option.some.inj h
      rfl
  | succ n ih =>
      rw [copyFrom, Option.bind_eq_bind, Option.bind_eq_some_iff] at h
      obtain ⟨c, -, h⟩ := h
      rw [Option.bind_eq_bind, Option.bind_eq_some_iff] at h
      obtain ⟨t, hset, h⟩ := h
      rw [ih h]
      unfold setChar at hset
      split at hset
      · obtain ⟨object, -, rfl⟩ := Option.map_eq_some_iff.mp hset
        exact onMemory_buffer
      · cases hset

/-- The first character the loop writes. -/
theorem copyFrom_first {start n : ℕ} (hn : n ≠ 0) (h : copyFrom B str start n 0 s = some r) :
    wrap B.sizeBits start < s.buffer.mSize ∧ s.buffer.mBuf.isSome := by
  obtain ⟨n, rfl⟩ := Nat.exists_eq_succ_of_ne_zero hn
  rw [copyFrom, Option.bind_eq_bind, Option.bind_eq_some_iff] at h
  obtain ⟨c, -, h⟩ := h
  rw [Option.bind_eq_bind, Option.bind_eq_some_iff, Nat.add_zero] at h
  obtain ⟨t, hset, -⟩ := h
  unfold setChar at hset
  split at hset
  · rename_i hlt
    obtain ⟨object, hobject, -⟩ := Option.map_eq_some_iff.mp hset
    obtain ⟨b, hb, -⟩ := Option.bind_eq_some_iff.mp hobject
    exact ⟨hlt, by rw [hb]; rfl⟩
  · cases hset

/-- A string without storage: its terminator is sought in front of it. -/
theorem not_append_initial (hs : s.buffer = .initial) (h : append B s str = some r) :
    ¬ Terminated r [] ∧ str.mSize = 0 := by
  have hsize : s.buffer.mSize = 0 := by rw [hs]; rfl
  have hpow := Nat.two_pow_pos B.sizeBits
  have hstart : wsub B.sizeBits s.buffer.mSize 1 = 2 ^ B.sizeBits - 1 := by
    rw [hsize, wsub, Nat.add_zero, wrap_of_lt (by omega)]
  rw [append, hstart] at h
  have hresized := resize_size B s (wrap B.sizeBits (2 ^ B.sizeBits - 1 + str.mSize))
  have hwrapped := wrap_lt B.sizeBits (2 ^ B.sizeBits - 1 + str.mSize)
  have hzero : str.mSize = 0 := by
    by_contra hne
    have hfirst := (copyFrom_first hne h).1
    rw [wrap_of_lt (by omega)] at hfirst
    omega
  refine ⟨fun hterm => ?_, hzero⟩
  rw [hzero, Nat.add_zero, wrap_of_lt (by omega)] at h hresized
  obtain rfl := Option.some.inj h
  have hone := hterm.size
  rw [List.length_nil, Nat.zero_add] at hone
  have hpow : 2 ^ B.sizeBits - 1 = 1 := by omega
  -- the only width with room for one character has no room for a chunk
  have hchunk : closestChunkSize B (2 ^ B.sizeBits - 1) chunkSize = 0 := by
    rw [closestChunkSize_of_lt (by omega), if_neg (by omega)]
  have hkeeps : ¬ Reallocates B s.buffer (2 ^ B.sizeBits - 1) true := by
    simp only [Reallocates, hchunk, hs, true_and]
    exact fun h => h.elim (Nat.lt_irrefl 0) (Nat.lt_irrefl 0)
  have hlast := hterm.contents.value 0 (by simp)
  rw [resize, if_neg hkeeps, BufferState.value, BufferState.slot, extend_buffer, hs] at hlast
  cases hlast

/-- Appending a string without storage crops the terminator off, unless `resize` fails. -/
theorem Holding.appendFits_of_unstored (h : Holding B s text) (hzero : str.mSize = 0)
    (hcall : TString.append B s str = some r) (hterm : Terminated r text) : AppendFits B s str := by
  have hs := h.size
  have hcap := h.capacity
  have hfits := h.fits
  rw [h.append_eq, hzero, Nat.add_zero, wrap_of_lt (by omega)] at hcall
  have hsize := hterm.size
  rw [copyFrom_buffer hcall] at hsize
  rcases resize_size B s text.length with ⟨-, hlen⟩ | ⟨-, -, hgrant, hpos, hchange⟩
  · omega
  · rw [closestChunkSize_of_lt (by omega), if_pos (by omega)] at hpos hchange
    exact Or.inr ⟨hzero, by omega, by omega, hgrant⟩

/-- Appending a string with storage needs a size that fits, and memory. -/
theorem Holding.appendFits_of_stored (h : Holding B s text) (hs' : str.mSize = text'.length + 1)
    (hcall : TString.append B s str = some r) (hterm : Terminated r (text ++ text')) :
    AppendFits B s str := by
  have hs := h.size
  have hcap := h.capacity
  rw [h.append_eq, hs'] at hcall
  have hsize := hterm.size
  rw [copyFrom_buffer hcall, List.length_append] at hsize
  have hresized := resize_size B s (wrap B.sizeBits (text.length + (text'.length + 1)))
  have hlen : text.length + (text'.length + 1) < 2 ^ B.sizeBits := by
    have hwrapped := wrap_lt B.sizeBits (text.length + (text'.length + 1))
    have hfits := h.fits
    omega
  rw [wrap_of_lt hlen] at hsize hcall
  have hround : (text.length + (text'.length + 1) + 15) / 16 * 16 < 2 ^ B.sizeBits := by
    by_contra hge
    -- the chunk is wrapped to zero, and there is no memory to write to
    have hchunk : closestChunkSize B (text.length + (text'.length + 1)) chunkSize = 0 := by
      rw [closestChunkSize_of_lt hlen, if_neg hge]
    have hreallocates : Reallocates B s.buffer (text.length + (text'.length + 1)) true := by
      simp only [Reallocates, hchunk, true_and]
      omega
    obtain ⟨t, hallocate, hexchanged, -⟩ := allocate_zero_exchanges B s
    have hsome := (copyFrom_first (by omega) hcall).2
    rw [resize, if_pos hreallocates, hchunk, hallocate] at hsome
    simp only [if_true, extend_buffer, hexchanged.buffer] at hsome
    cases hsome
  refine Or.inl ⟨by omega, by omega, ?_⟩
  rw [show s.buffer.mSize + str.mSize - 1 = text.length + (text'.length + 1) by omega]
  refine ⟨hround, ?_⟩
  by_contra hrefused
  rw [not_or, Bool.not_eq_true] at hrefused
  rw [resize_refused hround (by omega) hrefused.1 hrefused.2] at hsize
  have hshort : s.buffer.mSize = text.length + text'.length + 1 := hsize
  omega

/-- **One call.**  For strings that are texts, `append` leaves the terminated
concatenation exactly if the sizes and the allocator let it. -/
theorem append_terminated_iff (h : IsText B s text) (h' : IsText B ⟨s.heap, str⟩ text')
    (hne : ∀ b, str.mBuf = some b → s.buffer.mBuf ≠ some b) :
    (∃ r, append B s str = some r ∧ Terminated r (text ++ text')) ↔ AppendFits B s str := by
  constructor
  · rintro ⟨r, hcall, hterm⟩
    rcases h with ⟨hs, rfl⟩ | h
    · obtain ⟨hwrong, hzero⟩ := not_append_initial hs hcall
      rcases h' with ⟨-, rfl⟩ | h'
      · exact absurd hterm hwrong
      · have hs' : str.mSize = text'.length + 1 := h'.size
        omega
    · rcases h' with ⟨hstr, rfl⟩ | h'
      · rw [List.append_nil] at hterm
        exact h.appendFits_of_unstored (congrArg mSize hstr) hcall hterm
      · exact h.appendFits_of_stored h'.size hcall hterm
  · intro hfit
    obtain ⟨r, hcall, hr, -⟩ := append_of_fits h h' hne hfit
    exact ⟨r, hcall, hr.terminated⟩

end TString

end Tklb
