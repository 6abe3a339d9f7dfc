import Tklb.CString
import Tklb.TString.Contents

/-!
# Comparing a string with a C string

`operator==` ends at the first difference, or where both strings have their terminator; as
the terminator is in the storage, too, a difference is found before either of them is read
behind its end (`equalsFrom_spec`).

### Strings made from a C string

A string is `Made` from a C string by the constructor, by an assignment to a string with
any content, or as a copy of a string that was made from it; in between the heap may be
used by others.  Its characters are those of the C string, the terminator included
(`Made.contents`): `mData.set` starts with an empty buffer, and the length the loop of `set`
finds counts the terminator.  So every string that was made compares right
(`Made.equals_iff`), and what remains is which strings are made.

### The memory of the target

`mData.set` gives back the memory of the target before it reads the source.  A source that
does not lie there (`Source.InOwn`) is read as it was; one that does is gone.
`compares_iff` says that this is the only way to fail: if there is memory for the
characters, a string is made from a source if and only if the source is not in its own
memory.  `not_compares_self` is `a = a`.
-/

namespace Tklb

open Foundation HeapBuffer BufferState

namespace TString

variable {B : BufferType} {a b : BufferState UInt8} {s t : CString} {l data : List UInt8}
  {i n : ℕ}

/-! ### The comparison -/

/-- **The loop** compares what is left of the strings.  By induction on what is left of the string;
where the characters agree they are both the terminator or neither is, so the loop ends with both
strings or at a difference. -/
theorem equalsFrom_spec (h : Contents a s.bytes) (hs : i ≤ s.length) (ht : i ≤ t.length)
    (hagree : ∀ j < i, s.bytes[j]? = t.bytes[j]?) (hn : i + n = s.length + 1) :
    ∃ r, equalsFrom a t.bytes n i = some r ∧ (r = true ↔ s = t) := by
  induction n generalizing i with
  | zero => omega
  | succ n ih =>
      obtain ⟨x, hx⟩ := CString.isSome_bytes hs
      obtain ⟨y, hy⟩ := CString.isSome_bytes ht
      rw [equalsFrom, h.charAt, hx, hy]
      simp only [Option.bind_eq_bind, Option.bind_some]
      split
      · rename_i hne
        exact ⟨false, rfl, iff_of_false Bool.false_ne_true (CString.ne_of_bytes hx hy hne)⟩
      · rename_i heq
        obtain rfl := not_not.mp heq
        split
        · rename_i hend
          have hend' : s.bytes[i]? = some 0 := hx.trans (congrArg some hend)
          refine ⟨true, rfl, iff_of_true rfl ?_⟩
          rw [CString.eq_iff_of_agree ht hagree hend', hy, ← hx, hend']
        · rename_i hend
          exact ih (CString.lt_length_of_ne hs hx hend) (CString.lt_length_of_ne ht hy hend)
            (Nat.forall_lt_succ_right.mpr ⟨hagree, hx.trans hy.symm⟩) (by omega)

theorem equals_of_contents (h : Contents a s.bytes) (t : CString) :
    ∃ r, equals a t.bytes = some r ∧ (r = true ↔ s = t) := by
  rw [equals, h.size, CString.length_bytes]
  exact equalsFrom_spec h (Nat.zero_le _) (Nat.zero_le _)
    (fun j hj => absurd hj (Nat.not_lt_zero j)) (Nat.zero_add _)

/-! ### Assignments -/

/-- What holds of every string: its memory is on the heap and its own, and without memory it
is empty. -/
structure Assignable (s : BufferState UInt8) : Prop where
  housed : Housed s
  empty : s.buffer.mBuf = none → s.buffer.mSize = 0
  own : s.buffer.mBuf.isSome → s.buffer.mRealSize ≠ 0

theorem Assignable.initial (h : Heap UInt8) : Assignable ⟨h, .initial⟩ :=
  ⟨⟨fun hne => absurd rfl hne, fun b hb => by cases hb⟩, fun _ => rfl,
    fun hsome => absurd hsome Bool.false_ne_true⟩

/-- The block of a string is the one it owns. -/
theorem Assignable.owned (ha : Assignable a) : a.buffer.owned = a.buffer.mBuf := by
  cases hbuf : a.buffer.mBuf with
  | none =>
      unfold HeapBuffer.owned
      rw [hbuf, ite_self]
  | some c => rw [owned_of_ne (ha.own (by rw [hbuf]; rfl)), hbuf]

/-- `resize` works in the old memory and in the new one. -/
theorem resize_spares {c : ℕ} (h : a.Foreign c) (n : ℕ) : Spares c a (resize B a n).2 := by
  rw [resize]
  split
  · have hallocated := h.allocate (B := B) (closestChunkSize B n chunkSize)
    dsimp only
    split
    · exact hallocated.trans (hallocated.foreign.extend n)
    · exact hallocated
  · exact h.extend n

/-- What `mData.set` leaves before it resizes. -/
def emptied (B : BufferType) (s : BufferState UInt8) : BufferState UInt8 :=
  if s.buffer.mBuf.isSome then (resize B s 0).2 else s

theorem emptied_spares {c : ℕ} (h : a.Foreign c) : Spares c a (emptied B a) := by
  unfold emptied
  split
  · exact resize_spares h 0
  · exact .refl h

/-- Without memory the string is a new one. -/
theorem Assignable.eq_initial (ha : Assignable a) (hbuf : a.buffer.mBuf = none) :
    a.buffer = .initial := by
  have hreal : a.buffer.mRealSize = 0 := by
    by_contra hne
    have hsome := ha.housed.isSome hne
    rw [hbuf] at hsome
    exact Bool.false_ne_true hsome
  obtain ⟨heap, mBuf, mSize, mRealSize⟩ := a
  obtain rfl : mBuf = none := hbuf
  obtain rfl : mSize = 0 := ha.empty rfl
  obtain rfl : mRealSize = 0 := hreal
  rfl

/-- Nothing is left of the string, neither in the buffer nor in its memory, and the allocator
was asked for nothing. -/
theorem emptied_spec (ha : Assignable a) :
    ∃ h : Heap UInt8, emptied B a = ⟨h, .initial⟩ ∧ h.blocks = a.heap.blocks ∧
      h.grants h.requests = a.heap.grants a.heap.requests ∧
      ∀ c, a.buffer.mBuf = some c → ∀ i, h.objects.slot c i = none := by
  cases hbuf : a.buffer.mBuf with
  | none =>
      refine ⟨a.heap, ?_, rfl, rfl, nofun⟩
      rw [emptied, if_neg (by rw [hbuf]; exact Bool.false_ne_true), ← ha.eq_initial hbuf]
  | some c =>
      have hsome : a.buffer.mBuf.isSome := by rw [hbuf]; rfl
      have hreal := ha.own hsome
      have hgives : Reallocates B a.buffer 0 true := by
        simp only [Reallocates, closestChunkSize, if_true, true_and]
        omega
      obtain ⟨t, hcall, hexchanged, hblocks⟩ := allocate_zero_exchanges B a
      have hall : emptied B a = ⟨t.heap, .initial⟩ := by
        rw [emptied, if_pos hsome, resize, if_pos hgives,
          show closestChunkSize B 0 chunkSize = 0 from rfl, hcall]
        dsimp only
        rw [if_pos rfl, extend_eq_grown, Nat.zero_sub, List.replicate_zero, grown,
          constructFrom_nil, hexchanged.buffer]
        rfl
      refine ⟨t.heap, hall, hblocks, ?_, ?_⟩
      · obtain rfl := (Prod.mk.inj hcall).2
        have hheap := release_heap (s := a)
          (t := { a with buffer := { a.buffer with mBuf := none } }) rfl 0
        rw [hheap, ha.owned, hbuf]
        rfl
      · rintro c' hc' i
        exact allocate_gone (by rw [ha.owned, hbuf, hc']) hcall i

section setData

variable {str : Argument UInt8}

theorem setData_def (str : Argument UInt8) (n : ℕ) :
    setData B a str n =
      if (resize B (emptied B a) n).1 then
        (constructCopies str n 0 (resize B (emptied B a) n).2).map (true, ·)
      else some (false, (resize B (emptied B a) n).2) := rfl

theorem housed_initial (h : Heap UInt8) : Housed ⟨h, .initial⟩ := (Assignable.initial h).housed

/-- **`mData.set`** without memory for the data leaves an empty buffer.  The old memory has been
given back before the new one is asked for, so the old characters are not there any more either. -/
theorem Assignable.setData_refused (ha : Assignable a) (hpos : 0 < n)
    (hfit : (n + 15) / 16 * 16 < 2 ^ B.sizeBits)
    (hrefused : a.heap.grants a.heap.requests = false) (str : Argument UInt8) :
    ∃ b, setData B a str n = some (false, b) ∧ b.buffer.mSize = 0 := by
  obtain ⟨h, hempty, -, hgrants, -⟩ := emptied_spec (B := B) ha
  have hresize := resize_refused (s := ⟨h, .initial⟩) hfit hpos
    (show (n + 15) / 16 * 16 ≠ 0 by omega) (hgrants.trans hrefused)
  refine ⟨⟨{ h with requests := h.requests + 1 }, .initial⟩, ?_, rfl⟩
  rw [setData_def, hempty, hresize]
  rfl

/-- **`mData.set`** stores data that is not in the memory of the string. -/
theorem Assignable.setData_granted (ha : Assignable a) (hpos : 0 < data.length)
    (hfit : (data.length + 15) / 16 * 16 < 2 ^ B.sizeBits)
    (hgrant : a.heap.grants a.heap.requests = true) (hread : str.Reads a.heap data)
    (hout : str.Outside a) :
    ∃ b, setData B a str data.length = some (true, b) ∧ Contents b data ∧ Assignable b := by
  obtain ⟨h, hempty, -, hgrants, -⟩ := emptied_spec (B := B) ha
  have hnone : Contents ⟨h, .initial⟩ [] := ⟨rfl, fun i hi => absurd hi (Nat.not_lt_zero i)⟩
  obtain ⟨a₂, hresize, hfilled, hsome, hreal, helsewhere⟩ := resize_constructFrom (B := B) hnone
    (housed_initial h) hpos hfit (hgrants.trans hgrant)
  -- the data is as it was when it is read
  obtain ⟨hout', hkept⟩ := hout.spared (t := a₂) fun c hc => by
    have hspares := (emptied_spares (B := B) hc).trans
      (resize_spares (B := B) (emptied_spares hc).foreign data.length)
    rwa [hempty, hresize] at hspares
  have hread' : ∀ i < data.length, str.read a₂.heap (0 + i) = data[i]? := by
    intro i hi
    rw [hkept, Nat.zero_add]
    exact hread i hi
  have hcopied := constructCopies_eq hread' hout'
  refine ⟨_, ?_, hfilled, helsewhere.housed hsome, fun hbuf => ?_, fun _ => ?_⟩
  · rw [setData_def, hempty, hresize]
    dsimp only
    rw [if_pos rfl, hcopied, Option.map_some]
  · rw [hbuf] at hsome
    exact absurd hsome Bool.false_ne_true
  · rw [hreal]
    omega

/-- **`mData.set`** from the memory of the string itself: the data is gone. -/
theorem Assignable.setData_own (ha : Assignable a) (hpos : 0 < n)
    (hfit : (n + 15) / 16 * 16 < 2 ^ B.sizeBits)
    (hgrant : a.heap.grants a.heap.requests = true) {c : ℕ} (hc : a.buffer.mBuf = some c)
    (k : ℕ) : setData B a (.stored c k) n = none := by
  obtain ⟨h, hempty, hblocks, hgrants, hgone⟩ := emptied_spec (B := B) ha
  have hnone : Contents ⟨h, .initial⟩ [] := ⟨rfl, fun i hi => absurd hi (Nat.not_lt_zero i)⟩
  obtain ⟨a₂, hresize, -⟩ := resize_grows (B := B) hnone (housed_initial h) (Nat.zero_le n) hpos
    hfit (Or.inr (hgrants.trans hgrant))
  have hforeign : Foreign (⟨h, .initial⟩ : BufferState UInt8) c :=
    ⟨nofun, by rw [hblocks]; exact ha.housed.inside c hc⟩
  have hspares := resize_spares (B := B) hforeign n
  rw [hresize] at hspares
  have hread : (Argument.stored c k).read a₂.heap 0 = none := by
    rw [Argument.read, hspares.slot, hgone c hc]
    rfl
  obtain ⟨m, rfl⟩ := Nat.exists_eq_succ_of_ne_zero hpos.ne'
  rw [setData_def, hempty, hresize]
  dsimp only
  rw [if_pos rfl, constructCopies, hread]
  rfl

end setData

/-- The C string `s` is at `str`, in memory that is in use.  It may be in the memory of any string
of the program, the one that is assigned to included. -/
structure PointsTo (h : Heap UInt8) (str : Argument UInt8) (s : CString) : Prop where
  reads : str.Reads h s.bytes
  inUse : ∀ c k, str = .stored c k → c < h.blocks

theorem pointsTo_elsewhere (h : Heap UInt8) (s : CString) :
    PointsTo h (.elsewhere s.bytes) s :=
  ⟨Argument.reads_elsewhere, nofun⟩

/-- The argument is in the memory of the string. -/
def InOwn (a : BufferState UInt8) : Argument UInt8 → Prop
  | .elsewhere _ => False
  | .stored c _ => a.buffer.mBuf = some c

theorem PointsTo.outside {str : Argument UInt8} (h : PointsTo a.heap str s)
    (hown : ¬ InOwn a str) : str.Outside a := by
  cases str with
  | elsewhere values => trivial
  | stored c k => exact ⟨hown, h.inUse c k rfl⟩

/-- The loop of `set` finds the terminator. -/
theorem PointsTo.cLength {h : Heap UInt8} {str : Argument UInt8} (hstr : PointsTo h str s)
    (hi : i ≤ s.length) (hn : s.length < i + n) :
    TString.cLength h str n i = some (s.length + 1) := by
  induction n generalizing i with
  | zero => omega
  | succ n ih =>
      have hread := hstr.reads i (by rw [CString.length_bytes]; omega)
      rw [TString.cLength, hread]
      rcases CString.bytes_cases hi with ⟨rfl, hc⟩ | ⟨c, hne, hlt, hc⟩
      · rw [hc, Option.bind_eq_bind, Option.bind_some,
          if_pos (show (0 : UInt8) = terminator from rfl)]
      · rw [hc, Option.bind_eq_bind, Option.bind_some,
          if_neg (show ¬ c = terminator from hne), ih hlt (by omega)]

/-- What the rounded size of a string of less than `MAX_LENGTH` characters is below. -/
theorem bytes_fit (hs : s.length < maxLength B) :
    0 < s.bytes.length ∧ (s.bytes.length + 15) / 16 * 16 < 2 ^ B.sizeBits := by
  obtain ⟨hmax, hbits⟩ := maxLength_eq (B := B) (by omega)
  rw [CString.length_bytes]
  omega

section setCString

variable {str : Argument UInt8}

theorem setCString_def (hs : s.length < maxLength B) (hstr : PointsTo a.heap str s) :
    setCString B a (some str) =
      (setData B a str s.bytes.length).bind fun r => setChar r.2 s.length terminator := by
  rw [setCString, hstr.cLength (Nat.zero_le _) (by omega), Option.bind_some, setChars,
    if_neg (Nat.succ_ne_zero _), CString.length_bytes]
  rfl

/-- Without memory there is no character to write the terminator to. -/
theorem setCString_refused (hs : s.length < maxLength B) (ha : Assignable a)
    (hstr : PointsTo a.heap str s) (hrefused : a.heap.grants a.heap.requests = false) :
    setCString B a (some str) = none := by
  obtain ⟨hpos, hfit⟩ := bytes_fit hs
  obtain ⟨b, hb, hempty⟩ := ha.setData_refused hpos hfit hrefused str
  rw [setCString_def hs hstr, hb, Option.bind_some]
  exact setChar_of_le (by rw [hempty]; exact Nat.zero_le _) _

/-- **The assignment of a C string** stores its characters.  The terminator is one of them; the
string may have held anything before, and can be assigned to again. -/
theorem setCString_granted (hs : s.length < maxLength B) (ha : Assignable a)
    (hstr : PointsTo a.heap str s) (hgrant : a.heap.grants a.heap.requests = true)
    (hown : ¬ InOwn a str) :
    ∃ b, setCString B a (some str) = some b ∧ Contents b s.bytes ∧ Assignable b := by
  obtain ⟨hpos, hfit⟩ := bytes_fit hs
  obtain ⟨b, hb, hcontents, hassignable⟩ :=
    ha.setData_granted hpos hfit hgrant hstr.reads (hstr.outside hown)
  obtain ⟨c, hc, hlast, hwrites⟩ := setChar_spec hcontents (i := s.length)
    (by rw [CString.length_bytes]; exact Nat.lt_succ_self _) terminator
  refine ⟨c, ?_, ?_, ⟨?_, ?_⟩, ?_, ?_⟩
  · rw [setCString_def hs hstr, hb, Option.bind_some, hc]
  · -- the terminator is there already
    have hsame : s.bytes.set s.length terminator = s.bytes := by
      show (s.chars ++ [0]).set s.chars.length terminator = _
      rw [List.set_append_right _ _ le_rfl, Nat.sub_self]
      rfl
    rwa [hsame] at hlast
  · rw [hwrites.buffer]
    exact hassignable.housed.isSome
  · rw [hwrites.buffer, hwrites.blocks]
    exact hassignable.housed.inside
  · rw [hwrites.buffer]
    exact hassignable.empty
  · rw [hwrites.buffer]
    exact hassignable.own

/-- From the memory of the string itself there is no result. -/
theorem setCString_own (hs : s.length < maxLength B) (ha : Assignable a)
    (hstr : PointsTo a.heap str s) (hgrant : a.heap.grants a.heap.requests = true)
    (hown : InOwn a str) : setCString B a (some str) = none := by
  obtain ⟨hpos, hfit⟩ := bytes_fit hs
  cases str with
  | elsewhere values => exact absurd hown id
  | stored c k => rw [setCString_def hs hstr, ha.setData_own hpos hfit hgrant hown k]; rfl

end setCString

/-! ### Strings made from a C string -/

/-- The string, with its heap, was made from the C string `s`. -/
inductive Made (B : BufferType) (s : CString) : BufferState UInt8 → Prop
  | constructed {h : Heap UInt8} {a : BufferState UInt8} :
      ofCString B h (some s.bytes) = some a → Made B s a
  | assigned {a b : BufferState UInt8} {str : Argument UInt8} :
      PointsTo a.heap str s → Assignable a → setCString B a (some str) = some b → Made B s b
  /-- A copy, in a new string or in one there was, of a string that was made from `s`. -/
  | copied {a b : BufferState UInt8} {str : HeapBuffer} :
      Made B s ⟨a.heap, str⟩ → Assignable a → setString B a str = some (true, b) → Made B s b
  /-- The heap was used for something else. -/
  | elsewhere {h h' : Heap UInt8} {d : HeapBuffer} :
      Made B s ⟨h, d⟩ → h.blocks ≤ h'.blocks →
      (∀ b, d.mBuf = some b → h'.objects.slot b = h.objects.slot b) → Made B s ⟨h', d⟩

/-- A string with characters has its C string in its memory. -/
theorem cStr_pointsTo {h : Heap UInt8} {str : HeapBuffer} (hstr : Contents ⟨h, str⟩ s.bytes)
    (ha : Assignable ⟨h, str⟩) : ∃ c, str.mBuf = some c ∧ cStr str = .stored c 0 ∧
      PointsTo h (cStr str) s := by
  have hsize : str.mSize = s.bytes.length := hstr.size
  cases hbuf : str.mBuf with
  | none =>
      have hempty := ha.empty hbuf
      rw [show (⟨h, str⟩ : BufferState UInt8).buffer.mSize = s.bytes.length from hsize,
        CString.length_bytes] at hempty
      omega
  | some c =>
      have hc : cStr str = .stored c 0 := by rw [cStr, hbuf]
      refine ⟨c, rfl, hc, ?_, ?_⟩
      · intro i hi
        have hvalue := hstr.value i hi
        rw [hc, Argument.read, Nat.zero_add]
        rw [BufferState.value, BufferState.slot] at hvalue
        rw [← hvalue]
        simp only [hbuf, Option.bind_some]
      · intro c' k heq
        obtain ⟨rfl, -⟩ := Argument.stored.inj (hc.symm.trans heq)
        exact ha.housed.inside c hbuf

/-- An assignment that gave a string had memory, and a source that is not its own. -/
theorem setCString_made {str : Argument UInt8} (hs : s.length < maxLength B) (ha : Assignable a)
    (hstr : PointsTo a.heap str s) (hcall : setCString B a (some str) = some b) :
    Contents b s.bytes ∧ Assignable b := by
  cases hgrant : a.heap.grants a.heap.requests with
  | false =>
      rw [setCString_refused hs ha hstr hgrant] at hcall
      cases hcall
  | true =>
      by_cases hown : InOwn a str
      · rw [setCString_own hs ha hstr hgrant hown] at hcall
        cases hcall
      · obtain ⟨b', hb', hmade⟩ := setCString_granted hs ha hstr hgrant hown
        obtain rfl := Option.some.inj (hb'.symm.trans hcall)
        exact hmade

/-- A string that was made has the characters of `s`. -/
theorem Made.contents (hs : s.length < maxLength B) (h : Made B s a) :
    Contents a s.bytes ∧ Assignable a := by
  induction h with
  | constructed hcall => exact setCString_made hs (.initial _) (pointsTo_elsewhere _ s) hcall
  | assigned hstr ha hcall => exact setCString_made hs ha hstr hcall
  | @copied a b str _ ha hcall ih =>
      obtain ⟨hpos, hfit⟩ := bytes_fit hs
      obtain ⟨c, hc, hcstr, hstr⟩ := cStr_pointsTo ih.1 ih.2
      have hsize : str.mSize = s.bytes.length := ih.1.size
      rw [setString, hsize] at hcall
      cases hgrant : a.heap.grants a.heap.requests with
      | false =>
          obtain ⟨b', hb', -⟩ := ha.setData_refused hpos hfit hgrant (cStr str)
          rw [hb'] at hcall
          cases hcall
      | true =>
          by_cases hown : InOwn a (cStr str)
          · rw [hcstr] at hcall hown
            rw [ha.setData_own hpos hfit hgrant hown 0] at hcall
            cases hcall
          · obtain ⟨b', hb', hmade⟩ :=
              ha.setData_granted hpos hfit hgrant hstr.reads (hstr.outside hown)
            obtain ⟨-, rfl⟩ := Prod.mk.inj (Option.some.inj (hb'.symm.trans hcall))
            exact hmade
  | elsewhere _ hblocks hsame ih =>
      refine ⟨ih.1.congr hsame, ⟨ih.2.housed.isSome, fun b hb => ?_⟩, ih.2.empty, ih.2.own⟩
      exact lt_of_lt_of_le (ih.2.housed.inside b hb) hblocks

/-- **`operator==`** of a string that was made from `s` is equality with `s`: it neither reads
behind the terminator of `t` nor behind the end of the string. -/
theorem Made.equals_iff (hs : s.length < maxLength B) (h : Made B s a) (t : CString) :
    ∃ r, equals a t.bytes = some r ∧ (r = true ↔ s = t) :=
  equals_of_contents (h.contents hs).1 t

/-- What a string is made from.  A string is a source by reference: its characters are read where
they are, and when they are read. -/
inductive Source
  | cString (str : Argument UInt8)
  | string (str : HeapBuffer)

namespace Source

/-- Construction, assignment or copying, to the string `a`; a new one is `.initial`. -/
def make (B : BufferType) (a : BufferState UInt8) : Source → Option (Bool × BufferState UInt8)
  | .cString str => (setCString B a (some str)).map (true, ·)
  | .string str => setString B a str

/-- The source is the C string `s`, or a string that was made from it. -/
def Carries (B : BufferType) (h : Heap UInt8) (s : CString) : Source → Prop
  | .cString str => PointsTo h str s
  | .string str => Made B s ⟨h, str⟩

/-- The source is in the memory of the string that is made. -/
def InOwn (a : BufferState UInt8) : Source → Prop
  | .cString str => TString.InOwn a str
  | .string str => TString.InOwn a (cStr str)

end Source

/-- **Making a string.**  If there is memory for the characters, there is a string that compares
right with every C string, if and only if the source is not in the memory of the string that
is made. -/
theorem compares_iff (hs : s.length < maxLength B) (ha : Assignable a)
    (hgrant : a.heap.grants a.heap.requests = true) {source : Source}
    (hsource : source.Carries B a.heap s) :
    (∃ b, source.make B a = some (true, b) ∧ Made B s b ∧
      ∀ t : CString, ∃ r, equals b t.bytes = some r ∧ (r = true ↔ s = t)) ↔
      ¬ source.InOwn a := by
  cases source with
  | cString str =>
      constructor
      · rintro ⟨b, hb, -⟩ hown
        rw [Source.make, setCString_own hs ha hsource hgrant hown] at hb
        cases hb
      · intro hown
        obtain ⟨b, hb, -⟩ := setCString_granted hs ha hsource hgrant hown
        have hmade : Made B s b := .assigned hsource ha hb
        exact ⟨b, by rw [Source.make, hb]; rfl, hmade, hmade.equals_iff hs⟩
  | string str =>
      obtain ⟨hpos, hfit⟩ := bytes_fit hs
      obtain ⟨hcontents, hassignable⟩ := Made.contents hs hsource
      obtain ⟨c, hc, hcstr, hstr⟩ := cStr_pointsTo hcontents hassignable
      have hsize : str.mSize = s.bytes.length := hcontents.size
      constructor
      · rintro ⟨b, hb, -⟩ hown
        rw [Source.InOwn, hcstr] at hown
        rw [Source.make, setString, hcstr, hsize, ha.setData_own hpos hfit hgrant hown 0] at hb
        cases hb
      · intro hown
        obtain ⟨b, hb, -⟩ := ha.setData_granted hpos hfit hgrant hstr.reads (hstr.outside hown)
        rw [← hsize] at hb
        have hmade : Made B s b := .copied hsource ha hb
        exact ⟨b, hb, hmade, hmade.equals_iff hs⟩

/-- `"ab"`, copied to a new string. -/
theorem compares_iff_copy :
    ∃ a, ofCString defaultStorage (.initial fun _ => true) (some [97, 98, 0]) = some a ∧
      ((∃ b, (Source.string a.buffer).make defaultStorage ⟨a.heap, .initial⟩ = some (true, b) ∧
        Made defaultStorage ⟨[97, 98], by decide⟩ b ∧
        ∀ t : CString, ∃ r, equals b t.bytes = some r ∧
          (r = true ↔ (⟨[97, 98], by decide⟩ : CString) = t)) ↔
        ¬ (Source.string a.buffer).InOwn ⟨a.heap, .initial⟩) := by
  have hcall : (ofCString defaultStorage (.initial fun _ => true) (some [97, 98, 0])).isSome := by
    decide
  obtain ⟨a, ha⟩ := Option.isSome_iff_exists.mp hcall
  have hgrant : ((ofCString defaultStorage (.initial fun _ => true) (some [97, 98, 0])).map
      fun a => a.heap.grants a.heap.requests) = some true := by decide
  rw [ha] at hgrant
  exact ⟨a, ha, compares_iff (by decide) (.initial _) (Option.some.inj hgrant) (.constructed ha)⟩

/-- `"ab"`, assigned to itself: as a string, and as the C string in its memory. -/
theorem not_compares_self :
    ∃ a, Made defaultStorage ⟨[97, 98], by decide⟩ a ∧ Assignable a ∧
      a.heap.grants a.heap.requests = true ∧
      (Source.string a.buffer).make defaultStorage a = none ∧
      PointsTo a.heap (cStr a.buffer) ⟨[97, 98], by decide⟩ ∧
      (Source.cString (cStr a.buffer)).make defaultStorage a = none := by
  have hcall : (ofCString defaultStorage (.initial fun _ => true) (some [97, 98, 0])).isSome := by
    decide
  obtain ⟨a, ha⟩ := Option.isSome_iff_exists.mp hcall
  have hself : ((ofCString defaultStorage (.initial fun _ => true) (some [97, 98, 0])).map
      fun a => (a.heap.grants a.heap.requests,
        ((Source.string a.buffer).make defaultStorage a).isNone,
        ((Source.cString (cStr a.buffer)).make defaultStorage a).isNone)) =
      some (true, true, true) := by decide
  rw [ha] at hself
  obtain ⟨hgrant, hstring, hcString⟩ : a.heap.grants a.heap.requests = true ∧
      ((Source.string a.buffer).make defaultStorage a).isNone = true ∧
      ((Source.cString (cStr a.buffer)).make defaultStorage a).isNone = true := by
    simpa using hself
  have hmade : Made defaultStorage ⟨[97, 98], by decide⟩ a := .constructed ha
  obtain ⟨hcontents, hassignable⟩ := hmade.contents (by decide)
  obtain ⟨c, -, -, hstr⟩ := cStr_pointsTo hcontents hassignable
  exact ⟨a, hmade, hassignable, hgrant, Option.isNone_iff_eq_none.mp hstring, hstr,
    Option.isNone_iff_eq_none.mp hcString⟩

end TString

end Tklb
