import Tklb.CString
import Tklb.Foundation.RecordedMemory
import Tklb.Foundation.Unsigned

/-!
# `StackString`

A string in an array of `N` characters.  `set` cuts a C string down to what fits in front
of the last character, and fills the rest of the array with NULs (`set_spec`); `size`,
`operator==` and `put` then read the text up to the first of them (`Holds`).

`put` ends with a NUL at the index `min(N, length - 1)`.  The length is unsigned: for a
destination without room `length - 1` is the largest number there is, and the NUL is
written at index `N` (`put_zero`).

`SizeT` is `w` bits wide.  `mData[i]` is checked here, and a call that uses an index that
`mData` does not have gives `none`; so does one that reads a C string behind its
terminator.  The comparison with another `StackString` is left out.

### Main results

* `set_spec`, `size_spec`, `equals_spec`, `put_spec` — one for each function, in terms of the
  text that the array holds.
* `put_zero` — the call that goes wrong.
* `truncates_iff` — for every capacity, every C string and every destination.

The text of a string is a list without NUL that is shorter than the array, so one character is
always left for the terminator.  `set` establishes that, and the other functions depend on it.
-/

namespace Tklb

open Foundation

/-- `StackString<N>` -/
structure StackString (N : ℕ) where
  mData : Vector UInt8 N

namespace StackString

variable {N : ℕ}

/-- `mData[i]` -/
def charAt (a : StackString N) (i : ℕ) : Option UInt8 := a.mData[i]?

/-- `mData[i] = c` -/
def setChar (a : StackString N) (i : ℕ) (c : UInt8) : Option (StackString N) :=
  if h : i < N then some ⟨a.mData.set i c⟩ else none

/-! ### `set` -/

/-- The first loop of `set`, from `i` on with `n` characters to go; with the index where it
ends. -/
def copyFrom (str : List UInt8) : ℕ → ℕ → StackString N → Option (ℕ × StackString N)
  | 0, i, a => some (i, a)
  | n + 1, i, a => do
      let c ← str[i]?
      if c = 0 then some (i, a) else copyFrom str n (i + 1) (← setChar a i c)

/-- The second loop of `set`. -/
def fillFrom : ℕ → ℕ → StackString N → Option (StackString N)
  | 0, _, a => some a
  | n + 1, i, a => do fillFrom n (i + 1) (← setChar a i 0)

/-- `set` -/
def set (a : StackString N) (str : List UInt8) : Option (StackString N) :=
  if N = 0 then some a
  else do
    let (i, a) ← copyFrom str N 0 a
    let a ← fillFrom (N - i) i a
    -- just in case, will run over the last char
    setChar a (N - 1) 0

/-! ### `size` and `operator==` -/

/-- `empty` -/
def empty (a : StackString N) : Option Bool :=
  if N = 0 then some true else (charAt a 0).map (· == 0)

/-- The loop of `size` from `i` on, with `n` characters to go. -/
def sizeFrom (a : StackString N) : ℕ → ℕ → Option ℕ
  | 0, _ => some N
  | n + 1, i => do
      let c ← charAt a i
      if c = 0 then some i else sizeFrom a n (i + 1)

/-- `size` -/
def size (a : StackString N) : Option ℕ := if N = 0 then some 0 else sizeFrom a N 0

/-- The loop of `operator==` from `i` on, with `n` characters to go. -/
def equalsFrom (a : StackString N) (str : List UInt8) : ℕ → ℕ → Option Bool
  | 0, _ => some true
  | n + 1, i => do
      let c ← str[i]?
      let d ← charAt a i
      if c = 0 then some (c == d)
      else if c ≠ d then some false
      else equalsFrom a str n (i + 1)

/-- `operator==(const char* str)`; `none` is `nullptr`. -/
def equals (a : StackString N) : Option (List UInt8) → Option Bool
  | none => empty a
  | some str => do
      if ← empty a then str[0]?.map (· == 0) else equalsFrom a str N 0

/-! ### `put` -/

/-- The loop of `put` from `i` on, with `n` characters to go. -/
def putFrom (a : StackString N) :
    ℕ → ℕ → RecordedMemory UInt8 → Option (RecordedMemory UInt8)
  | 0, _, str => some str
  | n + 1, i, str => do
      let c ← charAt a i
      putFrom a n (i + 1) (str.store i c)

/-- `put` -/
def put (w : ℕ) (a : StackString N) (str : RecordedMemory UInt8) (length : ℕ) :
    Option (RecordedMemory UInt8) :=
  if N = 0 then some str
  else do
    let str ← putFrom a (min N length) 0 str
    some (str.store (min N (wsub w length 1)) 0)

/-! ### The text -/

/-- The array holds the text `t` and NULs behind it.  There is room for at least one NUL, so the
text ends in the array. -/
structure Holds (a : StackString N) (t : CString) : Prop where
  fits : t.length < N
  text : ∀ j < t.length, charAt a j = t.bytes[j]?
  padding : ∀ j, t.length ≤ j → j < N → charAt a j = some 0

variable {a b : StackString N} {s t : CString} {i j n w length : ℕ} {c : UInt8}

theorem Holds.bytes (h : Holds a t) (hj : j ≤ t.length) : charAt a j = t.bytes[j]? := by
  rcases hj.lt_or_eq with hlt | rfl
  · exact h.text j hlt
  · rw [CString.bytes_at_length]
    exact h.padding _ le_rfl h.fits

/-- **An assignment.**  It always succeeds inside of the array, and the other characters stay. -/
theorem setChar_spec (hi : i < N) (c : UInt8) : ∃ b, setChar a i c = some b ∧
    charAt b i = some c ∧ ∀ j, j ≠ i → charAt b j = charAt a j := by
  refine ⟨⟨a.mData.set i c⟩, by rw [setChar, dif_pos hi], ?_, fun j hj => ?_⟩
  · simp [charAt, hi]
  · simp [charAt, hj.symm]

theorem copyFrom_spec (hi : i ≤ s.length) (hn : i + n = N) (a : StackString N) :
    ∃ b, copyFrom s.bytes n i a = some (min s.length N, b) ∧
      (∀ j, i ≤ j → j < min s.length N → charAt b j = s.bytes[j]?) ∧
      ∀ j < i, charAt b j = charAt a j := by
  induction n generalizing i a with
  | zero =>
      have hend : min s.length N = i := by omega
      refine ⟨a, by rw [copyFrom, hend], fun j hij hj => by omega, fun j _ => rfl⟩
  | succ n ih =>
      rcases CString.bytes_cases hi with ⟨rfl, hc⟩ | ⟨c, hne, hlt, hc⟩
      · rw [copyFrom, hc, Option.bind_eq_bind, Option.bind_some, if_pos rfl]
        have hend : min s.length N = s.length := by omega
        refine ⟨a, by rw [hend], fun j hij hj => by omega, fun j _ => rfl⟩
      · rw [copyFrom, hc, Option.bind_eq_bind, Option.bind_some, if_neg hne]
        obtain ⟨a', hset, hself, hother⟩ := setChar_spec (a := a) (by omega : i < N) c
        obtain ⟨b, hcall, hnew, hold⟩ := ih hlt (by omega) a'
        refine ⟨b, by rw [hset, Option.bind_eq_bind, Option.bind_some, hcall], ?_, ?_⟩
        · intro j hij hj
          rcases hij.eq_or_lt with rfl | hlt
          · rw [hold i (Nat.lt_succ_self i), hself, hc]
          · exact hnew j hlt hj
        · intro j hj
          rw [hold j (by omega), hother j hj.ne]

theorem fillFrom_spec (hn : i + n = N) (a : StackString N) :
    ∃ b, fillFrom n i a = some b ∧ (∀ j, i ≤ j → j < N → charAt b j = some 0) ∧
      ∀ j < i, charAt b j = charAt a j := by
  induction n generalizing i a with
  | zero => exact ⟨a, rfl, fun j hij hj => by omega, fun j _ => rfl⟩
  | succ n ih =>
      obtain ⟨a', hset, hself, hother⟩ := setChar_spec (a := a) (by omega : i < N) 0
      obtain ⟨b, hcall, hnew, hold⟩ := ih (by omega : i + 1 + n = N) a'
      refine ⟨b, by rw [fillFrom, hset, Option.bind_eq_bind, Option.bind_some, hcall], ?_, ?_⟩
      · intro j hij hj
        rcases hij.eq_or_lt with rfl | hlt
        · rw [hold i (Nat.lt_succ_self i), hself]
        · exact hnew j hlt hj
      · intro j hj
        rw [hold j (by omega), hother j hj.ne]

/-- **`set`** keeps what fits in front of the last character.  The capacity less one is what fits,
because the last character is always a NUL; the array is filled up with NULs, so nothing of an
earlier text remains. -/
theorem set_spec (hN : 1 ≤ N) (a : StackString N) (s : CString) :
    ∃ b, set a s.bytes = some b ∧ Holds b (s.take (N - 1)) := by
  obtain ⟨a₁, hcopy, htext, -⟩ := copyFrom_spec (Nat.zero_le s.length) (Nat.zero_add N) a
  obtain ⟨a₂, hfill, hpadding, hkept⟩ :=
    fillFrom_spec (i := min s.length N) (n := N - min s.length N) (by omega) a₁
  obtain ⟨b, hlast, hself, hother⟩ := setChar_spec (a := a₂) (by omega : N - 1 < N) 0
  have hlen : (s.take (N - 1)).length = min (N - 1) s.length := CString.length_take _ _
  refine ⟨b, ?_, by omega, fun j hj => ?_, fun j hj hjN => ?_⟩
  · rw [set, if_neg (by omega), hcopy]
    simp only [Option.bind_eq_bind, Option.bind_some, hfill, hlast]
  · rw [hother j (by omega), hkept j (by omega), htext j (Nat.zero_le j) (by omega),
      CString.take_bytes_of_lt hj]
  · rcases eq_or_ne j (N - 1) with rfl | hne
    · exact hself
    · rw [hother j hne]
      exact hpadding j (by omega) hjN

/-! ### Reading the text -/

theorem sizeFrom_spec (h : Holds a t) (hi : i ≤ t.length) (hn : i + n = N) :
    sizeFrom a n i = some t.length := by
  induction n generalizing i with
  | zero => have := h.fits; omega
  | succ n ih =>
      rw [sizeFrom, h.bytes hi]
      rcases CString.bytes_cases hi with ⟨rfl, hc⟩ | ⟨c, hne, hlt, hc⟩
      · rw [hc, Option.bind_eq_bind, Option.bind_some, if_pos rfl]
      · rw [hc, Option.bind_eq_bind, Option.bind_some, if_neg hne]
        exact ih hlt (by omega)

/-- **`size`** is the length of the text.  The loop stops at the first NUL, and there is one in the
array. -/
theorem size_spec (h : Holds a t) : size a = some t.length := by
  have hpos := h.fits
  rw [size, if_neg (by omega)]
  exact sizeFrom_spec h (Nat.zero_le _) (Nat.zero_add N)

theorem empty_spec (h : Holds a t) : empty a = some (decide (t.length = 0)) := by
  have hpos := h.fits
  obtain ⟨c, hc⟩ := CString.isSome_bytes (Nat.zero_le t.length)
  rw [empty, if_neg (by omega), h.bytes (Nat.zero_le _), hc, Option.map_some]
  congr 1
  rw [Bool.eq_iff_iff, beq_iff_eq, decide_eq_true_iff, eq_comm (a := t.length),
    ← CString.bytes_eq_zero_iff, hc, Option.some.injEq]

theorem equalsFrom_spec (h : Holds a t) (hs : i ≤ s.length) (ht : i ≤ t.length)
    (hagree : ∀ j < i, s.bytes[j]? = t.bytes[j]?) (hn : i + n = N) :
    ∃ r, equalsFrom a s.bytes n i = some r ∧ (r = true ↔ s = t) := by
  induction n generalizing i with
  | zero => have := h.fits; omega
  | succ n ih =>
      obtain ⟨c, hc⟩ := CString.isSome_bytes hs
      obtain ⟨d, hd⟩ := CString.isSome_bytes ht
      rw [equalsFrom, h.bytes ht, hc, hd]
      simp only [Option.bind_eq_bind, Option.bind_some]
      split
      · rename_i hzero
        refine ⟨c == d, rfl, ?_⟩
        rw [CString.eq_iff_of_agree ht hagree (hc.trans (congrArg some hzero)), hd, beq_iff_eq,
          Option.some.injEq, hzero, eq_comm]
      · rename_i hzero
        split
        · rename_i hne
          exact ⟨false, rfl, iff_of_false Bool.false_ne_true (CString.ne_of_bytes hc hd hne)⟩
        · rename_i heq
          obtain rfl := not_not.mp heq
          exact ih (CString.lt_length_of_ne hs hc hzero) (CString.lt_length_of_ne ht hd hzero)
            (Nat.forall_lt_succ_right.mpr ⟨hagree, hc.trans hd.symm⟩) (by omega)

/-- **`operator==`** compares with the text.  Neither string is read behind its end: the loop stops
at the first difference, or where both texts end. -/
theorem equals_spec (h : Holds a t) (s : CString) :
    ∃ r, equals a (some s.bytes) = some r ∧ (r = true ↔ s = t) := by
  obtain ⟨c, hc⟩ := CString.isSome_bytes (Nat.zero_le s.length)
  simp only [equals, empty_spec h, Option.bind_eq_bind, Option.bind_some]
  by_cases hempty : t.length = 0
  · refine ⟨c == 0, by rw [decide_eq_true hempty, if_pos rfl, hc, Option.map_some], ?_⟩
    have hend : t.bytes[0]? = some 0 := CString.bytes_eq_zero_iff.mpr hempty.symm
    rw [eq_comm (a := s), CString.eq_iff_of_agree (Nat.zero_le _)
      (fun j hj => absurd hj (Nat.not_lt_zero j)) hend, hc, beq_iff_eq, Option.some.injEq]
  · rw [decide_eq_false hempty, if_neg Bool.false_ne_true]
    exact equalsFrom_spec h (Nat.zero_le _) (Nat.zero_le _)
      (fun j hj => absurd hj (Nat.not_lt_zero j)) (Nat.zero_add N)

theorem putFrom_spec (hn : i + n ≤ N) (a : StackString N) (str : RecordedMemory UInt8) :
    ∃ m, putFrom a n i str = some m ∧
      (∀ j, i ≤ j → j < i + n → charAt a j = some (m.cells j)) ∧ str.WrittenIn m i (i + n) := by
  induction n generalizing i str with
  | zero => exact ⟨str, rfl, fun j hij hj => by omega, .refl str _ _⟩
  | succ n ih =>
      have hc : charAt a i = some a.mData[i] := Vector.getElem?_eq_getElem (by omega)
      obtain ⟨m, hcall, hchars, hwritten⟩ := ih (i := i + 1) (by omega) (str.store i a.mData[i])
      rw [show i + 1 + n = i + (n + 1) by omega] at hchars hwritten
      refine ⟨m, by rw [putFrom, hc, Option.bind_eq_bind, Option.bind_some, hcall], ?_,
        (RecordedMemory.store_writtenIn le_rfl (by omega)).trans
          (hwritten.mono (Nat.le_succ i) le_rfl)⟩
      intro j hij hj
      rcases hij.eq_or_lt with rfl | hlt
      · rw [hwritten.frame i (Or.inl (Nat.lt_succ_self i)), RecordedMemory.store_cells_self, hc]
      · exact hchars j hlt hj

/-- **`put`** with room for the terminator writes what fits in front of it. -/
theorem put_spec (h : Holds a t) (hpos : 1 ≤ length) (hlt : length < 2 ^ w)
    (str : RecordedMemory UInt8) : ∃ m, put w a str length = some m ∧
      str.WrittenIn m 0 length ∧
      ∀ j ≤ min t.length (length - 1), (t.take (length - 1)).bytes[j]? = some (m.cells j) := by
  have hN := h.fits
  obtain ⟨m, hcall, hchars, hwritten⟩ :=
    putFrom_spec (by omega : 0 + min N length ≤ N) a str
  rw [Nat.zero_add] at hchars hwritten
  refine ⟨m.store (min N (length - 1)) 0, ?_, ?_, fun j hj => ?_⟩
  · rw [put, if_neg (by omega), hcall, wsub_of_le hlt hpos]
    rfl
  · exact (hwritten.mono le_rfl (by omega)).trans
      (RecordedMemory.store_writtenIn (Nat.zero_le _) (by omega))
  · have hlen : (t.take (length - 1)).length = min (length - 1) t.length :=
      CString.length_take _ _
    rcases Nat.lt_or_ge j (t.take (length - 1)).length with hjlt | hjge
    · rw [CString.take_bytes_of_lt hjlt, RecordedMemory.store_cells_of_ne (by omega),
        ← hchars j (Nat.zero_le j) (by omega), h.bytes (by omega)]
    · -- the terminator: the loop's, or the last one
      rw [CString.bytes_eq_zero_iff.mpr (show j = (t.take (length - 1)).length by omega)]
      by_cases hend : j = min N (length - 1)
      · rw [hend, RecordedMemory.store_cells_self]
      · rw [RecordedMemory.store_cells_of_ne hend, ← hchars j (Nat.zero_le j) (by omega)]
        exact (h.padding j (by omega) (by omega)).symm

/-- **`put`** without room writes behind the capacity.  The length less one wraps, so the minimum is
the capacity, and one character is written there although no room was given. -/
theorem put_zero (hN : 1 ≤ N) (hlt : N < 2 ^ w) (a : StackString N)
    (str : RecordedMemory UInt8) : put w a str 0 = some (str.store N 0) := by
  have hend : wsub w 0 1 = 2 ^ w - 1 := by
    rw [wsub, Nat.add_zero, wrap_of_lt (by omega)]
  rw [put, if_neg (by omega), Nat.min_zero, hend, Nat.min_eq_left (by omega)]
  rfl

/-! ### All of it -/

/-- After `set` the string is the C string, cut to the capacity; so say `size` and
`operator==`, and `put` exports as much of it as the destination takes, and writes nothing
behind it. -/
def Truncates (w : ℕ) (a : StackString N) (s : CString) (dst : ℕ → UInt8) (length : ℕ) :
    Prop :=
  ∃ b, set a s.bytes = some b ∧ Holds b (s.take (N - 1)) ∧
    size b = some (min s.length (N - 1)) ∧
    (∀ t : CString, ∃ r, equals b (some t.bytes) = some r ∧ (r = true ↔ t = s.take (N - 1))) ∧
    ∃ m, put w b (.untouched dst) length = some m ∧ (∀ i ∈ m.written, i < length) ∧
      (1 ≤ length → ∀ j ≤ min (s.take (N - 1)).length (length - 1),
        ((s.take (N - 1)).take (length - 1)).bytes[j]? = some (m.cells j))

/-- **`StackString`** truncates, as long as the destination of `put` has room for a
character. -/
theorem truncates_iff (hN : 1 ≤ N) (hfit : N < 2 ^ w) (hlt : length < 2 ^ w)
    (a : StackString N) (s : CString) (dst : ℕ → UInt8) :
    Truncates w a s dst length ↔ 1 ≤ length := by
  constructor
  · rintro ⟨b, -, -, -, -, m, hput, hwritten, -⟩
    by_contra hzero
    obtain rfl : length = 0 := by omega
    rw [put_zero hN hfit] at hput
    obtain rfl := Option.some.inj hput
    exact absurd (hwritten N List.mem_cons_self) (Nat.not_lt_zero N)
  · intro hpos
    obtain ⟨b, hset, hholds⟩ := set_spec hN a s
    obtain ⟨m, hput, hwritten, htext⟩ := put_spec hholds hpos hlt (.untouched dst)
    refine ⟨b, hset, hholds, ?_, equals_spec hholds, m, hput,
      fun i hmem => (hwritten.mem_range hmem).2, fun _ => htext⟩
    rw [size_spec hholds, CString.length_take, Nat.min_comm]

/-- The letter `a`, exported to a single character. -/
theorem truncates_iff_single :
    Truncates 64 (⟨Vector.replicate 8 0⟩ : StackString 8) ⟨[97], by decide⟩ (fun _ => 255) 1 ↔
      1 ≤ 1 :=
  truncates_iff (by decide) (by decide) (by decide) _ _ _

/-- The letter `a`, exported to nothing. -/
theorem not_truncates_zero : ¬ Truncates 64 (⟨Vector.replicate 8 0⟩ : StackString 8)
    ⟨[97], by decide⟩ (fun _ => 255) 0 := by
  rintro ⟨b, -, -, -, -, m, hput, hwritten, -⟩
  rw [put_zero (by decide) (by decide)] at hput
  obtain rfl := Option.some.inj hput
  exact absurd (hwritten 8 List.mem_cons_self) (by decide)

end StackString

end Tklb
