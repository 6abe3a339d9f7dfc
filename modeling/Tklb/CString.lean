import Mathlib.Data.List.Basic

/-!
# C strings

A C string is given by its characters, none of which is NUL; `bytes` is the memory that may
be read of it, from its first character up to the terminator.  Code that reads a string
from `bytes` with `[·]?` reads nothing behind the terminator as long as no read fails.

### Why it matters

Every function of the library that takes a `char*` looks for the end by itself, and what goes
wrong with such functions is a read behind the terminator or a character that is taken for one.
With `bytes` as the memory, both are results: a read behind the end gives `none`, and the
characters are known not to be NUL, as a field of the structure.  `read` is the other direction,
the string that a memory starts with, for code that is handed a pointer into the middle of
something; `read_bytes` and `read_drop` say that a suffix of a string is the string of its
remaining characters.  `bytes_cases` is the case split of all loops over a string: there is a
character at the index, or the terminator is.
-/

namespace Tklb

/-- A NUL terminated string.  The characters do not include the terminator, and none of them is one;
so the length is known, and what a loop up to the terminator finds. -/
@[ext]
structure CString where
  chars : List UInt8
  noNul : 0 ∉ chars
deriving DecidableEq

namespace CString

/-- The number of characters, without the terminator. -/
def length (s : CString) : ℕ := s.chars.length

/-- The characters and the terminator. -/
def bytes (s : CString) : List UInt8 := s.chars ++ [0]

/-- The first `n` characters. -/
def take (n : ℕ) (s : CString) : CString :=
  ⟨s.chars.take n, fun hmem => s.noNul (List.mem_of_mem_take hmem)⟩

/-- The characters from the start of a memory up to a terminator. -/
def read : List UInt8 → Option (List UInt8)
  | [] => none
  | c :: memory => if c = 0 then some [] else (read memory).map (c :: ·)

variable {s t : CString} {i n : ℕ}

@[simp] theorem length_chars (s : CString) : s.chars.length = s.length := rfl

@[simp] theorem length_bytes (s : CString) : s.bytes.length = s.length + 1 :=
  List.length_append

@[simp] theorem length_take (n : ℕ) (s : CString) : (s.take n).length = min n s.length :=
  List.length_take

theorem take_of_le (h : s.length ≤ n) : s.take n = s := by
  ext1
  exact List.take_of_length_le h

theorem bytes_of_lt (h : i < s.length) : s.bytes[i]? = s.chars[i]? :=
  List.getElem?_append_left h

@[simp] theorem bytes_at_length (s : CString) : s.bytes[s.length]? = some 0 :=
  List.getElem?_concat_length

theorem isSome_bytes (h : i ≤ s.length) : ∃ c, s.bytes[i]? = some c :=
  ⟨_, List.getElem?_eq_getElem (by simpa using Nat.lt_succ_of_le h)⟩

theorem bytes_eq_zero_iff : s.bytes[i]? = some 0 ↔ i = s.length := by
  constructor
  · intro h
    rcases Nat.lt_trichotomy i s.length with hlt | heq | hgt
    · rw [bytes_of_lt hlt] at h
      exact absurd (List.mem_of_getElem? h) s.noNul
    · exact heq
    · rw [List.getElem?_eq_none (by rw [length_bytes]; omega)] at h
      cases h
  · rintro rfl
    exact bytes_at_length s

/-- A character of a prefix is one of the string. -/
theorem take_bytes_of_lt (h : i < (s.take n).length) : (s.take n).bytes[i]? = s.bytes[i]? := by
  rw [length_take] at h
  rw [bytes_of_lt (by rw [length_take]; exact h), bytes_of_lt (by omega), take,
    List.getElem?_take_of_lt (by omega)]

/-- Strings that agree up to their terminators are equal. -/
theorem eq_of_bytes (hlen : s.length = t.length) (h : ∀ i < s.length, s.bytes[i]? = t.bytes[i]?) :
    s = t := by
  ext1
  refine List.ext_getElem? fun i => ?_
  by_cases hi : i < s.length
  · rw [← bytes_of_lt hi, ← bytes_of_lt (hlen ▸ hi), h i hi]
  · rw [List.getElem?_eq_none (Nat.le_of_not_lt hi),
      List.getElem?_eq_none (Nat.le_of_not_lt (by rwa [length_chars, ← hlen]))]

/-- Where one string ends, the other does if they are equal, and only then. -/
theorem eq_iff_of_agree (ht : i ≤ t.length) (hagree : ∀ j < i, s.bytes[j]? = t.bytes[j]?)
    (hend : s.bytes[i]? = some 0) : s = t ↔ t.bytes[i]? = some 0 := by
  obtain rfl := bytes_eq_zero_iff.mp hend
  rw [bytes_eq_zero_iff]
  exact ⟨fun h => by rw [h], fun h => eq_of_bytes h hagree⟩

/-- A character that is not the terminator is not the last one. -/
theorem lt_length_of_ne {c : UInt8} (hi : i ≤ s.length) (hc : s.bytes[i]? = some c)
    (hne : c ≠ 0) : i < s.length := by
  apply Nat.lt_of_le_of_ne hi
  rintro rfl
  exact hne (Option.some.inj (hc.symm.trans s.bytes_at_length))

theorem ne_of_bytes {c d : UInt8} (hc : s.bytes[i]? = some c) (hd : t.bytes[i]? = some d)
    (hne : c ≠ d) : s ≠ t := by
  rintro rfl
  exact hne (Option.some.inj (hc.symm.trans hd))

/-- Up to its end, the next byte of a string is the terminator or one of its characters. -/
theorem bytes_cases (hi : i ≤ s.length) :
    i = s.length ∧ s.bytes[i]? = some 0 ∨
      ∃ c, c ≠ 0 ∧ i < s.length ∧ s.bytes[i]? = some c := by
  obtain ⟨c, hc⟩ := isSome_bytes hi
  by_cases hzero : c = 0
  · subst hzero
    exact Or.inl ⟨bytes_eq_zero_iff.mp hc, hc⟩
  · exact Or.inr ⟨c, hzero, lt_length_of_ne hi hc hzero, hc⟩

theorem read_terminated {chars : List UInt8} (h : 0 ∉ chars) :
    read (chars ++ [0]) = some chars := by
  induction chars with
  | nil => rfl
  | cons c chars ih =>
      rw [List.mem_cons, not_or] at h
      rw [List.cons_append, read, if_neg (Ne.symm h.1), ih h.2, Option.map_some]

theorem read_bytes (s : CString) : read s.bytes = some s.chars :=
  read_terminated s.noNul

/-- From inside the string, or from its terminator, the rest of it is read. -/
theorem read_drop (h : i ≤ s.length) : read (s.bytes.drop i) = some (s.chars.drop i) := by
  rw [bytes, List.drop_append_of_le_length h]
  exact read_terminated fun hmem => s.noNul (List.mem_of_mem_drop hmem)

/-- Behind the terminator there is nothing to read. -/
theorem read_drop_of_lt (h : s.length < i) : read (s.bytes.drop i) = none := by
  rw [List.drop_eq_nil_of_le (by rw [length_bytes]; exact h), read]

end CString

end Tklb
