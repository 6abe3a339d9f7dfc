import Mathlib.Algebra.Order.Group.Nat
import Mathlib.Data.List.Basic

/-!
# Streams of bytes

A file in memory is a list of bytes.  A number takes a fixed number of them, the lowest
first: `leBytes` and `leValue`.  `readBytes` and `seekForward` are the accesses of a reader
at a position, and fail where the bytes end.  A `WriteStream` is the file together with the
position of its writer; writing replaces what is there and extends the file where it ends.

A reader is verified by following what is left of the file: `readBytes_of_drop` reads the
next field of it.  A writer that never seeks appends (`write_of_atEnd`), and one that goes
back to fill in a field changes that field and no other (`write_of_split`).

### What is load-bearing

* `readBytes_of_drop` is how a reader is followed: from what is left of the file in front of a
  field to what is left of it behind the field.  No position is ever computed.
* `write_of_split` is for writers that leave a field open and go back to it.  The file is split
  in three, and the two outer parts stay as they are.
-/

namespace Tklb.Foundation

/-! ### Numbers -/

/-- The `k` low bytes of a number, the lowest first. -/
def leBytes : ℕ → ℕ → List UInt8
  | 0, _ => []
  | k + 1, n => UInt8.ofNat n :: leBytes k (n / 256)

/-- The number that the bytes stand for. -/
def leValue : List UInt8 → ℕ
  | [] => 0
  | b :: bytes => b.toNat + 256 * leValue bytes

@[simp] theorem length_leBytes (k n : ℕ) : (leBytes k n).length = k := by
  induction k generalizing n with
  | zero => rfl
  | succ k ih => rw [leBytes, List.length_cons, ih]

/-- A number is read back as far as it was written. -/
theorem leValue_leBytes (k n : ℕ) : leValue (leBytes k n) = n % 256 ^ k := by
  induction k generalizing n with
  | zero => rw [pow_zero, Nat.mod_one, leBytes, leValue]
  | succ k ih =>
      have hsplit : n % 256 ^ (k + 1) = n % 256 + 256 * (n / 256 % 256 ^ k) := by
        rw [pow_succ', Nat.mod_mul]
      rw [leBytes, leValue, ih, hsplit]
      rfl

theorem leValue_leBytes_of_lt {k n : ℕ} (h : n < 256 ^ k) : leValue (leBytes k n) = n := by
  rw [leValue_leBytes, Nat.mod_eq_of_lt h]

/-- The bytes of a number, one by one. -/
theorem leBytes_eq_map (k n : ℕ) :
    leBytes k n = (List.range k).map fun i => UInt8.ofNat (n / 256 ^ i) := by
  induction k generalizing n with
  | zero => rfl
  | succ k ih =>
      rw [leBytes, ih, List.range_succ_eq_map, List.map_cons, List.map_map, pow_zero, Nat.div_one]
      congr 2
      funext i
      rw [Function.comp_apply, Nat.div_div_eq_div_mul, pow_succ']

/-- A stretch of a sequence that is given element by element. -/
theorem take_drop_map_range {α : Type} {m n total : ℕ} (hfit : m + n ≤ total) (f : ℕ → α) :
    (((List.range total).map f).drop m).take n = (List.range n).map fun i => f (m + i) := by
  apply List.ext_getElem
  · simp only [List.length_take, List.length_drop, List.length_map, List.length_range]
    omega
  · intro i _ _
    simp only [List.getElem_take, List.getElem_drop, List.getElem_map, List.getElem_range]

/-- Such a sequence and its continuation. -/
theorem map_range_append {α : Type} (m n : ℕ) (f : ℕ → α) :
    (List.range m).map f ++ (List.range n).map (fun i => f (m + i)) =
      (List.range (m + n)).map f := by
  rw [List.range_add, List.map_append, List.map_map]
  rfl

/-! ### Reading -/

section Reading

variable {data field rest : List UInt8} {n pos : ℕ}

/-- Read the `n` bytes from `pos` on, if there are as many. -/
def readBytes (data : List UInt8) (n pos : ℕ) : Option (List UInt8 × ℕ) :=
  if ((data.drop pos).take n).length = n then some ((data.drop pos).take n, pos + n) else none

/-- Skip `offset` bytes, if there are as many. -/
def seekForward (data : List UInt8) (offset pos : ℕ) : Option ℕ :=
  if offset = 0 then some pos else if data.length < pos + offset then none else some (pos + offset)

/-- **The next field.**  What is left of the file at the position starts with the field, and at the
position behind it with the rest. -/
theorem readBytes_of_drop (h : data.drop pos = field ++ rest) (hlength : field.length = n) :
    readBytes data n pos = some (field, pos + n) := by
  have htake : (data.drop pos).take n = field := by rw [h, List.take_left' hlength]
  rw [readBytes, htake, if_pos hlength]

theorem drop_of_drop (h : data.drop pos = field ++ rest) (hlength : field.length = n) :
    data.drop (pos + n) = rest := by
  rw [← List.drop_drop, h, List.drop_left' hlength]

@[simp] theorem seekForward_zero : seekForward data 0 pos = some pos := if_pos rfl

end Reading

/-! ### Writing -/

/-- The bytes written so far, and where the next ones go.  The position may be in front of the end,
and then writing replaces bytes, or at the end, and then it appends. -/
@[ext]
structure WriteStream where
  bytes : List UInt8
  pos : ℕ

namespace WriteStream

variable {s : WriteStream} {a b c data : List UInt8}

/-- An empty file. -/
def empty : WriteStream := ⟨[], 0⟩

/-- Put bytes at the current position. -/
def write (s : WriteStream) (data : List UInt8) : WriteStream :=
  ⟨s.bytes.take s.pos ++ data ++ s.bytes.drop (s.pos + data.length), s.pos + data.length⟩

/-- Go to a position, or to the end if it lies behind it. -/
def seek (s : WriteStream) (offset : ℕ) : WriteStream := ⟨s.bytes, min offset s.bytes.length⟩

/-- The writer is at the end of the file. -/
def AtEnd (s : WriteStream) : Prop := s.pos = s.bytes.length

theorem atEnd_empty : empty.AtEnd := rfl

/-- There bytes are appended. -/
theorem write_of_atEnd (h : s.AtEnd) (data : List UInt8) :
    s.write data = ⟨s.bytes ++ data, s.bytes.length + data.length⟩ := by
  unfold AtEnd at h
  rw [write, h, List.take_length, List.drop_eq_nil_of_le (Nat.le_add_right _ _), List.append_nil]

theorem AtEnd.write (h : s.AtEnd) (data : List UInt8) : (s.write data).AtEnd := by
  rw [write_of_atEnd h]
  exact List.length_append.symm

theorem foldl_write (h : s.AtEnd) (fields : List (List UInt8)) :
    (fields.foldl write s).AtEnd ∧
      (fields.foldl write s).bytes = s.bytes ++ fields.flatten := by
  induction fields generalizing s with
  | nil => exact ⟨h, (List.append_nil _).symm⟩
  | cons field fields ih =>
      obtain ⟨hend, hbytes⟩ := ih (h.write field)
      refine ⟨hend, ?_⟩
      rw [List.foldl_cons, hbytes, write_of_atEnd h, List.flatten_cons, List.append_assoc]

/-- **Filling in.**  A field that is already there is replaced, and the rest stays. -/
theorem write_of_split (h : s.bytes = a ++ b ++ c) (hpos : s.pos = a.length)
    (hlength : data.length = b.length) : (s.write data).bytes = a ++ data ++ c := by
  show s.bytes.take s.pos ++ data ++ s.bytes.drop (s.pos + data.length) = a ++ data ++ c
  rw [hpos, hlength, h, List.append_assoc a b c, List.take_left, ← List.drop_drop,
    List.drop_left, List.drop_left]

end WriteStream

end Tklb.Foundation
