import Mathlib.Algebra.Order.Group.Nat
import Mathlib.Tactic.Ring

/-!
# Byte-addressed memory

Raw memory is a function from addresses to bytes.  A number is stored
little-endian in `n` consecutive bytes; `read` and `write` are the two accesses,
`move` is a copy of a range of bytes to another, disjoint one.

Three facts carry every proof about a structure kept in such a memory: a word
that was just written is read back (`read_write`), a read only depends on the
bytes of its range (`AgreeOn.read`), and a write only changes the bytes of its
range (`write_of_outside`).

### How to use it

* Memory is total: what an address outside of a structure holds is not known, and reading it is
  not an error.  Where an access has to be inside of something, that is a statement about the
  addresses, and is made next to the access.
* `AgreeOn` is the frame.  A proof about a structure states on which range two memories agree,
  and rewrites reads of that range with `AgreeOn.read`; it never unfolds `read` or `write`.
* `writeAll` is a sequence of stores, and `Avoids` says that none of them reaches into a range:
  stores by somebody else are treated as one step.
-/

namespace Tklb.Foundation

/-- Memory: a byte at every address. -/
abbrev ByteMemory : Type := ℕ → UInt8

namespace ByteMemory

/-- The number stored little-endian in the `n` bytes from `a` on. -/
def read (m : ByteMemory) : ℕ → ℕ → ℕ
  | _, 0 => 0
  | a, n + 1 => (m a).toNat + 256 * read m (a + 1) n

/-- Store `v` little-endian in the `n` bytes from `a` on. -/
def write (m : ByteMemory) (a n v : ℕ) : ByteMemory := fun x =>
  if a ≤ x ∧ x < a + n then UInt8.ofNat (v / 256 ^ (x - a)) else m x

/-- Copy the `n` bytes from `src` on to `dst`; the ranges do not overlap. -/
def move (m : ByteMemory) (dst src n : ℕ) : ByteMemory := fun x =>
  if dst ≤ x ∧ x < dst + n then m (src + (x - dst)) else m x

/-- Two memories agree on the addresses from `lo` up to, but not including,
`hi`. -/
def AgreeOn (m m' : ByteMemory) (lo hi : ℕ) : Prop :=
  ∀ x, lo ≤ x → x < hi → m' x = m x

namespace AgreeOn

variable {m m' m'' : ByteMemory} {lo hi lo' hi' : ℕ}

theorem refl (m : ByteMemory) (lo hi : ℕ) : AgreeOn m m lo hi := fun _ _ _ => rfl

theorem trans (h : AgreeOn m m' lo hi) (h' : AgreeOn m' m'' lo hi) :
    AgreeOn m m'' lo hi := fun x hlo hhi => (h' x hlo hhi).trans (h x hlo hhi)

theorem mono (h : AgreeOn m m' lo hi) (hlo : lo ≤ lo') (hhi : hi' ≤ hi) :
    AgreeOn m m' lo' hi' :=
  fun x hx hx' => h x (le_trans hlo hx) (lt_of_lt_of_le hx' hhi)

/-- A read only looks at the bytes of its range. -/
theorem read {a n : ℕ} (h : AgreeOn m m' a (a + n)) :
    ByteMemory.read m' a n = ByteMemory.read m a n := by
  induction n generalizing a with
  | zero => rfl
  | succ n ih =>
      simp only [ByteMemory.read]
      rw [h a le_rfl (by omega), ih (h.mono (by omega) (by omega))]

end AgreeOn

variable {m : ByteMemory} {a n v x : ℕ}

theorem write_of_outside (h : x < a ∨ a + n ≤ x) : m.write a n v x = m x :=
  if_neg (by omega)

theorem move_of_outside {dst src : ℕ} (h : x < dst ∨ dst + n ≤ x) :
    m.move dst src n x = m x :=
  if_neg (by omega)

theorem write_agreeOn {lo hi : ℕ} (h : hi ≤ a ∨ a + n ≤ lo) :
    AgreeOn m (m.write a n v) lo hi :=
  fun _ _ _ => write_of_outside (by omega)

theorem move_agreeOn {dst src lo hi : ℕ} (h : hi ≤ dst ∨ dst + n ≤ lo) :
    AgreeOn m (m.move dst src n) lo hi :=
  fun _ _ _ => move_of_outside (by omega)

theorem update_agreeOn {lo hi : ℕ} {b : UInt8} (h : x < lo ∨ hi ≤ x) :
    AgreeOn m (Function.update m x b) lo hi :=
  fun _ _ _ => Function.update_of_ne (by omega) _ _

/-- The bytes of a stored number are the digits of the number. -/
private theorem read_write_aux {k : ℕ} : ∀ j, j + k ≤ n →
    ByteMemory.read (m.write a n v) (a + j) k = v / 256 ^ j % 256 ^ k := by
  induction k with
  | zero =>
      intro j _
      rw [pow_zero, Nat.mod_one]
      rfl
  | succ k ih =>
      intro j hj
      have hbyte : (m.write a n v (a + j)).toNat = v / 256 ^ j % 256 := by
        rw [write, if_pos (by omega), Nat.add_sub_cancel_left, UInt8.toNat_ofNat']
      rw [ByteMemory.read, hbyte, add_assoc, ih (j + 1) (by omega), pow_succ, pow_succ,
        mul_comm (256 ^ k), ← Nat.div_div_eq_div_mul, Nat.mod_mul]

/-- A stored number is read back. -/
theorem read_write : ByteMemory.read (m.write a n v) a n = v % 256 ^ n := by
  have := read_write_aux (m := m) (a := a) (n := n) (v := v) (k := n) 0 (by omega)
  rwa [pow_zero, Nat.div_one, add_zero] at this

theorem read_write_of_lt (h : v < 256 ^ n) :
    ByteMemory.read (m.write a n v) a n = v := by
  rw [read_write, Nat.mod_eq_of_lt h]

/-- The bytes of a number that is read are its digits. -/
theorem toNat_eq_digit {j : ℕ} (hj : j < n) :
    (m (a + j)).toNat = ByteMemory.read m a n / 256 ^ j % 256 := by
  induction n generalizing a j with
  | zero => omega
  | succ n ih =>
      have hbyte := (m a).toNat_lt
      rw [ByteMemory.read]
      cases j with
      | zero =>
          rw [pow_zero, Nat.div_one, Nat.add_zero]
          omega
      | succ j =>
          rw [pow_succ', ← Nat.div_div_eq_div_mul, show a + (j + 1) = a + 1 + j by omega,
            ih (by omega), show ((m a).toNat + 256 * ByteMemory.read m (a + 1) n) / 256 =
              ByteMemory.read m (a + 1) n by omega]

/-- A store to other bytes is not seen. -/
theorem read_write_of_disjoint {b k : ℕ} (h : b + k ≤ a ∨ a + n ≤ b) :
    ByteMemory.read (m.write a n v) b k = ByteMemory.read m b k :=
  (write_agreeOn h).read

/-- A byte that is not part of a number may be stored before it or after it. -/
theorem write_update {y : ℕ} {b : UInt8} (h : y < a ∨ a + n ≤ y) :
    write (Function.update m y b) a n v = Function.update (m.write a n v) y b := by
  funext x
  by_cases hx : x = y
  · subst hx
    rw [Function.update_self, write_of_outside h, Function.update_self]
  · rw [Function.update_of_ne hx, write, write, Function.update_of_ne hx]

/-! ### Several numbers -/

/-- The numbers `ws`, each with its address, are stored in `n` bytes each, in this order. -/
def writeAll (m : ByteMemory) (n : ℕ) (ws : List (ℕ × ℕ)) : ByteMemory :=
  ws.foldl (fun m w => m.write w.1 n w.2) m

/-- None of the numbers reaches into the bytes from `lo` to `hi`. -/
def Avoids (n : ℕ) (ws : List (ℕ × ℕ)) (lo hi : ℕ) : Prop :=
  ∀ w ∈ ws, w.1 + n ≤ lo ∨ hi ≤ w.1

theorem writeAll_append_one (ws : List (ℕ × ℕ)) :
    m.writeAll n (ws ++ [(a, v)]) = (m.writeAll n ws).write a n v := by
  rw [writeAll, List.foldl_append]
  rfl

variable {ws : List (ℕ × ℕ)} {lo hi : ℕ}

theorem writeAll_agreeOn (h : Avoids n ws lo hi) (m : ByteMemory) :
    AgreeOn m (m.writeAll n ws) lo hi := by
  induction ws generalizing m with
  | nil => exact AgreeOn.refl m lo hi
  | cons w ws ih =>
      have hword := h w List.mem_cons_self
      exact (write_agreeOn (by omega)).trans (ih (fun w hw => h w (List.mem_cons_of_mem _ hw)) _)

/-- A byte that the numbers do not reach may be stored before them or after them. -/
theorem writeAll_update {y : ℕ} (h : Avoids n ws lo hi) (hlo : lo ≤ y) (hhi : y < hi)
    (m : ByteMemory) (b : UInt8) :
    writeAll (Function.update m y b) n ws = Function.update (m.writeAll n ws) y b := by
  induction ws generalizing m with
  | nil => rfl
  | cons w ws ih =>
      have hword := h w List.mem_cons_self
      have htail := ih (fun w hw => h w (List.mem_cons_of_mem _ hw)) (m.write w.1 n w.2)
      rw [← write_update (by omega)] at htail
      exact htail

end ByteMemory

end Tklb.Foundation
