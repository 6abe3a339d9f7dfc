import Mathlib.Algebra.Order.Group.Nat
import Mathlib.Tactic.NormNum

/-!
# Compilation targets

What the code knows of a machine: the number of bytes of a pointer.  Pointers, and the
unsigned integers that hold them, are as wide as that.

### What is load-bearing

That the number of bytes is a power of two is part of the structure.  It is used where a size is
rounded up to whole words by masking its low bits, and results about all targets are results
about 16, 32 and 64 bits at once.
-/

namespace Tklb

/-- A compilation target: pointers are `2 ^ log` bytes long. -/
structure Target where
  log : ℕ

namespace Target

/-- `sizeof(void*)` -/
def ptrBytes (A : Target) : ℕ := 2 ^ A.log

/-- The width of `Pointer` and `Size`. -/
def bits (A : Target) : ℕ := 8 * A.ptrBytes

theorem two_pow_log (A : Target) : 2 ^ A.log = A.ptrBytes := rfl

theorem ptrBytes_pos (A : Target) : 0 < A.ptrBytes := Nat.two_pow_pos _

/-- `ptrBytes` bytes hold exactly the numbers of width `bits`. -/
theorem two_pow_bits (A : Target) : 2 ^ A.bits = 256 ^ A.ptrBytes := by
  rw [bits, pow_mul]
  norm_num

/-- A few words are far from the end of the address space. -/
theorem four_mul_ptrBytes_le (A : Target) : 4 * A.ptrBytes < 2 ^ A.bits := by
  have hpos := A.ptrBytes_pos
  calc 4 * A.ptrBytes < 4 * 2 ^ A.ptrBytes := by
        have := Nat.lt_two_pow_self (n := A.ptrBytes)
        omega
    _ = 2 ^ (2 + A.ptrBytes) := by rw [pow_add]; norm_num
    _ ≤ 2 ^ A.bits := Nat.pow_le_pow_right (by omega) (by rw [bits]; omega)

/-- Multiples of a word that differ, differ by a word. -/
theorem add_ptrBytes_le {A : Target} {a b : ℕ} (ha : A.ptrBytes ∣ a) (hb : A.ptrBytes ∣ b)
    (hab : a < b) : a + A.ptrBytes ≤ b :=
  Nat.le_of_lt_add_of_dvd (by omega) (Nat.dvd_add ha dvd_rfl) hb

end Target

end Tklb
