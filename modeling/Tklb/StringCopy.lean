import Tklb.CString
import Tklb.Foundation.RecordedMemory
import Mathlib.Tactic.Cases

/-!
# `stringCopy`

With a size, the loop copies the characters up to the terminator or up to the size, and in
the second case the last character is overwritten: the destination is terminated
(`stringCopy_sized`).

Without one, the size is the number of characters in front of the terminator, which a first
loop finds.  The copying loop then ends before it reaches the terminator, and none is
written: the first loop has turned `terminate` off.  So the destination is a string only if
it happened to be terminated there before (`copiesStrings_iff`).

### What is load-bearing

The destination is a `RecordedMemory`: what is asked of a copy is not only what stands there
afterwards, but also that nothing behind its size was written.  With a size, the terminator
takes the place of the last character if the string does not fit; without one there is no room
for it that the function knows of. `copyFrom_spec` is the description of the loop that both uses
share.
-/

namespace Tklb

open Foundation

namespace StringCopy

/-- The first loop, from `i` on with `n` characters to go: `size` and `terminate`. -/
def measureFrom (src : List UInt8) : ℕ → ℕ → ℕ → Option (ℕ × Bool)
  | 0, _, size => some (size, true)
  | n + 1, i, _ => do
      let c ← src[i]?
      if c = 0 then some (i, false) else measureFrom src n (i + 1) i

/-- The copying loop, from `i` on with `n` characters to go; the flag says that it
returned. -/
def copyFrom (src : List UInt8) :
    ℕ → ℕ → RecordedMemory UInt8 → Option (RecordedMemory UInt8 × Bool)
  | 0, _, dst => some (dst, false)
  | n + 1, i, dst => do
      let c ← src[i]?
      if c = 0 then some (dst.store i c, true) else copyFrom src n (i + 1) (dst.store i c)

/-- `stringCopy` -/
def stringCopy (dst : RecordedMemory UInt8) (src : List UInt8) (size : ℕ) (terminate : Bool) :
    Option (RecordedMemory UInt8) := do
  let (size, terminate) ←
    -- only allow short terminated strings
    if size = 0 then measureFrom src 64 0 size else some (size, terminate)
  let (dst, returned) ← copyFrom src size 0 dst
  if returned then some dst
  -- run over the last char to make sure it's terminated
  else if terminate then some (dst.store (size - 1) 0)
  else some dst

variable {s : CString} {dst dst' : RecordedMemory UInt8} {n i size : ℕ}

/-! ### The loops -/

/-- The first loop finds the terminator, if it is among the characters it looks at. -/
theorem measureFrom_spec (hi : i ≤ s.length) (hn : s.length < i + n) (size : ℕ) :
    measureFrom s.bytes n i size = some (s.length, false) := by
  induction n generalizing i size with
  | zero => omega
  | succ n ih =>
      rcases CString.bytes_cases hi with ⟨rfl, hc⟩ | ⟨c, hne, hlt, hc⟩
      · rw [measureFrom, hc, Option.bind_eq_bind, Option.bind_some, if_pos rfl]
      · rw [measureFrom, hc, Option.bind_eq_bind, Option.bind_some, if_neg hne]
        apply ih hlt
        omega

/-- The bytes of `s` from `lo` on and below `hi` stand in the memory. -/
def Holds (s : CString) (dst : RecordedMemory UInt8) (lo hi : ℕ) : Prop :=
  ∀ j, lo ≤ j → j < hi → s.bytes[j]? = some (dst.cells j)

/-- **The copying loop** copies what it is asked for, up to the terminator, and returns if
it comes that far. -/
theorem copyFrom_spec (hi : i ≤ s.length) (n : ℕ) (dst : RecordedMemory UInt8) :
    ∃ dst', copyFrom s.bytes n i dst = some (dst', decide (s.length < i + n)) ∧
      Holds s dst' i (min (i + n) (s.length + 1)) ∧
      dst.WrittenIn dst' i (min (i + n) (s.length + 1)) := by
  induction n generalizing i dst with
  | zero =>
      refine ⟨dst, ?_, fun j hij hj => by omega, .refl dst _ _⟩
      rw [copyFrom, decide_eq_false (by omega)]
  | succ n ih =>
      rcases CString.bytes_cases hi with ⟨rfl, hc⟩ | ⟨c, hne, hlt, hc⟩
      · rw [copyFrom, hc, Option.bind_eq_bind, Option.bind_some, if_pos rfl]
        refine ⟨dst.store s.length 0, ?_, fun j hij hj => ?_,
          RecordedMemory.store_writtenIn le_rfl (by omega)⟩
        · rw [decide_eq_true (by omega)]
        · obtain rfl : j = s.length := by omega
          rw [hc, RecordedMemory.store_cells_self]
      · rw [copyFrom, hc, Option.bind_eq_bind, Option.bind_some, if_neg hne]
        obtain ⟨dst', hcall, hholds, hwritten⟩ := ih hlt (dst.store i c)
        rw [show i + 1 + n = i + (n + 1) by omega] at hcall hholds hwritten
        refine ⟨dst', hcall, fun j hij hj => ?_,
          (RecordedMemory.store_writtenIn le_rfl (by omega)).trans
            (hwritten.mono (Nat.le_succ i) le_rfl)⟩
        rcases hij.eq_or_lt with rfl | hlt
        · rw [hwritten.frame i (Or.inl (Nat.lt_succ_self i)), RecordedMemory.store_cells_self, hc]
        · exact hholds j hlt hj

/-! ### The two modes -/

/-- `dst'` is what `stringCopy(dst, src, size, true)` is to leave.  The characters that fit and the
terminator stand at the start, and nothing behind the size was written. -/
structure CopiedSized (s : CString) (size : ℕ) (dst dst' : RecordedMemory UInt8) : Prop where
  holds : ∀ j ≤ min s.length (size - 1), (s.take (size - 1)).bytes[j]? = some (dst'.cells j)
  written : dst.WrittenIn dst' 0 size

/-- `dst'` is what `stringCopy(dst, src)` is to leave.  All characters and the terminator stand at
the start, and nothing behind them was written. -/
structure CopiedWhole (s : CString) (dst dst' : RecordedMemory UInt8) : Prop where
  holds : Holds s dst' 0 (s.length + 1)
  written : dst.WrittenIn dst' 0 (s.length + 1)

/-- **With a size**, the destination holds what fits of the string, terminated. -/
theorem stringCopy_sized (s : CString) (dst : RecordedMemory UInt8) (hsize : 1 ≤ size) :
    ∃ dst', stringCopy dst s.bytes size true = some dst' ∧ CopiedSized s size dst dst' := by
  obtain ⟨dst', hcall, hholds, hwritten⟩ := copyFrom_spec (Nat.zero_le s.length) size dst
  rw [Nat.zero_add] at hcall hholds hwritten
  rw [stringCopy, if_neg (by omega)]
  simp only [Option.bind_eq_bind, Option.bind_some, hcall]
  by_cases hlt : s.length < size
  · -- the terminator was copied
    refine ⟨dst', by rw [decide_eq_true hlt, if_pos rfl], fun j hj => ?_,
      hwritten.mono le_rfl (by omega)⟩
    rw [CString.take_of_le (by omega)]
    exact hholds j (Nat.zero_le j) (by omega)
  · refine ⟨dst'.store (size - 1) 0, by rw [decide_eq_false hlt]; rfl, fun j hj => ?_,
      (hwritten.mono le_rfl (by omega)).trans
        (RecordedMemory.store_writtenIn (Nat.zero_le _) (by omega))⟩
    have hlen : (s.take (size - 1)).length = size - 1 := by
      rw [CString.length_take]
      omega
    rcases Nat.lt_or_ge j (size - 1) with hjlt | hjge
    · rw [CString.take_bytes_of_lt (by rw [hlen]; exact hjlt),
        RecordedMemory.store_cells_of_ne hjlt.ne]
      exact hholds j (Nat.zero_le j) (by omega)
    · obtain rfl : j = size - 1 := by omega
      rw [RecordedMemory.store_cells_self]
      exact CString.bytes_eq_zero_iff.mpr hlen.symm

/-- **Without one**, the characters are copied and the terminator is not.  The bound on the length
is the one of the first loop; within it the number of characters is found, and nothing else is
written, the NUL not either. -/
theorem stringCopy_default (s : CString) (dst : RecordedMemory UInt8) (hshort : s.length < 64)
    (terminate : Bool) :
    ∃ dst', stringCopy dst s.bytes 0 terminate = some dst' ∧ Holds s dst' 0 s.length ∧
      dst.WrittenIn dst' 0 s.length := by
  obtain ⟨dst', hcall, hholds, hwritten⟩ := copyFrom_spec (Nat.zero_le s.length) s.length dst
  rw [Nat.zero_add, Nat.min_eq_left (Nat.le_succ _)] at hholds hwritten
  rw [Nat.zero_add, decide_eq_false (lt_irrefl _)] at hcall
  have hmeasure := measureFrom_spec (n := 64) (Nat.zero_le s.length) (by omega) 0
  refine ⟨dst', ?_, hholds, hwritten⟩
  rw [stringCopy, if_pos rfl, hmeasure]
  simp only [Option.bind_eq_bind, Option.bind_some, hcall]
  rfl

/-- `stringCopy` with a size leaves what fits, and without one all of a short string. -/
structure CopiesStrings (s : CString) (dst : ℕ → UInt8) : Prop where
  sized : ∀ size, 1 ≤ size → ∃ dst', stringCopy (.untouched dst) s.bytes size true = some dst' ∧
    CopiedSized s size (.untouched dst) dst'
  whole : s.length < 64 → ∃ dst', stringCopy (.untouched dst) s.bytes 0 true = some dst' ∧
    CopiedWhole s (.untouched dst) dst'

/-- **`stringCopy`** copies strings, except that without a size the destination must have
had a NUL where the terminator belongs. -/
theorem copiesStrings_iff (s : CString) (dst : ℕ → UInt8) :
    CopiesStrings s dst ↔ (s.length < 64 → dst s.length = 0) := by
  constructor
  · intro h hshort
    obtain ⟨dst', hcall, hcopied⟩ := h.whole hshort
    obtain ⟨dst'', hcall', -, hwritten⟩ := stringCopy_default s (.untouched dst) hshort true
    obtain rfl : dst' = dst'' := Option.some.inj (hcall.symm.trans hcall')
    have hend := hcopied.holds s.length (Nat.zero_le _) (Nat.lt_succ_self _)
    rw [CString.bytes_at_length, hwritten.frame _ (Or.inr le_rfl)] at hend
    exact (Option.some.inj hend).symm
  · intro h
    refine ⟨fun size hsize => stringCopy_sized s _ hsize, fun hshort => ?_⟩
    obtain ⟨dst', hcall, hholds, hwritten⟩ := stringCopy_default s (.untouched dst) hshort true
    refine ⟨dst', hcall, fun j hj hlt => ?_, hwritten.mono le_rfl (Nat.le_succ _)⟩
    rcases Nat.lt_succ_iff_lt_or_eq.mp hlt with hlt | rfl
    · exact hholds j hj hlt
    · rw [CString.bytes_at_length, hwritten.frame _ (Or.inr le_rfl),
        RecordedMemory.untouched_cells, h hshort]

/-- The letter `a`, copied to memory full of ones. -/
theorem not_copiesStrings_letter : ¬ CopiesStrings ⟨[97], by decide⟩ (fun _ => 255) := by
  intro h
  obtain ⟨dst', hcall, hcopied⟩ := h.whole (by decide)
  have hend := hcopied.holds 1 (by decide) (by decide)
  have hcells : dst'.cells 1 = 255 := by
    obtain rfl := Option.some.inj hcall
    rfl
  rw [hcells] at hend
  exact absurd hend (by decide)

end StringCopy

end Tklb
