import Tklb.CString
import Tklb.Foundation.Loops
import Tklb.Random

/-!
# `uuid`

`generate` writes 36 characters drawn from `CharacterSet`, and dashes over those at
`DashPos`; `isValid` looks for dashes at `DashPos` and for lower case letters or digits
elsewhere, and stops at the first character that is neither.  So what `generate` writes is
accepted (`isValid_written`), and no string is read behind its terminator, which is neither
a dash nor a letter (`isValid_isSome`).

`isValid` accepts the strings in the layout that `DashPos` describes (`isValid_bytes_iff`).
That is not the layout of a UUID: 8-4-4-4-12 has its dashes at the indices 8, 13, 18 and 23,
and `DashPos` is one behind.  No string is in both layouts (`Layout.disjoint`).

The characters of the two overloads for arrays are those of a list here, read with `[·]?`.

### Main results

* `isValid_isSome` and `isValid_bytes_iff` — for every string: what `isValid` reads, and what it
  accepts.
* `isValid_written` — for every state of the generator.
* `validatesCanonical_iff` — the strings about which it is right.
* `states_cycle` — the states of the generator, and the calls of `generate` that start in
  different ones.

### What is load-bearing

The layout has its dashes as a parameter, so the one that is wanted and the one that is accepted
are two instances, and that they have no string in common is one character: what is a dash in
the one is a letter or a digit in the other.
-/

namespace Tklb

open Foundation

namespace Uuid

/-- `DashPos` -/
def dashPos : List ℕ := [9, 14, 19, 24]

/-- `CharacterSet`, without its terminator. -/
def characterSet : List UInt8 :=
  "abcdefghijklmnopqrstuvwxyz0123456789".toList.map Char.toUInt8

/-- `UUIDLength` -/
def uuidLength : ℕ := 36

/-- `'-'` -/
def dash : UInt8 := Char.toUInt8 '-'

/-! ### `generate` -/

/-- `CharacterSet[n % (sizeof(CharacterSet) - 1)]` -/
def character (n : ℕ) : UInt8 :=
  characterSet.get ⟨n % characterSet.length, Nat.mod_lt _ (by decide)⟩

variable {w : ℕ}

/-- The first loop of `generate`: the generator and the characters. -/
def drawCharacters (generator : Random w) (uuid : ℕ → UInt8) : Random w × (ℕ → UInt8) :=
  countUp uuidLength (fun i (s : Random w × (ℕ → UInt8)) =>
    let (n, generator) := s.1.next
    (generator, Function.update s.2 i (character n.toNat))) (generator, uuid)

/-- The second loop of `generate`. -/
def putDashes (uuid : ℕ → UInt8) : ℕ → UInt8 :=
  dashPos.foldl (fun uuid i => Function.update uuid i dash) uuid

/-- `generate`, with the generator before and after; `uuid` is the memory of the string. -/
def generate (generator : Random w) (uuid : ℕ → UInt8) (ensureEscaped : Bool) :
    Random w × (ℕ → UInt8) :=
  let (generator, uuid) := drawCharacters generator uuid
  let uuid := putDashes uuid
  (generator, if ensureEscaped then Function.update uuid uuidLength 0 else uuid)

/-- The string `generate` writes. -/
def written (ensureEscaped : Bool) (uuid : ℕ → UInt8) : List UInt8 :=
  (List.range (if ensureEscaped then uuidLength + 1 else uuidLength)).map uuid

/-! ### `isValid` -/

/-- `shouldBeDash` -/
def shouldBeDash (i : ℕ) : Bool := dashPos.any (· == i)

/-- The characters `isValid` takes for valid ones: lower case letters and digits. -/
def lowerOrDigit (c : UInt8) : Bool :=
  (Char.toUInt8 'a' ≤ c && c ≤ Char.toUInt8 'z') || (Char.toUInt8 '0' ≤ c && c ≤ Char.toUInt8 '9')

/-- The loop of `isValid` from `i` on, with `n` characters to go. -/
def isValidFrom (uuid : List UInt8) : ℕ → ℕ → Option Bool
  | 0, _ => some true
  | n + 1, i => do
      let c ← uuid[i]?
      if shouldBeDash i then
        if c ≠ dash then some false else isValidFrom uuid n (i + 1)
      else if lowerOrDigit c then isValidFrom uuid n (i + 1)
      else some false

/-- `isValid` -/
def isValid (uuid : List UInt8) (ensureEscaped : Bool) : Option Bool := do
  if ← isValidFrom uuid uuidLength 0 then
    if ensureEscaped then
      let c ← uuid[uuidLength]?
      some (c == 0)
    else some true
  else some false

/-! ### Layouts -/

/-- A character that may stand at index `i`.  Which indices are for dashes is a parameter, so the
layout that is wanted and the one that is checked are both instances. -/
def Fits (dashes : List ℕ) (i : ℕ) (c : UInt8) : Prop :=
  if i ∈ dashes then c = dash else lowerOrDigit c = true

instance (dashes : List ℕ) (i : ℕ) (c : UInt8) : Decidable (Fits dashes i c) :=
  inferInstanceAs (Decidable (ite _ _ _))

/-- The string has 36 characters: dashes at the indices `dashes`, lower case letters or
digits elsewhere. -/
def Layout (dashes : List ℕ) (s : CString) : Prop :=
  s.length = uuidLength ∧ ∀ i < uuidLength, ∀ c ∈ s.chars[i]?, Fits dashes i c

instance (dashes : List ℕ) (s : CString) : Decidable (Layout dashes s) :=
  inferInstanceAs (Decidable (_ ∧ _))

/-- The canonical layout 8-4-4-4-12. -/
def Canonical (s : CString) : Prop := Layout [8, 13, 18, 23] s

instance (s : CString) : Decidable (Canonical s) := inferInstanceAs (Decidable (Layout _ s))

theorem fits_of_mem {dashes : List ℕ} {i : ℕ} (hi : i ∈ dashes) (c : UInt8) :
    Fits dashes i c ↔ c = dash := by
  rw [Fits, if_pos hi]

theorem fits_of_not_mem {dashes : List ℕ} {i : ℕ} (hi : i ∉ dashes) (c : UInt8) :
    Fits dashes i c ↔ lowerOrDigit c = true := by
  rw [Fits, if_neg hi]

theorem Layout.at {dashes : List ℕ} {s : CString} (h : Layout dashes s) {i : ℕ}
    (hi : i < uuidLength) : ∃ c, s.bytes[i]? = some c ∧ Fits dashes i c := by
  have hlt : i < s.length := by rw [h.1]; exact hi
  obtain ⟨c, hc⟩ := CString.isSome_bytes hlt.le
  refine ⟨c, hc, h.2 i hi c ?_⟩
  rwa [← CString.bytes_of_lt hlt]

/-- A string has its dashes in one place only. -/
theorem Layout.disjoint {dashes dashes' : List ℕ} {s : CString} (h : Layout dashes s)
    (h' : Layout dashes' s) {i : ℕ} (hi : i < uuidLength) (hmem : i ∈ dashes) : i ∈ dashes' := by
  obtain ⟨c, hc, hfits⟩ := h.at hi
  obtain ⟨c', hc', hfits'⟩ := h'.at hi
  obtain rfl : c = c' := Option.some.inj (hc.symm.trans hc')
  by_contra hnot
  rw [fits_of_mem hmem] at hfits
  rw [fits_of_not_mem hnot, hfits] at hfits'
  exact absurd hfits' (by decide)

theorem not_fits_zero (dashes : List ℕ) (i : ℕ) : ¬ Fits dashes i 0 := by
  unfold Fits
  split <;> decide

theorem shouldBeDash_iff {i : ℕ} : shouldBeDash i = true ↔ i ∈ dashPos := by
  simp [shouldBeDash]

/-! ### What is accepted -/

variable {uuid : List UInt8} {s : CString} {n i : ℕ}

/-- One iteration goes on if the character fits, and ends the loop otherwise. -/
theorem isValidFrom_succ {c : UInt8} (hc : uuid[i]? = some c) :
    isValidFrom uuid (n + 1) i =
      if Fits dashPos i c then isValidFrom uuid n (i + 1) else some false := by
  simp only [isValidFrom, hc, Option.bind_eq_bind, Option.bind_some, shouldBeDash_iff]
  by_cases hdash : i ∈ dashPos
  · simp only [if_pos hdash, fits_of_mem hdash, ne_eq, ite_not]
  · simp only [if_neg hdash, fits_of_not_mem hdash]

/-- **The loop** accepts if every character it passes is there and fits. -/
theorem isValidFrom_iff : isValidFrom uuid n i = some true ↔
    ∀ j, i ≤ j → j < i + n → ∃ c, uuid[j]? = some c ∧ Fits dashPos j c := by
  induction n generalizing i with
  | zero => exact iff_of_true rfl fun j hij hj => by omega
  | succ n ih =>
      have hrest : (∀ j, i ≤ j → j < i + (n + 1) → ∃ c, uuid[j]? = some c ∧ Fits dashPos j c) ↔
          (∃ c, uuid[i]? = some c ∧ Fits dashPos i c) ∧
            ∀ j, i + 1 ≤ j → j < i + 1 + n → ∃ c, uuid[j]? = some c ∧ Fits dashPos j c := by
        constructor
        · intro h
          exact ⟨h i le_rfl (by omega), fun j hij hj => h j (by omega) (by omega)⟩
        · rintro ⟨hfirst, h⟩ j hij hj
          rcases hij.eq_or_lt with rfl | hlt
          · exact hfirst
          · exact h j hlt (by omega)
      rw [hrest, ← ih]
      cases hc : uuid[i]? with
      | none => simp [isValidFrom, hc]
      | some c =>
          rw [isValidFrom_succ hc]
          by_cases hfits : Fits dashPos i c
          · simp [hfits]
          · simp [hfits]

/-- The loop stops at the terminator. -/
theorem isValidFrom_isSome (hi : i ≤ s.length) : (isValidFrom s.bytes n i).isSome := by
  induction n generalizing i with
  | zero => rfl
  | succ n ih =>
      obtain ⟨c, hc⟩ := CString.isSome_bytes hi
      rw [isValidFrom_succ hc]
      split
      · rename_i hfits
        apply ih
        apply Nat.lt_of_le_of_ne hi
        rintro rfl
        obtain rfl : 0 = c := Option.some.inj (s.bytes_at_length.symm.trans hc)
        exact not_fits_zero dashPos _ hfits
      · rfl

/-- The characters that are there and fit are those of a long enough string. -/
theorem le_length_of_fits
    (h : ∀ j < uuidLength, ∃ c, s.bytes[j]? = some c ∧ Fits dashPos j c) :
    uuidLength ≤ s.length := by
  by_contra hlt
  obtain ⟨c, hc, hfits⟩ := h s.length (Nat.lt_of_not_le hlt)
  obtain rfl : 0 = c := Option.some.inj (s.bytes_at_length.symm.trans hc)
  exact not_fits_zero dashPos _ hfits

theorem isValidFrom_zero_iff : isValidFrom uuid uuidLength 0 = some true ↔
    ∀ j < uuidLength, ∃ c, uuid[j]? = some c ∧ Fits dashPos j c := by
  rw [isValidFrom_iff, Nat.zero_add]
  exact ⟨fun h j hj => h j (Nat.zero_le j) hj, fun h j _ hj => h j hj⟩

/-- **No byte behind the terminator is read.**  The terminator is not a valid character at any
index, so the loop stops there at the latest, whether the string is shorter or longer than a UUID.
-/
theorem isValid_isSome (s : CString) : (isValid s.bytes true).isSome := by
  obtain ⟨b, hb⟩ := Option.isSome_iff_exists.mp
    (isValidFrom_isSome (n := uuidLength) (Nat.zero_le s.length))
  cases b with
  | false => simp [isValid, hb]
  | true =>
      obtain ⟨c, hc⟩ := CString.isSome_bytes (le_length_of_fits (isValidFrom_zero_iff.mp hb))
      simp [isValid, hb, hc]

/-- **`isValid`** accepts the strings in the layout of `DashPos`.  The letters are lower case, all
of the alphabet and not only the hexadecimal ones, and the string must end behind the last
character. -/
theorem isValid_bytes_iff (s : CString) :
    isValid s.bytes true = some true ↔ Layout dashPos s := by
  constructor
  · intro h
    obtain ⟨b, hb⟩ := Option.isSome_iff_exists.mp
      (isValidFrom_isSome (s := s) (n := uuidLength) (Nat.zero_le s.length))
    cases b with
    | false => simp [isValid, hb] at h
    | true =>
        have hfits := isValidFrom_zero_iff.mp hb
        have hend : s.bytes[uuidLength]? = some 0 := by
          cases hc : s.bytes[uuidLength]? with
          | none => simp [isValid, hb, hc] at h
          | some c =>
              simp only [isValid, hb, hc, Option.bind_eq_bind, Option.bind_some, if_true,
                Option.some.injEq, beq_iff_eq] at h
              rw [h]
        have hlen := CString.bytes_eq_zero_iff.mp hend
        refine ⟨hlen.symm, fun i hi c hc => ?_⟩
        obtain ⟨c', hc', hfit⟩ := hfits i hi
        rw [CString.bytes_of_lt (by rw [← hlen]; exact hi)] at hc'
        obtain rfl : c = c' := Option.some.inj (hc.symm.trans hc')
        exact hfit
  · intro h
    have hloop := isValidFrom_zero_iff.mpr fun j hj => h.at hj
    have hend : s.bytes[uuidLength]? = some 0 := CString.bytes_eq_zero_iff.mpr h.1.symm
    simp [isValid, hloop, hend]

/-! ### What is generated -/

theorem lowerOrDigit_character (n : ℕ) : lowerOrDigit (character n) = true := by
  have hall : ∀ c ∈ characterSet, lowerOrDigit c = true := by decide +kernel
  exact hall _ (List.get_mem _ _)

/-- `generate` draws `UUIDLength` numbers. -/
theorem drawCharacters_fst (generator : Random w) (uuid : ℕ → UInt8) :
    (drawCharacters generator uuid).1 = Random.after uuidLength generator := by
  unfold drawCharacters
  refine countUp_invariant
    (fun i (s : Random w × (ℕ → UInt8)) => s.1 = Random.after i generator) rfl ?_
  intro i _ s hs
  rw [Random.after_succ, ← hs]

theorem drawCharacters_snd (generator : Random w) (uuid : ℕ → UInt8) {j : ℕ}
    (hj : j < uuidLength) : lowerOrDigit ((drawCharacters generator uuid).2 j) = true := by
  unfold drawCharacters
  refine countUp_invariant (fun i (s : Random w × (ℕ → UInt8)) =>
    j < i → lowerOrDigit (s.2 j) = true) (fun hlt => absurd hlt (Nat.not_lt_zero j)) ?_ hj
  intro i _ s hs hlt
  by_cases hji : j = i
  · subst hji
    simp [lowerOrDigit_character]
  · simp only [Function.update_of_ne hji]
    apply hs
    omega

/-- Writing one character to several places. -/
theorem foldl_update (l : List ℕ) (c : UInt8) (uuid : ℕ → UInt8) (j : ℕ) :
    l.foldl (fun uuid i => Function.update uuid i c) uuid j = if j ∈ l then c else uuid j := by
  induction l generalizing uuid with
  | nil => simp
  | cons i l ih =>
      rw [List.foldl_cons, ih]
      by_cases hj : j ∈ l
      · simp [hj]
      · by_cases hji : j = i
        · subst hji
          simp [hj]
        · simp [hj, hji]

@[simp] theorem generate_fst (generator : Random w) (uuid : ℕ → UInt8) (ensureEscaped : Bool) :
    (generate generator uuid ensureEscaped).1 = Random.after uuidLength generator :=
  drawCharacters_fst generator uuid

/-- The characters `generate` writes fit. -/
theorem generate_fits (generator : Random w) (uuid : ℕ → UInt8) (ensureEscaped : Bool) {j : ℕ}
    (hj : j < uuidLength) : Fits dashPos j ((generate generator uuid ensureEscaped).2 j) := by
  have hchar : (generate generator uuid ensureEscaped).2 j =
      putDashes (drawCharacters generator uuid).2 j := by
    cases ensureEscaped with
    | false => rfl
    | true => exact Function.update_of_ne hj.ne _ _
  rw [hchar, putDashes, foldl_update]
  by_cases hdash : j ∈ dashPos
  · rw [fits_of_mem hdash, if_pos hdash]
  · rw [fits_of_not_mem hdash, if_neg hdash]
    exact drawCharacters_snd generator uuid hj

theorem generate_escaped (generator : Random w) (uuid : ℕ → UInt8) :
    (generate generator uuid true).2 uuidLength = 0 := by
  simp [generate]

theorem written_of_lt (ensureEscaped : Bool) (uuid : ℕ → UInt8) {j : ℕ}
    (hj : j < if ensureEscaped then uuidLength + 1 else uuidLength) :
    (written ensureEscaped uuid)[j]? = some (uuid j) := by
  simp [written, hj]

/-- **What `generate` writes is accepted**, with the terminator and without.  This holds for every
state of the generator and whatever was in the memory before, so the two functions agree with each
other, though not with the format. -/
theorem isValid_written (generator : Random w) (uuid : ℕ → UInt8) (ensureEscaped : Bool) :
    isValid (written ensureEscaped (generate generator uuid ensureEscaped).2) ensureEscaped =
      some true := by
  have hloop := isValidFrom_zero_iff.mpr fun j hj =>
    ⟨_, written_of_lt ensureEscaped _ (by split <;> omega),
      generate_fits generator uuid ensureEscaped hj⟩
  cases ensureEscaped with
  | false => simp [isValid, hloop]
  | true =>
      have hend := written_of_lt true (generate generator uuid true).2 (Nat.lt_succ_self uuidLength)
      rw [generate_escaped] at hend
      simp [isValid, hloop, hend]

/-! ### The format -/

/-- `isValid` stays in the string, and accepts it if it is in the canonical layout, and only
then. -/
def ValidatesCanonical (s : CString) : Prop :=
  (isValid s.bytes true).isSome ∧ (isValid s.bytes true = some true ↔ Canonical s)

instance (s : CString) : Decidable (ValidatesCanonical s) :=
  inferInstanceAs (Decidable (_ ∧ (_ ↔ _)))

/-- **`isValid` on UUIDs.**  It is right about the strings that are neither in the canonical
layout, which it rejects, nor in the one of `DashPos`, which it accepts; what `generate`
writes is in the latter. -/
theorem validatesCanonical_iff (s : CString) :
    (ValidatesCanonical s ↔ ¬ Canonical s ∧ ¬ Layout dashPos s) ∧
    ∀ {w : ℕ} (generator : Random w) (uuid : ℕ → UInt8) (ensureEscaped : Bool),
      isValid (written ensureEscaped (generate generator uuid ensureEscaped).2) ensureEscaped =
        some true := by
  refine ⟨?_, fun generator uuid ensureEscaped =>
    isValid_written generator uuid ensureEscaped⟩
  rw [ValidatesCanonical, isValid_bytes_iff, and_iff_right (isValid_isSome s)]
  constructor
  · intro hsame
    have hnot : ¬ Canonical s := fun hcanonical => by
      have hmem := hcanonical.disjoint (hsame.mpr hcanonical) (i := 8) (by decide) (by decide)
      exact absurd hmem (by decide)
    exact ⟨hnot, fun hlayout => hnot (hsame.mp hlayout)⟩
  · rintro ⟨hnot, hnot'⟩
    exact iff_of_false hnot' hnot

/-- The UUID of zeros is rejected. -/
theorem not_validatesCanonical_zeros : ¬ ValidatesCanonical
    ⟨"00000000-0000-0000-0000-000000000000".toList.map Char.toUInt8, by decide⟩ := by
  decide +kernel

/-! ### Consecutive calls -/

/-- The generator before call number `k` of `generate`, for any memory and flag of the
calls. -/
def generatorBefore (generator : Random w) (calls : ℕ → (ℕ → UInt8) × Bool) : ℕ → Random w
  | 0 => generator
  | k + 1 => (generate (generatorBefore generator calls k) (calls k).1 (calls k).2).1

theorem generatorBefore_eq (generator : Random w) (calls : ℕ → (ℕ → UInt8) × Bool) (k : ℕ) :
    generatorBefore generator calls k = Random.after (uuidLength * k) generator := by
  induction k with
  | zero => rfl
  | succ k ih =>
      rw [generatorBefore, generate_fst, ih, ← Random.after_add, Nat.mul_succ, Nat.add_comm]

/-- Two calls that start from the same generator are a multiple of `2 ^ 29` calls apart. -/
theorem dvd_of_generatorBefore_eq (hw : 32 ≤ w) {generator : Random w}
    {calls : ℕ → (ℕ → UInt8) × Bool} {k d : ℕ}
    (h : generatorBefore generator calls (k + d) = generatorBefore generator calls k) :
    2 ^ 29 ∣ d := by
  rw [generatorBefore_eq, generatorBefore_eq, Nat.mul_add] at h
  have hdvd := Random.dvd_of_after_eq hw h
  rw [uuidLength] at hdvd
  omega

/-- **The generator.**  After the first call its states stay below `2 ^ 31` and go through all
these numbers, each once, before they return; and any `2 ^ 29` consecutive calls of
`generate` start from different states. -/
theorem states_cycle (hw : 32 ≤ w) (seed : Random w) :
    (∀ n, 1 ≤ n → (Random.after n seed).mState.toNat < 2 ^ 31 ∧
      Random.after (n + 2 ^ 31) seed = Random.after n seed ∧
      ∀ v < 2 ^ 31, ∃! i, i < 2 ^ 31 ∧ (Random.after (n + i) seed).mState.toNat = v) ∧
    ∀ (calls : ℕ → (ℕ → UInt8) × Bool) (first i j : ℕ), i < 2 ^ 29 → j < 2 ^ 29 →
      generatorBefore seed calls (first + i) = generatorBefore seed calls (first + j) →
      i = j := by
  refine ⟨fun n hn => ?_, fun calls first i j hi hj h => ?_⟩
  · have hlt := Random.after_lt hw hn seed
    refine ⟨hlt, ?_, fun v hv => ?_⟩
    · rw [Nat.add_comm, Random.after_add]
      exact Random.after_period hw hlt
    · have hunique := Random.existsUnique_after hw hlt hv
      simpa only [← Random.after_add, Nat.add_comm] using hunique
  · rcases Nat.le_total i j with hle | hle
    · obtain ⟨d, rfl⟩ := Nat.exists_eq_add_of_le hle
      rw [← Nat.add_assoc] at h
      have := dvd_of_generatorBefore_eq hw h.symm
      omega
    · obtain ⟨d, rfl⟩ := Nat.exists_eq_add_of_le hle
      rw [← Nat.add_assoc] at h
      have := dvd_of_generatorBefore_eq hw h
      omega

/-- The seed of `generate`, where `unsigned long` has 32 bits and where it has 64. -/
theorem states_cycle_generate :
    (∃! i, i < 2 ^ 31 ∧ (Random.after (1 + i) (⟨123⟩ : Random 32)).mState.toNat = 0) ∧
    ∃! i, i < 2 ^ 31 ∧ (Random.after (1 + i) (⟨123⟩ : Random 64)).mState.toNat = 0 :=
  ⟨((states_cycle le_rfl ⟨123⟩).1 1 le_rfl).2.2 0 (Nat.two_pow_pos 31),
    ((states_cycle (by omega) ⟨123⟩).1 1 le_rfl).2.2 0 (Nat.two_pow_pos 31)⟩

end Uuid

end Tklb
