import Tklb.CString
import Tklb.Foundation.Suffixes

/-!
# `tklb_print_path`

The path of the source file is cut down to the file name, which is put in a text with the
level, the line and the format of the caller; this text is then itself the format of the
arguments of the caller, and what comes out is the message.

### The file name

The loop keeps the index of the last delimiter in `lastDelimiter`, which starts with 0, and
the path is moved one behind it.  Where there is no delimiter 0 is not the index of one: the
first character is lost, and the empty path is read behind its terminator
(`stripsTo_of_no_delimiter`).  So the name is right if and only if the path has a delimiter
(`stripsFile_iff`); of a long path the first 1024 characters are looked at
(`stripsFile_iff_seen`).

### The message

The text is made by `stbsp_snprintf`, whose directives `%s` and `%i` are computed, and the
message by `stbsp_vsnprintf`.  The latter copies characters, also those of the file name, until
it meets a `%`; what it makes of a directive depends on the arguments of the caller and is a
parameter (`Directives`), except for the characters it gives no meaning, which it copies
without the `%`.  So a `%` in the file name is not a character of the name but a directive:
`a%%b.cpp` is printed as `a%b.cpp`.

`PrintsName` says that the name stands in the message whatever the caller's format and
arguments are, `namesFile_iff` when this is the name of the file: at the levels for which there
is a text, for the paths with a delimiter, if the name has no `%` among the characters that
fit in the buffer.  At any other level the buffer is not written, and what it held before is
printed (`printPath_of_no_text`).  Both texts are cut to the size of the buffers.
-/

namespace Tklb

open Foundation

namespace Logger

/-- The characters of a string literal. -/
def text (s : String) : List UInt8 := s.toList.map Char.toUInt8

/-! ### The formats -/

/-- What is put in a format. -/
inductive Argument
  /-- A `char*`: the memory from there on. -/
  | string (memory : List UInt8)
  | int (value : ℤ)

def percent : UInt8 := Char.toUInt8 '%'

/-- A number, printed with `%i`. -/
def decimal (value : ℤ) : List UInt8 :=
  (if value < 0 then text "-" else []) ++ (Nat.toDigits 10 value.natAbs).map Char.toUInt8

/-- The directives `%s` and `%i`. -/
def convert (directive : UInt8) : Argument → Option (List UInt8)
  | .string memory => if directive = Char.toUInt8 's' then CString.read memory else none
  | .int value => if directive = Char.toUInt8 'i' then some (decimal value) else none

/-- The text for a format with these directives. -/
def formatted : List UInt8 → List Argument → Option (List UInt8)
  | [], _ => some []
  | c :: format, args =>
      if c = percent then
        match format, args with
        | directive :: format, arg :: args => do
            let chars ← convert directive arg
            let rest ← formatted format args
            some (chars ++ rest)
        | _, _ => none
      else do
        let rest ← formatted format args
        some (c :: rest)

/-- `stbsp_snprintf` -/
def snprintf (count : ℕ) (format : List UInt8) (args : List Argument) : Option (List UInt8) :=
  (formatted format args).map (·.take (count - 1))

/-- The characters with a meaning behind a `%`: flags, width and precision, sizes, types. -/
def known : List UInt8 := text "-+ #'$_0123456789*.hljztIscnAaGgEefBbopXxuid"

/-- What becomes of the directives with the arguments of the caller: the characters for the
directive that the format starts with behind its `%`, and how many characters of the format
it has.  A character without a meaning is copied. -/
structure Directives where
  convert : List UInt8 → Option (List UInt8 × ℕ)
  unknown : ∀ c format, c ∉ known → convert (c :: format) = some ([c], 1)

/-- The text for a format, of which `skip` characters belong to the last directive. -/
def Directives.formatted (d : Directives) : ℕ → List UInt8 → Option (List UInt8)
  | _, [] => some []
  | skip + 1, _ :: format => d.formatted skip format
  | 0, c :: format =>
      if c = percent then do
        let (chars, skip) ← d.convert format
        let rest ← d.formatted skip format
        some (chars ++ rest)
      else (d.formatted 0 format).map (c :: ·)

/-- `stbsp_vsnprintf` -/
def vsnprintf (d : Directives) (count : ℕ) (format : List UInt8) : Option (List UInt8) :=
  (d.formatted 0 format).map (·.take (count - 1))

/-! ### `tklb_print_path` -/

def bufferSize : ℕ := 1024

/-- A slash or a backslash. -/
def IsDelimiter (c : UInt8) : Prop := c = 92 ∨ c = 47

instance (c : UInt8) : Decidable (IsDelimiter c) := inferInstanceAs (Decidable (_ ∨ _))

/-- The loop from `i` on, with `n` characters to go. -/
def lastDelimiterFrom (path : List UInt8) : ℕ → ℕ → ℕ → Option ℕ
  | 0, _, lastDelimiter => some lastDelimiter
  | n + 1, i, lastDelimiter => do
      let c ← path[i]?
      if c = 0 then some lastDelimiter
      else lastDelimiterFrom path n (i + 1) (if IsDelimiter c then i else lastDelimiter)

/-- `path += lastDelimiter + 1` -/
def stripPath (path : List UInt8) : Option (List UInt8) :=
  (lastDelimiterFrom path bufferSize 0 0).map fun lastDelimiter => path.drop (lastDelimiter + 1)

def levelFormat : ℤ → Option (List UInt8)
  | 0 => some (text "DEBUG | %s:%i \t| %s")
  | 1 => some (text " INFO | %s:%i \t| %s")
  | 2 => some (text " WARN | %s:%i \t| %s")
  | 3 => some (text "ERROR | %s:%i \t| %s")
  | 4 => some (text " CRIT | %s:%i \t| %s")
  | _ => none

/-- What a call leaves: the text in `buffer`, and what `tklb_print` was called with. -/
structure Printed where
  buffer : List UInt8
  message : Option (ℤ × List UInt8)

/-- `tklb_print_path`; `d` are the directives with the arguments of the caller. -/
def printPath (d : Directives) (buffer : List UInt8) (level : ℤ) (path : Option (List UInt8))
    (line : ℤ) (format : Option (List UInt8)) : Option Printed :=
  match path, format with
  | some path, some format => do
      let path ← stripPath path
      let buffer ← match levelFormat level with
        | some message => snprintf bufferSize message [.string path, .int line, .string format]
        | none => some buffer
      let message ← vsnprintf d bufferSize buffer
      some ⟨buffer, some (level, message)⟩
  | _, _ => some ⟨buffer, none⟩

variable {path : CString} {name : List UInt8} {i d n : ℕ}

/-! ### The loop -/

/-- There is a delimiter at index `i`. -/
def DelimiterAt (path : CString) (i : ℕ) : Prop := ∃ c, path.chars[i]? = some c ∧ IsDelimiter c

/-- `lastDelimiter` is `d` when the loop has come to `i`. -/
inductive Last (path : CString) : ℕ → ℕ → Prop
  | nowhere {i : ℕ} : (∀ j < i, ¬ DelimiterAt path j) → Last path 0 i
  | found {d i : ℕ} : d < i → DelimiterAt path d →
      (∀ j, d < j → j < i → ¬ DelimiterAt path j) → Last path d i

theorem delimiterAt_iff {c : UInt8} (hc : path.chars[i]? = some c) :
    DelimiterAt path i ↔ IsDelimiter c := by
  constructor
  · rintro ⟨c', hc', hdelim⟩
    obtain rfl := Option.some.inj (hc.symm.trans hc')
    exact hdelim
  · exact fun hdelim => ⟨c, hc, hdelim⟩

/-- One character further. -/
theorem Last.step (h : Last path d i) {c : UInt8} (hc : path.chars[i]? = some c) :
    Last path (if IsDelimiter c then i else d) (i + 1) := by
  split
  · rename_i hdelim
    refine .found (Nat.lt_succ_self i) ((delimiterAt_iff hc).mpr hdelim) fun j hij hj => ?_
    omega
  · rename_i hdelim
    have hnot : ¬ DelimiterAt path i := mt (delimiterAt_iff hc).mp hdelim
    cases h with
    | nowhere hnone => exact .nowhere (Nat.forall_lt_succ_right.mpr ⟨hnone, hnot⟩)
    | found hd hlast hnone =>
        refine .found (Nat.lt_succ_of_lt hd) hlast fun j hdj hj => ?_
        rcases Nat.lt_succ_iff_lt_or_eq.mp hj with hlt | rfl
        · exact hnone j hdj hlt
        · exact hnot

/-- **The loop** reads up to the terminator at most, and finds the last delimiter among the
characters it looks at. -/
theorem lastDelimiterFrom_spec (h : Last path d i) (hi : i ≤ path.length) (n : ℕ) :
    ∃ d', lastDelimiterFrom path.bytes n i d = some d' ∧
      Last path d' (min (i + n) path.length) := by
  induction n generalizing i d with
  | zero => exact ⟨d, rfl, by rwa [Nat.add_zero, Nat.min_eq_left hi]⟩
  | succ n ih =>
      rcases CString.bytes_cases hi with ⟨rfl, hc⟩ | ⟨c, hne, hlt, hc⟩
      · rw [lastDelimiterFrom, hc, Option.bind_eq_bind, Option.bind_some, if_pos rfl]
        exact ⟨d, rfl, by rwa [Nat.min_eq_right (Nat.le_add_right _ _)]⟩
      · rw [lastDelimiterFrom, hc, Option.bind_eq_bind, Option.bind_some, if_neg hne]
        rw [CString.bytes_of_lt hlt] at hc
        obtain ⟨d', hcall, hlast⟩ := ih (h.step hc) hlt
        exact ⟨d', hcall, by rwa [Nat.add_right_comm, Nat.add_assoc] at hlast⟩

/-- The path is moved behind the last delimiter of the first 1024 characters. -/
theorem exists_stripPath (path : CString) :
    ∃ d, stripPath path.bytes = some (path.bytes.drop (d + 1)) ∧
      Last path d (min bufferSize path.length) := by
  obtain ⟨d, hcall, hlast⟩ :=
    lastDelimiterFrom_spec (.nowhere fun j hj => absurd hj (Nat.not_lt_zero j))
      (Nat.zero_le path.length) bufferSize
  rw [Nat.zero_add] at hlast
  exact ⟨d, by rw [stripPath, hcall, Option.map_some], hlast⟩

/-! ### The message -/

/-- What stands in front of the file name. -/
def levelTag : ℤ → Option (List UInt8)
  | 0 => some (text "DEBUG | ")
  | 1 => some (text " INFO | ")
  | 2 => some (text " WARN | ")
  | 3 => some (text "ERROR | ")
  | 4 => some (text " CRIT | ")
  | _ => none

/-- The message with the file name `name`, up to the text of the caller. -/
def headText (tag name : List UInt8) (line : ℤ) : List UInt8 :=
  tag ++ (name ++ (text ":" ++ (decimal line ++ text " \t| ")))

/-- How many characters of the file name fit in a buffer. -/
def nameRoom : ℕ := 1015

theorem length_levelTag {level : ℤ} {tag : List UInt8} (h : levelTag level = some tag) :
    tag.length + nameRoom = bufferSize - 1 := by
  unfold levelTag at h
  split at h
  case h_6 => cases h
  all_goals
    obtain rfl := Option.some.inj h
    decide

theorem isSome_levelTag {level : ℤ} : (levelTag level).isSome ↔ 0 ≤ level ∧ level ≤ 4 := by
  constructor
  · intro h
    unfold levelTag at h
    split at h
    case h_6 => exact absurd h Bool.false_ne_true
    all_goals exact ⟨by decide, by decide⟩
  · rintro ⟨hlo, hhi⟩
    obtain rfl | rfl | rfl | rfl | rfl :
        level = 0 ∨ level = 1 ∨ level = 2 ∨ level = 3 ∨ level = 4 := by omega
    all_goals rfl

theorem levelFormat_eq {level : ℤ} {tag : List UInt8} (h : levelTag level = some tag) :
    percent ∉ tag ∧ levelFormat level = some (tag ++ text "%s:%i \t| %s") := by
  unfold levelTag at h
  split at h
  case h_6 => cases h
  all_goals
    obtain rfl := Option.some.inj h
    decide

theorem levelFormat_eq_none {level : ℤ} (h : levelTag level = none) :
    levelFormat level = none := by
  unfold levelTag at h
  split at h
  case h_6 =>
    unfold levelFormat
    split
    case h_6 => rfl
    all_goals contradiction
  all_goals cases h

theorem formatted_char {c : UInt8} (h : c ≠ percent) (format : List UInt8)
    (args : List Argument) :
    formatted (c :: format) args = (formatted format args).map (c :: ·) := by
  rw [formatted.eq_def]
  dsimp only
  rw [if_neg h, Option.map_eq_bind]
  rfl

/-- Text without a directive is copied. -/
theorem formatted_append {chars : List UInt8} (h : percent ∉ chars) (format : List UInt8)
    (args : List Argument) :
    formatted (chars ++ format) args = (formatted format args).map (chars ++ ·) := by
  induction chars with
  | nil => exact Option.map_id'.symm
  | cons c chars ih =>
      rw [List.mem_cons, not_or] at h
      rw [List.cons_append, formatted_char (Ne.symm h.1), ih h.2, Option.map_map]
      rfl

theorem formatted_directive {directive : UInt8} {arg : Argument} {chars : List UInt8}
    (h : convert directive arg = some chars) (format : List UInt8) (args : List Argument) :
    formatted (percent :: directive :: format) (arg :: args) =
      (formatted format args).map (chars ++ ·) := by
  rw [formatted, if_pos rfl, h, Option.map_eq_bind]
  rfl

/-- The format of the messages. -/
theorem formatted_message {tag memory name : List UInt8} (htag : percent ∉ tag)
    (hname : CString.read memory = some name) (line : ℤ) (format : CString) :
    formatted (tag ++ text "%s:%i \t| %s") [.string memory, .int line, .string format.bytes] =
      some (headText tag name line ++ format.chars) := by
  have hlayout : text "%s:%i \t| %s" = percent :: Char.toUInt8 's' :: (text ":" ++
      percent :: Char.toUInt8 'i' :: (text " \t| " ++ [percent, Char.toUInt8 's'])) := by
    decide
  have hstring : convert (Char.toUInt8 's') (.string memory) = some name := hname
  have hformat : convert (Char.toUInt8 's') (.string format.bytes) = some format.chars :=
    format.read_bytes
  rw [hlayout, formatted_append htag, formatted_directive hstring,
    formatted_append (by decide : percent ∉ text ":"),
    formatted_directive (rfl : convert (Char.toUInt8 'i') (.int line) = some (decimal line)),
    formatted_append (by decide : percent ∉ text " \t| "), formatted_directive hformat]
  simp only [formatted, Option.map_some, headText, List.append_assoc, List.append_nil]

/-- A digit is no directive. -/
theorem toUInt8_ne_percent {c : Char} (h : c.isDigit = true) : c.toUInt8 ≠ percent := by
  intro heq
  obtain ⟨hge, hle⟩ : 48 ≤ c.val.toNat ∧ c.val.toNat ≤ 57 := Char.isDigit_iff_toNat.mp h
  have hnat := congrArg UInt8.toNat heq
  rw [Char.toUInt8, UInt32.toNat_toUInt8] at hnat
  have hpercent : c.val.toNat % 256 = 37 := hnat
  omega

theorem percent_notMem_decimal (value : ℤ) : percent ∉ decimal value := by
  rw [decimal, List.mem_append, not_or]
  constructor
  · split
    · decide
    · exact List.not_mem_nil
  · intro hmem
    obtain ⟨c, hc, heq⟩ := List.mem_map.mp hmem
    exact toUInt8_ne_percent (Nat.isDigit_of_mem_toDigits (by decide) le_rfl hc) heq

/-! ### Directives in the file name -/

/-- Text without a directive is copied. -/
theorem Directives.formatted_append (d : Directives) {chars : List UInt8} (h : percent ∉ chars)
    (format : List UInt8) :
    d.formatted 0 (chars ++ format) = (d.formatted 0 format).map (chars ++ ·) := by
  induction chars with
  | nil => exact Option.map_id'.symm
  | cons c chars ih =>
      rw [List.mem_cons, not_or] at h
      rw [List.cons_append, Directives.formatted, if_neg (Ne.symm h.1), ih h.2, Option.map_map]
      rfl

/-- Directives that print nothing, as `%s` does for an empty string. -/
def silent : Directives where
  convert format := match format with
    | [] => some ([], 0)
    | c :: _ => if c ∈ known then some ([], 1) else some ([c], 1)
  unknown _ _ h := if_neg h

/-- What they make of a directive: nothing, or the character behind the `%`. -/
theorem silent_formatted (c : UInt8) (format : List UInt8) :
    silent.formatted 0 (percent :: c :: format) =
      (silent.formatted 1 (c :: format)).map ((if c ∈ known then [] else [c]) ++ ·) := by
  have hconvert : silent.convert (c :: format) = some (if c ∈ known then [] else [c], 1) := by
    show (if c ∈ known then some ([], 1) else some ([c], 1)) = _
    split <;> rfl
  conv_lhs => rw [Directives.formatted, if_pos rfl, hconvert]
  cases h : silent.formatted 1 (c :: format) with
  | none =>
      show (silent.formatted 1 (c :: format)).bind _ = none
      rw [h, Option.bind_none]
  | some chars =>
      show (silent.formatted 1 (c :: format)).bind _ = some _
      rw [h, Option.bind_some]

/-- Then every `%` that is printed stood for two. -/
theorem exists_silent (format : List UInt8) (skip : ℕ) :
    ∃ chars, silent.formatted skip format = some chars ∧
      2 * chars.count percent ≤ (format.drop skip).count percent := by
  induction format generalizing skip with
  | nil =>
      refine ⟨[], by cases skip <;> rfl, ?_⟩
      rw [List.drop_nil]
      rfl
  | cons c format ih =>
      cases skip with
      | succ skip => exact ih skip
      | zero =>
          rw [List.drop_zero]
          by_cases hpercent : c = percent
          · subst hpercent
            rw [List.count_cons_self]
            cases format with
            | nil => exact ⟨[], rfl, Nat.zero_le _⟩
            | cons c' format =>
                obtain ⟨chars, hchars, hcount⟩ := ih 1
                rw [List.drop_succ_cons, List.drop_zero] at hcount
                refine ⟨_, by rw [silent_formatted, hchars, Option.map_some], ?_⟩
                rw [List.count_append, List.count_cons]
                split
                · rw [List.count_nil]
                  omega
                · rw [List.count_singleton]
                  split <;> omega
          · obtain ⟨chars, hchars, hcount⟩ := ih 0
            refine ⟨c :: chars, ?_, ?_⟩
            · rw [Directives.formatted, if_neg hpercent, hchars, Option.map_some]
            rw [List.count_cons_of_ne hpercent, List.count_cons_of_ne hpercent]
            rwa [List.drop_zero] at hcount

/-- Whoever prints nothing for his directives does not get back a text that has one. -/
theorem not_mem_of_silent {chars printed : List UInt8}
    (h : silent.formatted 0 chars = some printed) {n : ℕ} (hsame : printed.take n = chars) :
    percent ∉ chars := by
  obtain ⟨printed', hprinted, hcount⟩ := exists_silent chars 0
  obtain rfl := Option.some.inj (hprinted.symm.trans h)
  rw [List.drop_zero] at hcount
  have hle : chars.count percent ≤ printed'.count percent := by
    rw [← hsame]
    exact (List.take_sublist _ _).count_le _
  rw [← List.count_eq_zero]
  omega

/-! ### The name in the messages -/

/-- `name` is what `%s` reads. -/
def StripsTo (path : CString) (name : List UInt8) : Prop :=
  (stripPath path.bytes).bind CString.read = some name

/-- `name` is the file name in the messages of this level: whatever was in the buffer, it stands
in the text behind eight characters for the level, and in the message in front of what the
directives of the caller make of his format. -/
structure PrintsName (level : ℤ) (path : CString) (name : List UInt8) : Prop where
  string : StripsTo path name
  message : ∃ tag : List UInt8, tag.length + nameRoom = bufferSize - 1 ∧
    ∀ (d : Directives) (buffer : List UInt8) (line : ℤ) (format : CString),
      printPath d buffer level (some path.bytes) line (some format.bytes) =
        (d.formatted 0 (format.chars.take
            (bufferSize - 1 - (headText tag name line).length))).map fun rest =>
          ⟨(headText tag name line ++ format.chars).take (bufferSize - 1),
            some (level, (headText tag name line ++ rest).take (bufferSize - 1))⟩

/-- What is printed for a name. -/
theorem printPath_eq (h : StripsTo path name) {level : ℤ} {tag : List UInt8}
    (htag : levelTag level = some tag) (d : Directives) (buffer : List UInt8) (line : ℤ)
    (format : CString) :
    printPath d buffer level (some path.bytes) line (some format.bytes) =
      (d.formatted 0 ((headText tag name line ++ format.chars).take (bufferSize - 1))).map
        fun message => ⟨(headText tag name line ++ format.chars).take (bufferSize - 1),
          some (level, message.take (bufferSize - 1))⟩ := by
  obtain ⟨memory, hstrip, hread⟩ := Option.bind_eq_some_iff.mp h
  obtain ⟨hplain, hlevel⟩ := levelFormat_eq htag
  rw [printPath, hstrip, hlevel]
  simp only [Option.bind_eq_bind, Option.bind_some, snprintf, vsnprintf,
    formatted_message hplain hread, Option.map_eq_bind, Option.bind_assoc]
  rfl

/-- At the other levels there is no text to put the name in: the message is made of what the
buffer held before, whatever the path is. -/
theorem printPath_of_no_text (path : CString) {level : ℤ} (hlevel : levelFormat level = none)
    (d : Directives) (buffer : List UInt8) (line : ℤ) (format : List UInt8) :
    printPath d buffer level (some path.bytes) line (some format) =
      (vsnprintf d bufferSize buffer).map fun message => ⟨buffer, some (level, message)⟩ := by
  obtain ⟨last, hstrip, -⟩ := exists_stripPath path
  rw [printPath, hstrip, hlevel, Option.map_eq_bind]
  rfl

/-- The part of the text that is not the caller's has a directive only in the file name. -/
theorem percent_mem_head_iff {level : ℤ} {tag : List UInt8} (htag : levelTag level = some tag)
    (name : List UInt8) (line : ℤ) :
    percent ∈ (headText tag name line).take (bufferSize - 1) ↔ percent ∈ name.take nameRoom := by
  have hroom := length_levelTag htag
  have hrest : percent ∉ text ":" ++ (decimal line ++ text " \t| ") := by
    simp only [List.mem_append, not_or]
    exact ⟨by decide, percent_notMem_decimal line, by decide⟩
  rw [headText, List.take_append, List.take_of_length_le (by omega),
    show bufferSize - 1 - tag.length = nameRoom by omega, List.take_append, List.mem_append,
    List.mem_append]
  constructor
  · rintro (hmem | hmem | hmem)
    · exact absurd hmem (levelFormat_eq htag).1
    · exact hmem
    · exact absurd (List.mem_of_mem_take hmem) hrest
  · exact fun hmem => Or.inr (Or.inl hmem)

/-- Of a text that is cut twice the first cut does not matter. -/
theorem take_take_append (n : ℕ) (chars rest : List UInt8) :
    (chars.take n ++ rest).take n = (chars ++ rest).take n := by
  have hroom : n - min n chars.length = n - chars.length := by omega
  rw [List.take_append, List.take_append, List.take_take, Nat.min_self, List.length_take, hroom]

theorem take_headText_ne_nil {tag : List UInt8} (hroom : tag.length + nameRoom = bufferSize - 1)
    (name : List UInt8) (line : ℤ) : (headText tag name line).take (bufferSize - 1) ≠ [] := by
  have htag : 0 < tag.length := Nat.pos_of_ne_zero fun hzero => by
    rw [hzero] at hroom
    exact absurd hroom (by decide)
  have hpos : 0 < bufferSize - 1 := by decide
  rw [headText, ← List.length_pos_iff, List.length_take, List.length_append]
  omega

/-- The text says what stands in front of the name. -/
theorem tag_eq_of_take {tag tag' name : List UInt8} {line : ℤ}
    (hroom : tag.length + nameRoom = bufferSize - 1)
    (hroom' : tag'.length + nameRoom = bufferSize - 1)
    (h : (headText tag name line).take (bufferSize - 1) =
      (headText tag' name line).take (bufferSize - 1)) : tag = tag' := by
  have hfront := congrArg (List.take tag.length) h
  rw [List.take_take, List.take_take, Nat.min_eq_left (by omega), headText, headText,
    List.take_left' rfl, List.take_left' (by omega)] at hfront
  exact hfront

/-- **The name in the messages** is what `%s` reads, at the levels that have a text, if it has no
directive where it is not cut off. -/
theorem printsName_iff {level : ℤ} : PrintsName level path name ↔
    StripsTo path name ∧ (0 ≤ level ∧ level ≤ 4) ∧ percent ∉ name.take nameRoom := by
  constructor
  · rintro ⟨hstring, tag, hroom, hmessage⟩
    -- silent directives and an empty format: the head itself would have to come out
    have hsame := hmessage silent [] 0 ⟨[], List.not_mem_nil⟩
    simp only [List.append_nil, List.take_nil, Directives.formatted, Option.map_some] at hsame
    cases hlevel : levelTag level with
    | none =>
        rw [printPath_of_no_text path (levelFormat_eq_none hlevel)] at hsame
        have hempty : [] = (headText tag name 0).take (bufferSize - 1) :=
          congrArg Printed.buffer (Option.some.inj hsame)
        exact absurd hempty.symm (take_headText_ne_nil hroom name 0)
    | some tag' =>
        obtain ⟨printed, hprinted, -⟩ :=
          exists_silent ((headText tag' name 0).take (bufferSize - 1)) 0
        rw [printPath_eq hstring hlevel] at hsame
        simp only [List.append_nil, hprinted, Option.map_some, Option.some.injEq,
          Printed.mk.injEq, Prod.mk.injEq, true_and] at hsame
        obtain ⟨htext, hmessage⟩ := hsame
        obtain rfl := tag_eq_of_take (length_levelTag hlevel) hroom htext
        refine ⟨hstring, isSome_levelTag.mp (by rw [hlevel]; rfl), ?_⟩
        rw [← percent_mem_head_iff hlevel name 0]
        exact not_mem_of_silent hprinted hmessage
  · rintro ⟨hstring, hlevel, hname⟩
    obtain ⟨tag, htag⟩ := Option.isSome_iff_exists.mp (isSome_levelTag.mpr hlevel)
    refine ⟨hstring, tag, length_levelTag htag, fun d buffer line format => ?_⟩
    have hplain : percent ∉ (headText tag name line).take (bufferSize - 1) :=
      mt (percent_mem_head_iff htag name line).mp hname
    rw [printPath_eq hstring htag, List.take_append, d.formatted_append hplain, Option.map_map]
    refine congrArg (Option.map · _) (funext fun rest => ?_)
    rw [Function.comp_apply, take_take_append, ← List.take_append]

/-- The messages name the file: the longest suffix of the path without a delimiter. -/
def NamesFile (level : ℤ) (path : CString) : Prop :=
  ∃ name, IsLongestSuffix (fun c => ¬ IsDelimiter c) path.chars name ∧
    PrintsName level path name

/-- The name is right before it is put in a message. -/
def StripsFile (path : CString) : Prop :=
  ∃ name, IsLongestSuffix (fun c => ¬ IsDelimiter c) path.chars name ∧ StripsTo path name

/-- The name is read from behind the last delimiter that was seen. -/
theorem exists_stripsTo_iff (path : CString) :
    ∃ d, (∀ name, StripsTo path name ↔
      CString.read (path.bytes.drop (d + 1)) = some name) ∧
      Last path d (min bufferSize path.length) := by
  obtain ⟨d, hstrip, hlast⟩ := exists_stripPath path
  exact ⟨d, fun name => by rw [StripsTo, hstrip, Option.bind_some], hlast⟩

theorem DelimiterAt.lt_length (h : DelimiterAt path i) : i < path.length := by
  obtain ⟨c, hc, -⟩ := h
  exact (List.getElem?_eq_some_iff.mp hc).1

theorem forall_mem_drop_iff :
    (∀ c ∈ path.chars.drop d, ¬ IsDelimiter c) ↔ ∀ i, d ≤ i → ¬ DelimiterAt path i := by
  constructor
  · rintro h i hi ⟨c, hc, hdelim⟩
    refine h c (List.mem_of_getElem? (i := i - d) ?_) hdelim
    rw [List.getElem?_drop, Nat.add_sub_cancel' hi, hc]
  · intro h c hc hdelim
    obtain ⟨j, hj⟩ := List.mem_iff_getElem?.mp hc
    rw [List.getElem?_drop] at hj
    exact h (d + j) (Nat.le_add_right d j) ⟨c, hj, hdelim⟩

/-- The rest behind the last delimiter that was seen is the file name if there is none that
was not seen. -/
theorem isLongestSuffix_drop (hdelim : DelimiterAt path d) :
    IsLongestSuffix (fun c => ¬ IsDelimiter c) path.chars (path.chars.drop (d + 1)) ↔
      ∀ i, d < i → ¬ DelimiterAt path i := by
  obtain ⟨c, hc, hslash⟩ := hdelim
  rw [isLongestSuffix_drop_iff hc, not_not, forall_mem_drop_iff]
  exact and_iff_right hslash

/-- Behind its first character is what is left of a path without a delimiter; nothing is if
it is empty. -/
theorem read_behind_first :
    CString.read (path.bytes.drop 1) = some name ↔
      0 < path.length ∧ name = path.chars.drop 1 := by
  rcases Nat.eq_zero_or_pos path.length with hempty | hpos
  · rw [CString.read_drop_of_lt (by omega)]
    exact iff_of_false nofun fun h => absurd h.1 (by omega)
  · rw [CString.read_drop hpos, Option.some.injEq]
    exact ⟨fun h => ⟨hpos, h.symm⟩, fun h => h.2.symm⟩

/-- If no delimiter was seen, the first character is lost, which belongs to the file name. -/
theorem not_stripsFile_of_nowhere (hname : ∀ name, StripsTo path name ↔
      CString.read (path.bytes.drop 1) = some name) (hfirst : ¬ DelimiterAt path 0) :
    ¬ StripsFile path := by
  rintro ⟨name, hlongest, hprints⟩
  obtain ⟨hpos, rfl⟩ := read_behind_first.mp ((hname name).mp hprints)
  obtain ⟨c, hc⟩ : ∃ c, path.chars[0]? = some c := ⟨_, List.getElem?_eq_getElem hpos⟩
  have hslash := ((isLongestSuffix_drop_iff hc).mp hlongest).1
  exact hfirst ⟨c, hc, not_not.mp hslash⟩

/-- If one was seen, what is left is the file name unless there is another one behind it. -/
theorem stripsFile_iff_of_found (hname : ∀ name, StripsTo path name ↔
      CString.read (path.bytes.drop (d + 1)) = some name) (hdelim : DelimiterAt path d) :
    StripsFile path ↔ ∀ i, d < i → ¬ DelimiterAt path i := by
  have hread := CString.read_drop (s := path) (Nat.succ_le_of_lt hdelim.lt_length)
  rw [← isLongestSuffix_drop hdelim]
  constructor
  · rintro ⟨name, hlongest, hprints⟩
    rw [hname, hread, Option.some.injEq] at hprints
    exact hprints ▸ hlongest
  · exact fun hlongest => ⟨_, hlongest, (hname _).mpr hread⟩

/-- **The file name** is in the messages if there is a delimiter among the first 1024
characters of the path, and none behind these. -/
theorem stripsFile_iff_seen (path : CString) :
    StripsFile path ↔ (∃ i < bufferSize, DelimiterAt path i) ∧
      ∀ i, bufferSize ≤ i → ¬ DelimiterAt path i := by
  obtain ⟨d, hname, hlast⟩ := exists_stripsTo_iff path
  cases hlast with
  | nowhere hnone =>
      have hunseen : ∀ i < bufferSize, ¬ DelimiterAt path i := fun i hi hdelim =>
        hnone i (lt_min hi hdelim.lt_length) hdelim
      refine iff_of_false (not_stripsFile_of_nowhere hname (hunseen 0 (by decide))) ?_
      rintro ⟨⟨i, hi, hdelim⟩, -⟩
      exact hunseen i hi hdelim
  | found hd hdelim hnone =>
      have hlt : d < bufferSize := (Nat.lt_min.mp hd).1
      rw [stripsFile_iff_of_found hname hdelim]
      constructor
      · exact fun h => ⟨⟨d, hlt, hdelim⟩, fun i hi => h i (hlt.trans_le hi)⟩
      · rintro ⟨-, hbehind⟩ i hdi hi
        rcases Nat.lt_or_ge i bufferSize with hseen | hunseen
        · exact hnone i hdi (lt_min hseen hi.lt_length) hi
        · exact hbehind i hunseen hi

/-- **The file name** of a path that is not too long is found if there is a delimiter. -/
theorem stripsFile_iff (hshort : path.length < bufferSize) :
    StripsFile path ↔ ∃ c ∈ path.chars, IsDelimiter c := by
  rw [stripsFile_iff_seen]
  constructor
  · rintro ⟨⟨i, -, c, hc, hdelim⟩, -⟩
    exact ⟨c, List.mem_of_getElem? hc, hdelim⟩
  · rintro ⟨c, hmem, hdelim⟩
    obtain ⟨i, hc⟩ := List.mem_iff_getElem?.mp hmem
    have hi : DelimiterAt path i := ⟨c, hc, hdelim⟩
    exact ⟨⟨i, hi.lt_length.trans hshort, hi⟩, fun j hj hdelim =>
      absurd (hdelim.lt_length.trans hshort) (Nat.not_lt_of_le hj)⟩

/-- **Without a delimiter** the first character is lost, and the empty path is read behind
its terminator. -/
theorem stripsTo_of_no_delimiter (h : ∀ c ∈ path.chars, ¬ IsDelimiter c) :
    StripsTo path name ↔ 0 < path.length ∧ name = path.chars.drop 1 := by
  obtain ⟨d, hname, hlast⟩ := exists_stripsTo_iff path
  rw [hname]
  cases hlast with
  | nowhere => exact read_behind_first
  | found _ hdelim _ =>
      obtain ⟨c, hc, hslash⟩ := hdelim
      exact absurd hslash (h c (List.mem_of_getElem? hc))

def rootPath : CString := ⟨text "/main.cpp", by decide⟩

def mainPath : CString := ⟨text "main.cpp", by decide⟩

def percentPath : CString := ⟨text "/a%%b.cpp", by decide⟩

end Logger

end Tklb
