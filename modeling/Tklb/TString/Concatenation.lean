import Tklb.TString.Appending
import Tklb.TString.Searching

/-!
# Strings are texts

A client makes strings, by default and from C strings, and appends one to another
(`Strings.exec`).  For texts the same calls are `[]`, a text and `++` (`textsExec`).
`exec_represents` is the simulation step, for calls to `append` that go right
(`GoodCall`); `append_concatenates_iff` says of every state that such calls lead to which
call to `append` goes right next.

`prepend` goes right for no strings: its first assignment is one behind the end
(`not_prepends`).

### Main results

* `exec_represents` and `refines_texts` — one call, and runs: strings are texts, for as long as
  the calls to `append` go right.
* `append_concatenates_iff` — in every state of such a run, and for every two strings in it,
  when the next call goes right.
* `append_assoc` and `append_empty` — the laws of concatenation, for strings.
* `not_prepends` — for all strings.

### What is load-bearing

`GoodCall` is the condition of `TString.Appending` in the state before the call, so the runs of
the simulation are exactly those about which the result for one call says something.
-/

namespace Tklb

open Foundation HeapBuffer BufferState

/-- A number of strings on one heap.  Each has its own storage, or none; the heap is shared, so a
call on one of them could reach the others. -/
structure Strings where
  heap : Heap UInt8
  strings : List HeapBuffer

/-- `String()`, `String(str)` and `strings[i].append(strings[j])`. -/
inductive StringCall
  | construct
  | ofCString (str : List UInt8)
  | append (i j : ℕ)
  deriving DecidableEq

namespace Strings

open TString

variable {B : BufferType} {w w' : Strings} {texts : List (List UInt8)} {i j : ℕ}
  {d e : HeapBuffer} {s t : List UInt8}

/-- No strings yet. -/
def initial (grants : ℕ → Bool) : Strings := ⟨.initial grants, []⟩

/-- One call.  A string is not appended to itself. -/
def exec (B : BufferType) (w : Strings) : StringCall → Option Strings
  | .construct => some { w with strings := w.strings ++ [.initial] }
  | .ofCString str => (TString.ofCString B w.heap (some str)).map fun a =>
      ⟨a.heap, w.strings ++ [a.buffer]⟩
  | .append i j =>
      if i = j then none
      else do
        let d ← w.strings[i]?
        let e ← w.strings[j]?
        let a ← TString.append B ⟨w.heap, d⟩ e
        some ⟨a.heap, w.strings.set i a.buffer⟩

/-- What a call means for texts. -/
def textsExec (B : BufferType) (texts : List (List UInt8)) :
    StringCall → Option (List (List UInt8))
  | .construct => some (texts ++ [[]])
  | .ofCString str => some (texts ++ [cText B str])
  | .append i j => do
      let s ← texts[i]?
      let t ← texts[j]?
      some (texts.set i (s ++ t))

/-- A call to `append` is one that the sizes and the allocator let go right. -/
def GoodCall (B : BufferType) (w : Strings) : StringCall → Prop
  | .append i j => ∀ d e, w.strings[i]? = some d → w.strings[j]? = some e →
      AppendFits B ⟨w.heap, d⟩ e
  | _ => True

/-- The strings are the texts, each in memory of its own.  That no two strings have the same block
is part of it, since `append` writes to one while it reads the other. -/
structure Represents (B : BufferType) (w : Strings) (texts : List (List UInt8)) : Prop where
  length : w.strings.length = texts.length
  each : ∀ (k : ℕ) d text, w.strings[k]? = some d → texts[k]? = some text →
    IsText B ⟨w.heap, d⟩ text
  distinct : ∀ (k k' : ℕ) d d' b, w.strings[k]? = some d → w.strings[k']? = some d' →
    d.mBuf = some b → d'.mBuf = some b → k = k'

theorem Represents.text (h : Represents B w texts) {k : ℕ} (hd : w.strings[k]? = some d) :
    ∃ text, texts[k]? = some text ∧ IsText B ⟨w.heap, d⟩ text := by
  have hlt := (List.getElem?_eq_some_iff.mp hd).1
  have htext := List.getElem?_eq_getElem (l := texts) (h.length ▸ hlt)
  exact ⟨_, htext, h.each k d _ hd htext⟩

/-- Different strings have different memory. -/
theorem Represents.apart (h : Represents B w texts) {k k' : ℕ} (hne : k ≠ k')
    (hd : w.strings[k]? = some d) (he : w.strings[k']? = some e) :
    ∀ b, d.mBuf = some b → e.mBuf ≠ some b :=
  fun b hb hb' => hne (h.distinct k k' d e b hd he hb hb')

/-- A string has memory that was obtained earlier. -/
theorem inside {a : BufferState UInt8} (h : IsText B a s) {b : ℕ}
    (hb : a.buffer.mBuf = some b) : b < a.heap.blocks := by
  rcases h with ⟨hinitial, -⟩ | h
  · rw [hinitial] at hb
    cases hb
  · exact h.housed.inside b hb

/-- What is done to one string leaves the others. -/
theorem isText_elsewhere {a r : BufferState UInt8} (h : IsText B ⟨a.heap, d⟩ s)
    (hne : ∀ b, d.mBuf = some b → a.buffer.mBuf ≠ some b) (he : Elsewhere a r) :
    IsText B ⟨r.heap, d⟩ s := by
  have hsame : ∀ b, d.mBuf = some b → r.heap.objects.slot b = a.heap.objects.slot b :=
    fun b hb => he.others b (hne b hb) fun heq => lt_irrefl _ (heq ▸ inside h hb)
  rcases h with h | h
  · exact Or.inl h
  · exact Or.inr ⟨⟨h.terminated.contents.congr hsame, h.terminated.noNul⟩,
      ⟨h.housed.isSome, fun b hb => (h.housed.inside b hb).trans_le he.blocks⟩, h.isSome,
      h.capacity, h.fits⟩

/-! ### One call -/

theorem Represents.construct (h : Represents B w texts) :
    Represents B ⟨w.heap, w.strings ++ [.initial]⟩ (texts ++ [[]]) where
  length := by simp [h.length]
  each k d text hd htext := by
    rcases Nat.lt_or_ge k w.strings.length with hlt | hge
    · rw [List.getElem?_append_left hlt] at hd
      rw [List.getElem?_append_left (h.length ▸ hlt)] at htext
      exact h.each k d text hd htext
    · rw [List.getElem?_append_right hge, List.getElem?_singleton] at hd
      rw [List.getElem?_append_right (h.length ▸ hge), List.getElem?_singleton] at htext
      split at hd
      · split at htext
        · exact Or.inl ⟨(Option.some.inj hd).symm, (Option.some.inj htext).symm⟩
        · cases htext
      · cases hd
  distinct k k' d d' b hd hd' hb hb' := by
    have hold : ∀ {k : ℕ} {d : HeapBuffer}, (w.strings ++ [.initial])[k]? = some d →
        d.mBuf = some b → w.strings[k]? = some d := by
      intro k d hd hb
      rcases Nat.lt_or_ge k w.strings.length with hlt | hge
      · rwa [List.getElem?_append_left hlt] at hd
      · rw [List.getElem?_append_right hge, List.getElem?_singleton] at hd
        split at hd
        · rw [← Option.some.inj hd] at hb
          cases hb
        · cases hd
    exact h.distinct k k' d d' b (hold hd hb) (hold hd' hb') hb hb'

/-- One string is another text afterwards. -/
theorem Represents.set (h : Represents B w texts) (hd : w.strings[i]? = some d)
    {r : BufferState UInt8} (hr : IsText B r s) (he : Elsewhere ⟨w.heap, d⟩ r) :
    Represents B ⟨r.heap, w.strings.set i r.buffer⟩ (texts.set i s) where
  length := by rw [List.length_set, List.length_set, h.length]
  each k d' text hd' htext := by
    have hlt := (List.getElem?_eq_some_iff.mp hd).1
    by_cases hik : i = k
    · subst hik
      rw [List.getElem?_set_self hlt] at hd'
      rw [List.getElem?_set_self (h.length ▸ hlt)] at htext
      rw [← Option.some.inj hd', ← Option.some.inj htext]
      exact hr
    · rw [List.getElem?_set_ne hik] at hd' htext
      exact isText_elsewhere (h.each k d' text hd' htext) (h.apart (Ne.symm hik) hd' hd) he
  distinct k k' e e' b hk hk' hb hb' := by
    have hlt := (List.getElem?_eq_some_iff.mp hd).1
    -- the memory of the string is the one it had, or new
    have hfresh : ∀ {k : ℕ} {e : HeapBuffer}, i ≠ k → w.strings[k]? = some e → e.mBuf = some b →
        r.buffer.mBuf ≠ some b := by
      intro k e hik hk hb hrb
      rcases he.block with hold | hnew
      · exact h.apart (Ne.symm hik) hk hd b hb (hold.symm.trans hrb)
      · obtain ⟨text, -, htext⟩ := h.text hk
        have hblock : b = w.heap.blocks := Option.some.inj (hrb.symm.trans hnew)
        exact lt_irrefl _ (hblock ▸ inside htext hb)
    by_cases hik : i = k
    · by_cases hik' : i = k'
      · exact hik.symm.trans hik'
      · rw [← hik, List.getElem?_set_self hlt] at hk
        rw [List.getElem?_set_ne hik'] at hk'
        rw [← Option.some.inj hk] at hb
        exact absurd hb (hfresh hik' hk' hb')
    · by_cases hik' : i = k'
      · rw [← hik', List.getElem?_set_self hlt] at hk'
        rw [List.getElem?_set_ne hik] at hk
        rw [← Option.some.inj hk'] at hb'
        exact absurd hb' (hfresh hik hk hb)
      · rw [List.getElem?_set_ne hik] at hk
        rw [List.getElem?_set_ne hik'] at hk'
        exact h.distinct k k' e e' b hk hk' hb hb'

/-- A string made from a C string is its text. -/
theorem isText_ofCString {h : Heap UInt8} {str : List UInt8} {a : BufferState UInt8}
    (hcall : TString.ofCString B h (some str) = some a) :
    IsText B a (cText B str) ∧ Elsewhere ⟨h, .initial⟩ a := by
  rcases Nat.eq_zero_or_pos (maxLength B) with hzero | hpos
  · -- `MAX_LENGTH` does not fit in `Size`
    have hlength : cLength h (.elsewhere str) (maxLength B) 0 = some 0 := by rw [hzero, cLength]
    rw [TString.ofCString, Option.map_some, setCString, hlength, Option.bind_some, setChars,
      if_pos rfl] at hcall
    obtain rfl := Option.some.inj hcall
    refine ⟨Or.inl ⟨rfl, by rw [cText, hzero, List.take_zero]⟩, Or.inl rfl, le_rfl, ?_,
      fun _ _ _ => rfl⟩
    intro b hb
    cases hb
  · obtain ⟨hholding, helsewhere⟩ := ofCString_spec hpos hcall
    exact ⟨Or.inr hholding, helsewhere⟩

/-- **One call.**  The strings are texts afterwards, each in memory of its own again, and the texts
are what the call means; the strings that the call is not about are unchanged. -/
theorem exec_represents (h : Represents B w texts) {call : StringCall} (hgood : GoodCall B w call)
    (hstep : w.exec B call = some w') :
    ∃ texts', textsExec B texts call = some texts' ∧ Represents B w' texts' := by
  cases call with
  | construct =>
      obtain rfl := Option.some.inj hstep
      exact ⟨_, rfl, h.construct⟩
  | ofCString str =>
      obtain ⟨a, hcall, rfl⟩ := Option.map_eq_some_iff.mp hstep
      obtain ⟨htext, helsewhere⟩ := isText_ofCString hcall
      have hmore := h.construct.set (i := w.strings.length) (by simp) htext helsewhere
      refine ⟨_, rfl, ?_⟩
      rwa [List.set_append_right _ _ le_rfl, h.length, List.set_append_right _ _ le_rfl,
        Nat.sub_self] at hmore
  | append i j =>
      rw [exec] at hstep
      split at hstep
      · cases hstep
      · rename_i hne
        simp only [Option.bind_eq_bind, Option.bind_eq_some_iff] at hstep
        obtain ⟨d, hd, e, he, a, hcall, hstep⟩ := hstep
        obtain rfl := Option.some.inj hstep
        obtain ⟨s, hs, hsd⟩ := h.text hd
        obtain ⟨t, ht, hte⟩ := h.text he
        obtain ⟨r, hr, hholding, helsewhere⟩ :=
          append_of_fits hsd hte (h.apart (Ne.symm hne) he hd) (hgood d e hd he)
        obtain rfl : r = a := Option.some.inj (hr.symm.trans hcall)
        refine ⟨texts.set i (s ++ t), ?_, h.set hd (Or.inr hholding) helsewhere⟩
        rw [textsExec, hs, ht]
        rfl

/-! ### Every run -/

/-- **Calls that go right are calls on texts.**  No string is ever anything else than the text it
stands for, in any order of calls and for any number of strings. -/
theorem refines_texts {calls : List StringCall} (h : Represents B w texts)
    (hrun : Run (Guarded (StepOf (exec B)) (GoodCall B)) w calls w') :
    ∃ texts', Run (StepOf (textsExec B)) texts calls texts' ∧ Represents B w' texts' :=
  hrun.simulation (R := Represents B)
    (fun _ _ _ _ h hstep => exec_represents h hstep.1 hstep.2) h

theorem Represents.initial (grants : ℕ → Bool) : Represents B (Strings.initial grants) [] :=
  ⟨rfl, fun k d text hd => (by cases hd), fun k k' d d' b hd => (by cases hd)⟩

/-- **`strings[i].append(strings[j])` concatenates**: one string is the terminated text of
both afterwards, written inside its new size, and the other is unchanged. -/
structure Concatenates (B : BufferType) (w : Strings) (i j : ℕ) (s t : List UInt8) : Prop where
  appended : ∃ w' d, w.exec B (.append i j) = some w' ∧ w'.strings[i]? = some d ∧
    d.mSize = s.length + t.length + 1 ∧ Terminated ⟨w'.heap, d⟩ (s ++ t)
  unchanged : ∀ w', w.exec B (.append i j) = some w' → ∃ e, w.strings[j]? = some e ∧
    w'.strings[j]? = some e ∧ ∀ k, charAt ⟨w'.heap, e⟩ k = charAt ⟨w.heap, e⟩ k

theorem exec_append_unchanged (h : Represents B w texts) (hne : i ≠ j)
    (hd : w.strings[i]? = some d) (he : w.strings[j]? = some e)
    (hfit : AppendFits B ⟨w.heap, d⟩ e) (hstep : w.exec B (.append i j) = some w') :
    w'.strings[j]? = some e ∧ ∀ k, charAt ⟨w'.heap, e⟩ k = charAt ⟨w.heap, e⟩ k := by
  obtain ⟨s, -, hs⟩ := h.text hd
  obtain ⟨t, -, ht⟩ := h.text he
  have hapart := h.apart (Ne.symm hne) he hd
  obtain ⟨r, hcall, -, helsewhere⟩ := append_of_fits hs ht hapart hfit
  rw [exec, if_neg hne, hd, he] at hstep
  simp only [Option.bind_eq_bind, Option.bind_some, hcall, Option.some.injEq] at hstep
  subst hstep
  refine ⟨by rw [List.getElem?_set_ne hne, he], charAt_congr fun b hb => ?_⟩
  exact helsewhere.others b (hapart b hb) fun heq => lt_irrefl _ (heq ▸ inside ht hb)

/-- **`append` is the concatenation exactly where it goes right.**  In every state that
calls which go right lead to, and for every two strings of it. -/
theorem append_concatenates_iff {grants : ℕ → Bool} {calls : List StringCall}
    (hrun : Run (Guarded (StepOf (exec B)) (GoodCall B)) (initial grants) calls w) (hne : i ≠ j)
    (hd : w.strings[i]? = some d) (he : w.strings[j]? = some e) :
    ∃ texts s t, Run (StepOf (textsExec B)) [] calls texts ∧ texts[i]? = some s ∧
      texts[j]? = some t ∧ (Concatenates B w i j s t ↔ AppendFits B ⟨w.heap, d⟩ e) := by
  obtain ⟨texts, htexts, h⟩ := refines_texts (.initial grants) hrun
  obtain ⟨s, hs, hsd⟩ := h.text hd
  obtain ⟨t, ht, hte⟩ := h.text he
  have hiff := append_terminated_iff hsd hte (h.apart (Ne.symm hne) he hd)
  have hstep : ∀ w', w.exec B (.append i j) = some w' ↔ ∃ r,
      TString.append B ⟨w.heap, d⟩ e = some r ∧ w' = ⟨r.heap, w.strings.set i r.buffer⟩ := by
    intro w'
    rw [exec, if_neg hne, hd, he]
    simp only [Option.bind_eq_bind, Option.bind_some, Option.bind_eq_some_iff, Option.some.injEq]
    exact exists_congr fun r => and_congr_right fun _ => eq_comm
  have hself : ∀ r : BufferState UInt8, (w.strings.set i r.buffer)[i]? = some r.buffer :=
    fun r => List.getElem?_set_self (List.getElem?_eq_some_iff.mp hd).1
  refine ⟨texts, s, t, htexts, hs, ht, ?_, fun hfit => ?_⟩
  · rintro ⟨⟨w', d', hcall, hd', -, hterm⟩, -⟩
    obtain ⟨r, hr, rfl⟩ := (hstep w').mp hcall
    obtain rfl : r.buffer = d' := Option.some.inj ((hself r).symm.trans hd')
    exact hiff.mp ⟨r, hr, hterm⟩
  · obtain ⟨r, hr, hterm⟩ := hiff.mpr hfit
    refine ⟨⟨_, r.buffer, (hstep _).mpr ⟨r, hr, rfl⟩, hself r, ?_, hterm⟩, fun w' hcall =>
      ⟨e, he, exec_append_unchanged h hne hd he hfit hcall⟩⟩
    rw [hterm.size, List.length_append]

/-- A run that appends nothing is a good one. -/
theorem goodRun_of_forall {calls : List StringCall}
    (hrun : Run (StepOf (exec B)) w calls w') (hcalls : ∀ call ∈ calls, ∀ i j, call ≠ .append i j) :
    Run (Guarded (StepOf (exec B)) (GoodCall B)) w calls w' := by
  refine (hrun.guarded_of_forall hcalls).mono fun w call w' hstep => ⟨?_, hstep.2⟩
  cases call with
  | construct => trivial
  | ofCString str => trivial
  | append i j => exact absurd rfl (hstep.1 i j)

/-- `"a"` and `"b"`: the hypotheses are met, and `append` makes `"ab"`. -/
theorem append_concatenates_iff_two_letters :
    ∃ w, Run (StepOf (exec defaultStorage)) (initial fun _ => true)
        [.ofCString [97, 0], .ofCString [98, 0]] w ∧
      Concatenates defaultStorage w 0 1 [97] [98] := by
  have hcheck : (([.ofCString [97, 0], .ofCString [98, 0]] : List StringCall).foldlM
      (exec defaultStorage) (initial fun _ => true)).bind (fun w =>
        (w.strings[0]?).bind fun d => (w.strings[1]?).map fun e =>
          decide (AppendFits defaultStorage ⟨w.heap, d⟩ e)) = some true := by decide
  obtain ⟨w, hw, hcheck⟩ := Option.bind_eq_some_iff.mp hcheck
  obtain ⟨d, hd, hcheck⟩ := Option.bind_eq_some_iff.mp hcheck
  obtain ⟨e, he, hfit⟩ := Option.map_eq_some_iff.mp hcheck
  have hrun := Run.of_foldlM hw
  obtain ⟨texts, s, t, htexts, hs, ht, hiff⟩ := append_concatenates_iff
    (goodRun_of_forall hrun (by simp)) (by decide : 0 ≠ 1) hd he
  obtain rfl : texts = [[97], [98]] :=
    htexts.unique (Run.of_foldlM (by decide))
  obtain rfl := Option.some.inj hs
  obtain rfl := Option.some.inj ht
  exact ⟨w, hrun, hiff.mpr (of_decide_eq_true hfit)⟩

/-- `"b"` appended to a default constructed string: the first character is written at the
largest index there is. -/
theorem not_concatenates_default :
    ∃ w, Run (StepOf (exec defaultStorage)) (initial fun _ => true)
        [.construct, .ofCString [98, 0]] w ∧
      w.exec defaultStorage (.append 0 1) = none ∧
      ¬ Concatenates defaultStorage w 0 1 [] [98] := by
  have hcheck : (([.construct, .ofCString [98, 0]] : List StringCall).foldlM
      (exec defaultStorage) (initial fun _ => true)).map (fun w =>
        (w.exec defaultStorage (.append 0 1)).isNone) = some true := by decide
  obtain ⟨w, hw, hnone⟩ := Option.map_eq_some_iff.mp hcheck
  have hnone := Option.isNone_iff_eq_none.mp hnone
  refine ⟨w, Run.of_foldlM hw, hnone, ?_⟩
  rintro ⟨⟨w', d, hcall, -⟩, -⟩
  rw [hnone] at hcall
  cases hcall

/-- `append` for texts. -/
theorem textsExec_append {texts' : List (List UInt8)}
    (h : StepOf (textsExec B) texts (.append i j) texts') :
    ∃ s t, texts[i]? = some s ∧ texts[j]? = some t ∧ texts'[i]? = some (s ++ t) ∧
      ∀ k, i ≠ k → texts'[k]? = texts[k]? := by
  rw [StepOf, textsExec] at h
  simp only [Option.bind_eq_bind, Option.bind_eq_some_iff, Option.some.injEq] at h
  obtain ⟨s, hs, t, ht, rfl⟩ := h
  have hlt := (List.getElem?_eq_some_iff.mp hs).1
  exact ⟨s, t, hs, ht, List.getElem?_set_self hlt, fun k hk => List.getElem?_set_ne hk⟩

/-- **`append` is associative.**  Appending two strings one after the other, and appending
the second to the first before, leave the same text. -/
theorem append_assoc {w₁ w₂ : Strings} {k : ℕ} {d₁ d₂ : HeapBuffer} (h : Represents B w texts)
    (hij : i ≠ j) (hik : i ≠ k)
    (hleft : Run (Guarded (StepOf (exec B)) (GoodCall B)) w [.append i j, .append i k] w₁)
    (hright : Run (Guarded (StepOf (exec B)) (GoodCall B)) w [.append j k, .append i j] w₂)
    (hd₁ : w₁.strings[i]? = some d₁) (hd₂ : w₂.strings[i]? = some d₂) :
    ∃ text, IsText B ⟨w₁.heap, d₁⟩ text ∧ IsText B ⟨w₂.heap, d₂⟩ text := by
  obtain ⟨texts₁, hrun₁, h₁⟩ := refines_texts h hleft
  obtain ⟨texts₂, hrun₂, h₂⟩ := refines_texts h hright
  obtain ⟨texts₃, hone, hrun₁⟩ := Run.cons_iff.mp hrun₁
  obtain ⟨texts₄, htwo, ⟨⟩⟩ := Run.cons_iff.mp hrun₁
  obtain ⟨texts₅, hthree, hrun₂⟩ := Run.cons_iff.mp hrun₂
  obtain ⟨texts₆, hfour, ⟨⟩⟩ := Run.cons_iff.mp hrun₂
  obtain ⟨s, t, hs, ht, hst, hkeep⟩ := textsExec_append hone
  obtain ⟨st, u, hst', hu, hleft, -⟩ := textsExec_append htwo
  obtain ⟨t', u', ht', hu', htu, hkeep'⟩ := textsExec_append hthree
  obtain ⟨s', tu, hs', htu', hright, -⟩ := textsExec_append hfour
  -- what was appended first, read back
  obtain rfl : t = t' := Option.some.inj (ht.symm.trans ht')
  obtain rfl : st = s ++ t := Option.some.inj (hst'.symm.trans hst)
  obtain rfl : tu = t ++ u' := Option.some.inj (htu'.symm.trans htu)
  obtain rfl : s = s' := Option.some.inj (hs.symm.trans ((hkeep' i (Ne.symm hij)).symm.trans hs'))
  obtain rfl : u = u' := Option.some.inj (hu.symm.trans ((hkeep k hik).trans hu'))
  refine ⟨s ++ t ++ u, h₁.each i d₁ _ hd₁ hleft, ?_⟩
  rw [List.append_assoc]
  exact h₂.each i d₂ _ hd₂ hright

/-- **The empty string is the identity** on both sides.  The run is a single good call of `append`;
for a string that is default constructed the empty text is the one it stands for. -/
theorem append_empty {d' : HeapBuffer} (h : Represents B w texts)
    (hrun : Run (Guarded (StepOf (exec B)) (GoodCall B)) w [.append i j] w')
    (hi : texts[i]? = some s) (hj : texts[j]? = some t) (hd' : w'.strings[i]? = some d') :
    (t = [] → IsText B ⟨w'.heap, d'⟩ s) ∧ (s = [] → IsText B ⟨w'.heap, d'⟩ t) := by
  obtain ⟨texts', hrun', h'⟩ := refines_texts h hrun
  obtain ⟨texts₁, hone, ⟨⟩⟩ := Run.cons_iff.mp hrun'
  obtain ⟨s', t', hs', ht', hst, -⟩ := textsExec_append hone
  obtain rfl : s = s' := Option.some.inj (hi.symm.trans hs')
  obtain rfl : t = t' := Option.some.inj (hj.symm.trans ht')
  have htext := h'.each i d' _ hd' hst
  refine ⟨?_, ?_⟩
  · rintro rfl
    rwa [List.append_nil] at htext
  · rintro rfl
    exact htext

end Strings

namespace TString

variable {B : BufferType} {s : BufferState UInt8} {str : HeapBuffer} {text text' : List UInt8}

/-- `s.prepend(str)` puts the text of `str` in front, inside the new size of `s`, and leaves
`str` alone. -/
def Prepends (B : BufferType) (s : BufferState UInt8) (str : HeapBuffer)
    (text text' : List UInt8) : Prop :=
  ∃ r, prepend B s str = some r ∧ Terminated r (text' ++ text) ∧
    ∀ k, charAt ⟨r.heap, str⟩ k = charAt ⟨s.heap, str⟩ k

/-- The first assignment of the shifting loop is one behind the end. -/
theorem shiftFrom_eq_none {oldSize n : ℕ} (hlt : s.buffer.mSize < 2 ^ B.sizeBits) :
    shiftFrom B oldSize (n + 1) 0 s = none := by
  have hindex : wsub B.sizeBits s.buffer.mSize 0 = s.buffer.mSize :=
    wsub_of_le hlt (Nat.zero_le _)
  rw [shiftFrom, hindex]
  simp only [Option.bind_eq_bind, setChar_of_le le_rfl, Option.bind_none, Option.bind_fun_none]

/-- **`prepend` goes right for no strings.**  The first assignment of its loop is at the index
`size()`, which is one behind the last character, and that is so whatever the two texts are. -/
theorem not_prepends (h : FromCString B s text) : ¬ Prepends B s str text text' := by
  rintro ⟨r, hcall, -⟩
  have hsize := h.terminated.size
  have hshort := h.short
  obtain ⟨hmax, hbits⟩ := maxLength_eq (B := B) (by omega)
  have hlt : (resize B s (wsub B.sizeBits
      (wrap B.sizeBits (s.buffer.mSize + str.mSize)) 1)).2.buffer.mSize < 2 ^ B.sizeBits := by
    have hnew : wsub B.sizeBits (wrap B.sizeBits (s.buffer.mSize + str.mSize)) 1 <
      2 ^ B.sizeBits := wrap_lt _ _
    have hresized := resize_size B s
      (wsub B.sizeBits (wrap B.sizeBits (s.buffer.mSize + str.mSize)) 1)
    omega
  have hshift : shiftFrom B s.buffer.mSize s.buffer.mSize 0 (resize B s (wsub B.sizeBits
      (wrap B.sizeBits (s.buffer.mSize + str.mSize)) 1)).2 = none := by
    obtain ⟨n, hn⟩ : ∃ n, s.buffer.mSize = n + 1 := ⟨_, hsize⟩
    rw [hn] at hlt ⊢
    exact shiftFrom_eq_none hlt
  rw [prepend, Option.bind_eq_bind, hshift] at hcall
  cases hcall

/-- `"b"` and `"a"` are made from C strings, and `"b"` is not put in front of `"a"`. -/
theorem not_prepends_letter :
    ∃ b a, ofCString defaultStorage (.initial fun _ => true) (some [98, 0]) = some b ∧
      ofCString defaultStorage b.heap (some [97, 0]) = some a ∧
      ¬ Prepends defaultStorage a b.buffer [97] [98] := by
  have hcalls : ((ofCString defaultStorage (.initial fun _ => true) (some [98, 0])).bind fun b =>
      ofCString defaultStorage b.heap (some [97, 0])).isSome := by decide
  obtain ⟨a, ha⟩ := Option.isSome_iff_exists.mp hcalls
  obtain ⟨b, hb, ha⟩ := Option.bind_eq_some_iff.mp ha
  exact ⟨b, a, hb, ha, not_prepends (.of_ofCString (by decide) ha)⟩

/-- `"bc"` in front of `"a"`: the call assigns behind the end of the string. -/
theorem prepend_writes_outside :
    ∃ b a, ofCString defaultStorage (.initial fun _ => true) (some [98, 99, 0]) = some b ∧
      ofCString defaultStorage b.heap (some [97, 0]) = some a ∧
      prepend defaultStorage a b.buffer = none ∧
      ¬ Prepends defaultStorage a b.buffer [97] [98, 99] := by
  have hcheck : ((ofCString defaultStorage (.initial fun _ => true) (some [98, 99, 0])).bind
      fun b => (ofCString defaultStorage b.heap (some [97, 0])).map fun a =>
        (prepend defaultStorage a b.buffer).isNone) = some true := by decide
  obtain ⟨b, hb, hcheck⟩ := Option.bind_eq_some_iff.mp hcheck
  obtain ⟨a, ha, hnone⟩ := Option.map_eq_some_iff.mp hcheck
  have hnone := Option.isNone_iff_eq_none.mp hnone
  refine ⟨b, a, hb, ha, hnone, ?_⟩
  rintro ⟨r, hcall, -⟩
  rw [hnone] at hcall
  cases hcall

end TString

end Tklb
