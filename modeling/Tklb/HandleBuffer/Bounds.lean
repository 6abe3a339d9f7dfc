import Tklb.HandleBuffer.Resizing
import Tklb.Foundation.Runs

/-!
# Which slots a `HandleBuffer` reads

`at` turns away the handles whose index is above the number of slots, and reads the slot
of all others: also the one behind the last.  `create` reads the slot `mStart` unless that
is `MaskIndex`, and looks at the number of slots nowhere.  `remove` begins with `at`, and
`iterate` counts up to the number of slots.

`inBounds_iff` says when all of them stay inside, in any state.  The links of the slots
never lead outside (`Linked`); so `mStart` is outside only in a buffer without slots, or
after a `resize` to no more than `mStart` slots.

### Main results

* `inBounds_iff` — in any state and for any handle: no call indexes outside if and only if the
  handle is not the one behind the last slot and `mStart` is a slot or `MaskIndex`.
* `Linked.step` — no call makes a link that leads outside, so it takes a `resize` to bring
  `mStart` there.
* `inBounds_iff_of_run` — both together, for everything a run can lead to; along the run only
  the calls of `resize` have to be looked at (`KeepsStart`).

The reads are listed beside the functions (`lookupReads`, `createReads`, `removeReads`,
`iterateReads`) because the model itself stops at a bad read: a list of positions can be
compared with the number of slots also where the model goes no further.
-/

namespace Tklb

open Foundation HandleFormat HandleSession

namespace HandleBuffer

variable {F : HandleFormat} {T : Type}

/-! ### The positions -/

/-- The positions at which `at` indexes `mElements`. -/
def lookupReads (s : HandleBuffer F T) (handle : F.Handle) : List ℕ :=
  if handle = F.invalidHandle then []
  else
    let index := handle &&& F.maskIndex
    if s.mElements.length < index.toNat then [] else [index.toNat]

/-- The positions at which `remove` does: those of `at`, and the slot that is found. -/
def removeReads (s : HandleBuffer F T) (handle : F.Handle) : List ℕ :=
  s.lookupReads handle ++
    match s.atHandle handle with
    | some (some _) => [(handle &&& F.maskIndex).toNat]
    | _ => []

/-- The positions at which `create` does. -/
def createReads (s : HandleBuffer F T) : List ℕ :=
  if s.mStart = F.maskIndex then [] else [s.mStart.toNat]

/-- The positions at which the loop of `iterate` does, from slot `i` on. -/
def iterateReadsFrom (i : ℕ) (itemsLeft : F.Handle) : List (Element F T) → List ℕ
  | [] => []
  | element :: rest =>
      if itemsLeft = 0 then []
      else
        i :: iterateReadsFrom (i + 1)
          (if element.next &&& F.maskGeneration ≠ F.maskGeneration then itemsLeft - 1#F.handleBits
          else itemsLeft) rest

/-- The positions at which `iterate` does. -/
def iterateReads (s : HandleBuffer F T) : List ℕ :=
  iterateReadsFrom 0 s.itemsLeft s.mElements

/-- **The calls index slots only**: a handle of no slot is turned away, and a buffer
without slots creates nothing. -/
structure InBounds [Inhabited T] (s : HandleBuffer F T) (handle : F.Handle) : Prop where
  lookup : ∀ i ∈ s.lookupReads handle, i < s.mElements.length
  remove : ∀ i ∈ s.removeReads handle, i < s.mElements.length
  create : ∀ i ∈ s.createReads, i < s.mElements.length
  iterate : ∀ i ∈ s.iterateReads, i < s.mElements.length
  outOfRange : s.mElements.length ≤ F.index handle →
    s.atHandle handle = some none ∧ s.has handle = some false ∧
      s.remove handle = some (false, s)
  noSlots : s.mElements = [] → s.create = some (F.invalidHandle, s)

/-- What `create` can index: the slot at the head of the free list, if there is one. -/
def StartFits (s : HandleBuffer F T) : Prop :=
  s.mStart = F.maskIndex ∨ s.mStart.toNat < s.mElements.length

/-! ### One call -/

section Calls

variable {s : HandleBuffer F T} {h : F.Handle}

theorem mem_lookupReads (hne : h ≠ F.invalidHandle) {i : ℕ} :
    i ∈ s.lookupReads h ↔ i = F.index h ∧ F.index h ≤ s.mElements.length := by
  unfold lookupReads
  rw [if_neg hne]
  change i ∈ (if s.mElements.length < F.index h then [] else [F.index h]) ↔ _
  split
  · rename_i hout
    refine iff_of_false List.not_mem_nil fun hin => ?_
    omega
  · rename_i hin
    rw [List.mem_singleton]
    exact ⟨fun hi => ⟨hi, not_lt.mp hin⟩, And.left⟩

/-- Every position `remove` reads is one that `at` reads. -/
theorem mem_lookupReads_of_removeReads {i : ℕ} (hi : i ∈ s.removeReads h) :
    i ∈ s.lookupReads h := by
  rcases List.mem_append.mp hi with hlookup | hslot
  · exact hlookup
  · split at hslot
    · rename_i found hat
      obtain ⟨-, e, he, -⟩ := atHandle_some hat
      have hlt := (List.getElem?_eq_some_iff.mp he).1
      have hne : h ≠ F.invalidHandle := by
        rintro rfl
        simp [atHandle] at hat
      exact (mem_lookupReads hne).mpr ⟨List.mem_singleton.mp hslot, hlt.le⟩
    · exact absurd hslot List.not_mem_nil

/-- A handle of no slot finds nothing, unless it is the one behind the last. -/
theorem atHandle_of_lt (hlt : s.mElements.length < F.index h) : s.atHandle h = some none := by
  unfold atHandle
  split
  · rfl
  · exact if_pos hlt

/-- The loop of `iterate` ends with the slots. -/
theorem iterateReadsFrom_lt {es : List (Element F T)} {i : ℕ} {left : F.Handle} :
    ∀ j ∈ iterateReadsFrom i left es, i ≤ j ∧ j < i + es.length := by
  induction es generalizing i left with
  | nil =>
      intro j hj
      exact absurd hj List.not_mem_nil
  | cons e es ih =>
      intro j hj
      rw [iterateReadsFrom] at hj
      rw [List.length_cons]
      split at hj
      · exact absurd hj List.not_mem_nil
      · rcases List.mem_cons.mp hj with rfl | hrest
        · omega
        · have := ih j hrest
          omega

theorem iterateReads_lt : ∀ i ∈ s.iterateReads, i < s.mElements.length := by
  intro i hi
  have := (iterateReadsFrom_lt i hi).2
  omega

/-- **All calls stay inside** if and only if the handle is not the one behind the last slot
and `mStart` is a slot or `MaskIndex`. -/
theorem inBounds_iff [Inhabited T] (hmask : F.index h ≠ F.maskIndex.toNat) :
    s.InBounds h ↔ F.index h ≠ s.mElements.length ∧ s.StartFits := by
  have hne : h ≠ F.invalidHandle := by
    rintro rfl
    exact hmask (by simp [index, invalidHandle])
  constructor
  · intro hin
    refine ⟨fun hlast => ?_, ?_⟩
    · have := hin.lookup _ ((mem_lookupReads hne).mpr ⟨rfl, hlast.le⟩)
      omega
    · by_cases hfull : s.mStart = F.maskIndex
      · exact Or.inl hfull
      · refine Or.inr (hin.create _ ?_)
        rw [createReads, if_neg hfull]
        exact List.mem_singleton_self _
  · rintro ⟨hlast, hstart⟩
    have hlookup : ∀ i ∈ s.lookupReads h, i < s.mElements.length := by
      intro i hi
      obtain ⟨rfl, hle⟩ := (mem_lookupReads hne).mp hi
      omega
    refine ⟨hlookup, fun i hi => hlookup i (mem_lookupReads_of_removeReads hi), ?_,
      iterateReads_lt, fun hout => ?_, fun hnone => ?_⟩
    · intro i hi
      unfold createReads at hi
      split at hi
      · exact absurd hi List.not_mem_nil
      · rename_i hslot
        obtain rfl := List.mem_singleton.mp hi
        exact hstart.resolve_left hslot
    · have hat := atHandle_of_lt (s := s) (h := h) (by omega)
      refine ⟨hat, has_of_atHandle hat, ?_⟩
      rw [HandleBuffer.remove, hat]
      rfl
    · refine create_of_full (hstart.resolve_right fun hlt => ?_)
      rw [hnone] at hlt
      exact Nat.not_lt_zero _ hlt

end Calls

/-! ### Whole runs -/

/-- One call, the reply left out. -/
def step [Inhabited T] (s : HandleBuffer F T) (call : HandleRequest F) :
    Option (HandleBuffer F T) :=
  (s.perform call).map Prod.snd

/-- A `resize` leaves the head of the free list inside.  A `resize` does not move it, so it is for
the caller to see that there are slots enough. -/
def KeepsStart (s : HandleBuffer F T) : HandleRequest F → Prop
  | .resize size => s.mStart = F.maskIndex ∨ s.mStart.toNat < size.toNat
  | _ => True

/-- No link of a slot leads outside, and the first one does not either.  A buffer without slots is
left out of the first condition, as no index is inside of it. -/
structure Linked (s : HandleBuffer F T) : Prop where
  start : s.mElements ≠ [] → s.StartFits
  links : ∀ word ∈ s.words, word &&& F.maskIndex = F.maskIndex ∨
    (word &&& F.maskIndex).toNat < s.mElements.length

theorem Linked.of_empty : (empty : HandleBuffer F T).Linked where
  start h := absurd rfl h
  links _ hword := absurd hword List.not_mem_nil

/-- A link that is not the end of the list is no more than its word. -/
theorem link_lt {word : F.Handle} {n : ℕ} (h : word.toNat < n) :
    (word &&& F.maskIndex).toNat < n :=
  lt_of_le_of_lt (by rw [BitVec.toNat_and]; exact Nat.and_le_left) h

/-- The words `resize` writes link slots. -/
theorem linked_freshWords {n : F.Handle} :
    ∀ word ∈ (freshWords n : List F.Handle), word &&& F.maskIndex = F.maskIndex ∨
      (word &&& F.maskIndex).toNat < n.toNat := by
  intro word hword
  obtain ⟨i, hi, rfl⟩ := List.mem_map.mp hword
  rw [List.mem_range] at hi
  split
  · exact Or.inl BitVec.and_self
  · refine Or.inr (link_lt ?_)
    rw [BitVec.toNat_ofNat]
    exact (Nat.mod_le _ _).trans_lt (by omega)

section Run

variable {s t : HandleBuffer F T}

/-- `create` moves the start along a link. -/
theorem Linked.create (hs : s.Linked) {handle : F.Handle} [Inhabited T]
    (hcall : s.create = some (handle, t)) : t.Linked := by
  rcases create_cases hcall with ⟨-, -, rfl⟩ | ⟨-, e, he, -, rfl⟩
  · exact hs
  · have hlink := hs.links e.next (List.mem_of_getElem? (word_of_slot he))
    refine ⟨fun _ => ?_, fun word hmem => ?_⟩
    · rw [StartFits, List.length_set]
      exact hlink
    · -- `create` writes the word back
      rw [words_set_next he] at hmem
      rw [List.length_set]
      exact hs.links word hmem

/-- `remove` links a slot to itself. -/
theorem Linked.remove (hs : s.Linked) {handle : F.Handle} {ok : Bool}
    (hcall : s.remove handle = some (ok, t)) : t.Linked := by
  rcases remove_cases hcall with ⟨-, -, rfl⟩ | ⟨-, -, e, he, -, -, rfl⟩
  · exact hs
  · have hlt : F.index handle < s.mElements.length := (List.getElem?_eq_some_iff.mp he).1
    refine ⟨fun _ => Or.inr ?_, fun word hmem => ?_⟩
    · rw [List.length_set]
      exact hlt
    · rw [words_set] at hmem
      rw [List.length_set]
      rcases List.mem_or_eq_of_mem_set hmem with hold | rfl
      · exact hs.links word hold
      · rw [or_bumpGeneration_index]
        exact Or.inr hlt

/-- `resize` links all slots anew, and keeps the start. -/
theorem linked_resize [Inhabited T] {size : F.Handle}
    (hkeeps : s.mStart = F.maskIndex ∨ s.mStart.toNat < size.toNat)
    (hcall : s.resize size = some t) : t.Linked := by
  obtain ⟨hwords, hstart, -⟩ := resize_eq_some hcall
  have hlen : t.mElements.length = size.toNat := by
    rw [← length_words, hwords, length_freshWords]
  refine ⟨fun _ => ?_, fun word hmem => ?_⟩
  · rw [StartFits, hstart, hlen]
    exact hkeeps
  · rw [hlen]
    exact linked_freshWords word (hwords ▸ hmem)

variable [Inhabited T]

/-- **One call** leaves no link outside.  The links that are written lead to the slot itself or, in
`resize`, to the next slot or nowhere; and `KeepsStart` is needed since `resize` does not write
`mStart`. -/
theorem Linked.step (hs : s.Linked) {call : HandleRequest F} (hkeeps : s.KeepsStart call)
    (hstep : s.step call = some t) : t.Linked := by
  obtain ⟨⟨reply, b⟩, hperform, hb⟩ := Option.map_eq_some_iff.mp hstep
  obtain rfl : b = t := hb
  cases call with
  | create =>
      obtain ⟨⟨handle, c⟩, hcall, hc⟩ := Option.map_eq_some_iff.mp hperform
      obtain ⟨-, rfl⟩ := Prod.mk.inj hc
      exact hs.create hcall
  | remove handle =>
      obtain ⟨⟨ok, c⟩, hcall, hc⟩ := Option.map_eq_some_iff.mp hperform
      obtain ⟨-, rfl⟩ := Prod.mk.inj hc
      exact hs.remove hcall
  | resize size =>
      obtain ⟨c, hcall, hc⟩ := Option.map_eq_some_iff.mp hperform
      obtain ⟨-, rfl⟩ := Prod.mk.inj hc
      exact linked_resize hkeeps hcall
  | lookup handle =>
      obtain ⟨slot, -, hc⟩ := Option.map_eq_some_iff.mp hperform
      obtain ⟨-, rfl⟩ := Prod.mk.inj hc
      exact hs
  | iterate =>
      obtain ⟨-, rfl⟩ := Prod.mk.inj (Option.some.inj hperform)
      exact hs
  | counts =>
      obtain ⟨-, rfl⟩ := Prod.mk.inj (Option.some.inj hperform)
      exact hs

/-- **Which slots are read.**  In every state, and for every handle whose index is not
`MaskIndex`, all calls index slots only if and only if the handle is not the one behind the
last slot and `mStart` is a slot or `MaskIndex`.  So they do for all other handles, in every
buffer with slots that a run leads to, if each `resize` of the run finds `MaskIndex`, or less
than the new number of slots, in `mStart`. -/
theorem inBounds_iff_of_run {h : F.Handle} (hmask : F.index h ≠ F.maskIndex.toNat) :
    (s.InBounds h ↔ F.index h ≠ s.mElements.length ∧ s.StartFits) ∧
      ∀ calls, Run (Guarded (StepOf HandleBuffer.step) KeepsStart) empty calls s →
        s.mElements ≠ [] → F.index h ≠ s.mElements.length → s.InBounds h := by
  refine ⟨inBounds_iff hmask, fun calls hrun hslots hlast => ?_⟩
  have hlinked : s.Linked := hrun.invariant (I := Linked)
    (fun _ _ _ hs hstep => hs.step hstep.1 hstep.2) Linked.of_empty
  exact (inBounds_iff hmask).mpr ⟨hlast, hlinked.start hslots⟩

/-- Two slots, one of them created. -/
theorem inBounds_iff_of_run_two_slots :
    ∃ s : HandleBuffer default32 Unit,
      Run (Guarded (StepOf HandleBuffer.step) KeepsStart) empty [.resize 2, .create] s ∧
        s.InBounds 0#32 := by
  have hrun : ∃ s : HandleBuffer default32 Unit,
      Run (Guarded (StepOf HandleBuffer.step) KeepsStart) empty [.resize 2, .create] s ∧
        s.mElements.length = 2 :=
    ⟨_, Run.cons ⟨Or.inr (by decide), rfl⟩ (Run.cons ⟨trivial, rfl⟩ (Run.nil _)), rfl⟩
  obtain ⟨s, hcalls, hlen⟩ := hrun
  refine ⟨s, hcalls, (inBounds_iff_of_run (by decide)).2 _ hcalls ?_ (by rw [hlen]; decide)⟩
  exact List.ne_nil_of_length_pos (by omega)

/-- A default constructed buffer reads slot `0` to create, a buffer of two slots reads the
third to look up the handle `2`; and after its slots were created, a buffer that is resized
from three slots to one reads the third to create. -/
theorem not_inBounds :
    ¬ (empty : HandleBuffer default32 Unit).InBounds 1#32 ∧
      (∃ s : HandleBuffer default32 Unit,
        Run (StepOf HandleBuffer.step) empty [.resize 2] s ∧ ¬ s.InBounds 2#32) ∧
      ∃ s : HandleBuffer default32 Unit,
        Run (StepOf HandleBuffer.step) empty [.resize 3, .create, .create, .resize 1] s ∧
          ¬ s.InBounds 0#32 := by
  refine ⟨fun h => ?_, ⟨_, Run.cons rfl (Run.nil _), fun h => ?_⟩,
    ⟨_, Run.of_foldlM rfl, fun h => ?_⟩⟩
  · exact absurd (h.create 0 (by decide)) (by decide)
  · exact absurd (h.lookup 2 (by decide)) (by decide)
  · exact absurd (h.create 2 (by decide)) (by decide)

end Run

end HandleBuffer

end Tklb
