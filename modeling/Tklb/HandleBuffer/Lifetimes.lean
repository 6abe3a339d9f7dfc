import Tklb.Foundation.Ledger
import Tklb.HandleBuffer.Bounds

/-!
# The elements of a `HandleBuffer` as objects

A slot is raw storage for a `T`, so a `T` lives from the placement `new` of `create` to the
destructor call of `remove`; `resize` and the destructor of the buffer destroy nothing.
`HandleLives` follows the objects: each is named by the number of those constructed before
it, and a slot remembers the last one that was constructed in it.

An object outlives the buffer unless its handle is removed first, and a second object is
constructed over it if `create` is called twice after a removal: the removed slot is linked
to itself.  Clients that avoid both (`Orderly`) keep the books balanced (`Balanced.step`):
every object is destroyed, exactly once, or lives in one slot.

### How the file is organized

* `HandleLives` adds the objects to a buffer.  It does not change what the buffer does.
* `HandlePhase` is the little that has to be remembered of a run to say which call may come
  next, and `Orderly` says which.
* `Created`, `Removed` and `Resized` are the three ways in which a call can change the state;
  `Balanced.step` is proved for each of them, not for each branch of the code.
* `destroyedOnce_of_run` puts the run and the destructor of the buffer together.

### What is load-bearing

The destructor destroys nothing.  So every object that is alive at the end is one that nobody
destroys, and the books can only balance for a client that removes all it has created
(`AllFree`).  The other half, that no object is constructed over a live one, rests on the shape
of the free list in each phase (`Shaped`).
-/

namespace Tklb

open Foundation HandleFormat HandleSession HandleBuffer

/-- What happened to the buffer since the last `resize`: no removal was accepted, the last
call that was is a removal, or it is a creation after one. -/
inductive HandlePhase
  | filling
  | removed
  | created
  deriving DecidableEq

/-- A buffer and the objects of its elements.  Objects are named by the order of their construction;
a slot has the last one that was constructed in it, until it is destroyed. -/
structure HandleLives (F : HandleFormat) (T : Type) where
  buffer : HandleBuffer F T
  /-- Objects constructed so far. -/
  issued : ℕ
  /-- The object constructed last in the storage of a slot. -/
  object : ℕ → Option ℕ
  /-- The objects whose destructor was called, once for each call. -/
  destroyed : List ℕ
  /-- The objects another one was constructed over while they were alive. -/
  overwritten : List ℕ
  /-- The handles returned since the last `resize`. -/
  returned : List F.Handle
  phase : HandlePhase

namespace HandleLives

variable {F : HandleFormat} {T : Type}

/-- A default constructed buffer. -/
def start : HandleLives F T := ⟨.empty, 0, fun _ => none, [], [], [], .filling⟩

/-- The object that is alive in the slot. -/
def held (s : HandleLives F T) (i : ℕ) : Option ℕ :=
  (s.object i).filter fun a => a ∉ s.destroyed

/-- The objects that are alive in the slots. -/
def live (s : HandleLives F T) : List ℕ :=
  (List.range s.buffer.mElements.length).filterMap s.held

/-- One call. -/
def exec [Inhabited T] (s : HandleLives F T) : HandleRequest F → Option (HandleLives F T)
  | .create => s.buffer.create.map fun (h, b) =>
      let slot := s.buffer.mStart.toNat
      if s.buffer.mStart = F.maskIndex then { s with buffer := b }
      else
        { buffer := b
          issued := s.issued + 1
          object := Function.update s.object slot (some s.issued)
          destroyed := s.destroyed
          overwritten := (s.held slot).toList ++ s.overwritten
          returned := h :: s.returned
          phase := if s.phase = .filling then .filling else .created }
  | .remove h => (s.buffer.remove h).map fun (ok, b) =>
      if ok then
        { s with
          buffer := b
          destroyed := (s.object (F.index h)).toList ++ s.destroyed
          phase := .removed }
      else { s with buffer := b }
  | .resize size => (s.buffer.resize size).map fun b =>
      -- the storage of the remaining slots is copied, and no destructor is called
      { s with
        buffer := b
        object := fun i =>
          if i < min size.toNat s.buffer.mElements.length then s.object i else none
        returned := []
        phase := .filling }
  | call => (s.buffer.perform call).map fun _ => s

/-- The destructor of the buffer: the storage of the slots is freed. -/
def destruct (s : HandleLives F T) : HandleLives F T :=
  { s with buffer := .empty, object := fun _ => none }

/-- **Every object was destroyed exactly once**, and none was constructed over another that was
alive.  The first half alone would not do, since an object that is constructed over another leaves
that one undestroyed. -/
structure DestroyedOnce (s : HandleLives F T) : Prop where
  once : ∀ a < s.issued, s.destroyed.count a = 1
  fresh : s.overwritten = []

/-- `free() == size()` -/
def AllFree (s : HandleLives F T) : Prop :=
  s.buffer.mFree.toNat = s.buffer.mElements.length

/-- After a removal, creations alternate with removals; no other handles than those returned
since the last `resize` are removed; and a buffer is resized, to fewer than `MaskIndex`
slots, when all its slots are free.  `create` and `at` find the slots they read. -/
def Orderly (s : HandleLives F T) : HandleRequest F → Prop
  | .create => s.buffer.StartFits ∧ s.phase ≠ .created
  | .remove h => h ∈ s.returned ∨ s.buffer.has h = some false
  | .resize size => 0 < size.toNat ∧ size.toNat < F.maskIndex.toNat ∧ s.AllFree
  | .lookup h => (s.buffer.has h).isSome
  | _ => True

instance (s : HandleLives F T) (call : HandleRequest F) : Decidable (s.Orderly call) := by
  cases call <;> unfold Orderly <;> unfold StartFits AllFree <;> infer_instance

/-- The free list in each phase.  While the buffer is filling, the slots from `mStart` on are
linked one to the next; after a removal, `mStart` is linked to itself. -/
def Shaped (s : HandleLives F T) : Prop :=
  match s.phase with
  | .filling => (∃ size, size.toNat = s.buffer.mElements.length ∧
      s.buffer.words = freshWords size) ∧
      ∀ i < s.buffer.mElements.length, s.buffer.mStart.toNat ≤ i → s.held i = none
  | .removed => s.buffer.link s.buffer.mStart = s.buffer.mStart ∧
      s.held s.buffer.mStart.toNat = none
  | .created => s.buffer.mStart.toNat < s.buffer.mElements.length ∧
      (s.held s.buffer.mStart.toNat).isSome

/-- The books of the objects.  Each object is destroyed, or alive in one slot; the slots that are
not free are those with a living object; and the links are those of the phase. -/
structure Balanced (s : HandleLives F T) : Prop where
  bounded : s.buffer.mElements.length < F.maskIndex.toNat
  ledger : Ledger s.issued s.destroyed s.live
  fresh : s.overwritten = []
  free : s.buffer.mFree.toNat + s.live.length = s.buffer.mElements.length
  /-- A handle its slot resolves is the one of the object that lives there. -/
  known : ∀ h ∈ s.returned, ∃ e, s.buffer.mElements[F.index h]? = some e ∧
    F.generation h ≤ F.generation e.next ∧
    (F.generation h = F.generation e.next → (s.held (F.index h)).isSome)
  shaped : s.Shaped

/-! ### The objects in the slots -/

section Objects

variable {s t : HandleLives F T} {k n : ℕ}

/-- One slot and the others. -/
theorem live_perm (s : HandleLives F T) (hn : s.buffer.mElements.length = n) (hk : k < n) :
    s.live.Perm ((s.held k).toList ++ ((List.range n).erase k).filterMap s.held) := by
  rw [live, hn]
  exact filterMap_perm_erase s.held (List.mem_range.mpr hk)

theorem erase_congr (h : ∀ i ≠ k, t.held i = s.held i) :
    ((List.range n).erase k).filterMap t.held = ((List.range n).erase k).filterMap s.held :=
  filterMap_erase_congr List.nodup_range fun j _ hj => h j hj

/-- An object is constructed in a slot without one. -/
theorem ledger_create (hledger : Ledger s.issued s.destroyed s.live)
    (hs : s.buffer.mElements.length = n) (ht : t.buffer.mElements.length = n) (hk : k < n)
    (hnone : s.held k = none) (hdestroyed : t.destroyed = s.destroyed)
    (hself : t.held k = some s.issued) (hother : ∀ i ≠ k, t.held i = s.held i) :
    Ledger (s.issued + 1) t.destroyed t.live ∧ t.live.length = s.live.length + 1 ∧
      s.live.length < n := by
  have hbefore := s.live_perm hs hk
  have hafter := t.live_perm ht hk
  rw [hnone, Option.toList_none, List.nil_append] at hbefore
  rw [hself, Option.toList_some, erase_congr hother] at hafter
  refine ⟨?_, ?_, ?_⟩
  · rw [hdestroyed]
    refine (hledger.issue 1).perm (List.Perm.refl _) (hafter.trans ?_)
    exact (List.perm_append_comm).trans (hbefore.symm.append_right _)
  · rw [hafter.length_eq, hbefore.length_eq, List.singleton_append, List.length_cons]
  · have herase : ((List.range n).erase k).length = n - 1 := by
      rw [List.length_erase_of_mem (List.mem_range.mpr hk), List.length_range]
    have hle := List.length_filterMap_le s.held ((List.range n).erase k)
    rw [hbefore.length_eq]
    omega

/-- An object lives in one slot only. -/
theorem held_ne (hledger : Ledger s.issued s.destroyed s.live)
    (hs : s.buffer.mElements.length = n) (hk : k < n) {a i : ℕ} (hself : s.held k = some a)
    (hi : i < n) (hne : i ≠ k) : s.held i ≠ some a := by
  intro hsame
  have hnodup := (s.live_perm hs hk).nodup_iff.mp hledger.held_nodup
  rw [hself, Option.toList_some, List.singleton_append, List.nodup_cons] at hnodup
  refine hnodup.1 (List.mem_filterMap.mpr ⟨i, ?_, hsame⟩)
  exact (List.mem_erase_of_ne hne).mpr (List.mem_range.mpr hi)

/-- The object of a slot is destroyed. -/
theorem ledger_remove (hledger : Ledger s.issued s.destroyed s.live)
    (hs : s.buffer.mElements.length = n) (ht : t.buffer.mElements.length = n) (hk : k < n)
    {a : ℕ} (hself : s.held k = some a) (hdestroyed : t.destroyed = a :: s.destroyed)
    (hnone : t.held k = none) (hother : ∀ i < n, i ≠ k → t.held i = s.held i) :
    Ledger s.issued t.destroyed t.live ∧ t.live.length + 1 = s.live.length := by
  have hbefore := s.live_perm hs hk
  have hafter := t.live_perm ht hk
  have hrest : ((List.range n).erase k).filterMap t.held =
      ((List.range n).erase k).filterMap s.held :=
    filterMap_erase_congr List.nodup_range fun j hj hne => hother j (List.mem_range.mp hj) hne
  rw [hself, Option.toList_some] at hbefore
  rw [hnone, Option.toList_none, List.nil_append, hrest] at hafter
  constructor
  · rw [hdestroyed]
    exact (hledger.perm (List.Perm.refl _) hbefore.symm).settle.perm (List.Perm.refl _) hafter
  · rw [hafter.length_eq, hbefore.length_eq, List.singleton_append, List.length_cons]

theorem held_of_live_nil (h : s.live = []) {i : ℕ} (hi : i < s.buffer.mElements.length) :
    s.held i = none := by
  cases hheld : s.held i with
  | none => rfl
  | some a =>
      have hmem : a ∈ s.live := List.mem_filterMap.mpr ⟨i, List.mem_range.mpr hi, hheld⟩
      rw [h] at hmem
      exact absurd hmem List.not_mem_nil

theorem live_nil_of_held (h : ∀ i, s.held i = none) : s.live = [] :=
  List.filterMap_eq_nil_iff.mpr fun i _ => h i

end Objects

/-! ### What the calls do -/

/-- An object was constructed in the slot `mStart`, whose word is `e.next`. -/
structure Created (s t : HandleLives F T) (e : Element F T) : Prop where
  slot : s.buffer.mStart ≠ F.maskIndex
  word : s.buffer.mElements[s.buffer.mStart.toNat]? = some e
  words : t.buffer.words = s.buffer.words
  start : t.buffer.mStart = e.next &&& F.maskIndex
  free : t.buffer.mFree = s.buffer.mFree - 1#F.handleBits
  issued : t.issued = s.issued + 1
  object : t.object = Function.update s.object s.buffer.mStart.toNat (some s.issued)
  destroyed : t.destroyed = s.destroyed
  overwritten : t.overwritten = (s.held s.buffer.mStart.toNat).toList ++ s.overwritten
  returned : t.returned = (s.buffer.mStart ||| (e.next &&& F.maskGeneration)) :: s.returned
  phase : t.phase = if s.phase = .filling then .filling else .created

/-- The object of the slot of `h`, whose word was `e.next`, was destroyed. -/
structure Removed (s t : HandleLives F T) (h : F.Handle) (e : Element F T) : Prop where
  word : s.buffer.mElements[F.index h]? = some e
  generation : F.generation h = F.generation e.next
  resolved : F.generation e.next ≠ 2 ^ F.generationBits - 1
  words : t.buffer.words =
    s.buffer.words.set (F.index h) (bumpGeneration e.next ||| (h &&& F.maskIndex))
  start : t.buffer.mStart = h &&& F.maskIndex
  free : t.buffer.mFree = s.buffer.mFree + 1#F.handleBits
  issued : t.issued = s.issued
  object : t.object = s.object
  destroyed : t.destroyed = (s.object (F.index h)).toList ++ s.destroyed
  overwritten : t.overwritten = s.overwritten
  returned : t.returned = s.returned
  phase : t.phase = .removed

/-- The slots were linked anew. -/
structure Resized (s t : HandleLives F T) (size : F.Handle) : Prop where
  words : t.buffer.words = freshWords size
  free : t.buffer.mFree = size
  issued : t.issued = s.issued
  object : ∀ i, t.object i =
    if i < min size.toNat s.buffer.mElements.length then s.object i else none
  destroyed : t.destroyed = s.destroyed
  overwritten : t.overwritten = s.overwritten
  returned : t.returned = []
  phase : t.phase = .filling

section Cases

variable [Inhabited T] {s t : HandleLives F T}

theorem create_cases (hstep : s.exec .create = some t) :
    (s.buffer.mStart = F.maskIndex ∧ t = s) ∨ ∃ e, Created s t e := by
  obtain ⟨⟨h, b⟩, hcall, ht⟩ := Option.map_eq_some_iff.mp hstep
  dsimp only at ht
  rcases HandleBuffer.create_cases hcall with ⟨hfull, -, rfl⟩ | ⟨hslot, e, he, rfl, rfl⟩
  · rw [if_pos hfull] at ht
    exact Or.inl ⟨hfull, ht.symm⟩
  · rw [if_neg hslot] at ht
    subst ht
    -- `create` writes the word back
    exact Or.inr ⟨e, hslot, he, words_set_next he, rfl, rfl, rfl, rfl, rfl, rfl, rfl, rfl⟩

theorem remove_cases {h : F.Handle} (hstep : s.exec (.remove h) = some t) :
    (s.buffer.has h = some false ∧ t = s) ∨
      s.buffer.has h = some true ∧ ∃ e, Removed s t h e := by
  obtain ⟨⟨ok, b⟩, hcall, ht⟩ := Option.map_eq_some_iff.mp hstep
  dsimp only at ht
  rcases HandleBuffer.remove_cases hcall with
    ⟨rfl, hhas, rfl⟩ | ⟨rfl, hhas, e, he, hgen, hres, rfl⟩
  · exact Or.inl ⟨hhas, ht.symm⟩
  · subst ht
    exact Or.inr ⟨hhas, e, he, hgen, hres, words_set, rfl, rfl, rfl, rfl, rfl, rfl, rfl, rfl⟩

theorem resize_cases {size : F.Handle} (hstep : s.exec (.resize size) = some t) :
    Resized s t size := by
  obtain ⟨b, hcall, rfl⟩ := Option.map_eq_some_iff.mp hstep
  obtain ⟨hwords, -, hfree⟩ := resize_eq_some hcall
  exact ⟨hwords, hfree, rfl, fun i => rfl, rfl, rfl, rfl, rfl⟩

omit [Inhabited T] in
/-- Looking at the buffer changes nothing. -/
theorem eq_of_perform {r : Option (HandleReply F × HandleBuffer F T)}
    (hstep : (r.map fun _ => s) = some t) : t = s := by
  obtain ⟨_, -, ht⟩ := Option.map_eq_some_iff.mp hstep
  exact ht.symm

end Cases

section Shape

variable {s t : HandleLives F T} {e : Element F T}

theorem exists_slot {i : ℕ} {word : F.Handle} (hword : t.buffer.words[i]? = some word) :
    ∃ e', t.buffer.mElements[i]? = some e' ∧ e'.next = word := by
  rw [words_getElem?] at hword
  exact Option.map_eq_some_iff.mp hword

theorem length_of_words {words : List F.Handle} (h : s.buffer.words = words) :
    s.buffer.mElements.length = words.length := by rw [← h, length_words]

theorem Created.length (h : Created s t e) :
    t.buffer.mElements.length = s.buffer.mElements.length := by
  rw [length_of_words h.words, length_words]

theorem Created.start_lt (h : Created s t e) :
    s.buffer.mStart.toNat < s.buffer.mElements.length :=
  (List.getElem?_eq_some_iff.mp h.word).1

theorem Created.held_of_ne (h : Created s t e) {i : ℕ} (hi : i ≠ s.buffer.mStart.toNat) :
    t.held i = s.held i := by
  rw [held, held, h.object, h.destroyed, Function.update_of_ne hi]

theorem Removed.length {handle : F.Handle} (h : Removed s t handle e) :
    t.buffer.mElements.length = s.buffer.mElements.length := by
  rw [length_of_words h.words, List.length_set, length_words]

/-- The word of the removed slot is its index, of the next generation. -/
theorem Removed.exists_word {handle : F.Handle} (h : Removed s t handle e) :
    ∃ e', t.buffer.mElements[F.index handle]? = some e' ∧
      e'.next = bumpGeneration e.next ||| (handle &&& F.maskIndex) := by
  have hlt : F.index handle < s.buffer.words.length := by
    rw [length_words]
    exact (List.getElem?_eq_some_iff.mp h.word).1
  have hword := congrArg (fun words => words[F.index handle]?) h.words
  rw [List.getElem?_set_self hlt] at hword
  exact exists_slot hword

/-- The removed slot is linked to itself. -/
theorem Removed.link {handle : F.Handle} (h : Removed s t handle e) :
    t.buffer.link t.buffer.mStart = t.buffer.mStart := by
  have hstart : t.buffer.mStart.toNat = F.index handle := by rw [h.start]; rfl
  obtain ⟨e', he', hnext⟩ := h.exists_word
  rw [HandleBuffer.link, hstart, he', Option.elim_some, hnext, h.start,
    or_bumpGeneration_index]

/-- Its generation is the next one. -/
theorem Removed.exists_next {handle : F.Handle} (h : Removed s t handle e)
    (hmask : 0 < F.maskBits) : ∃ e', t.buffer.mElements[F.index handle]? = some e' ∧
      F.generation e'.next = F.generation e.next + 1 := by
  obtain ⟨e', he', hnext⟩ := h.exists_word
  refine ⟨e', he', ?_⟩
  rw [hnext]
  exact F.generation_or (F.index_lt handle) (bumpGeneration_toNat hmask h.resolved)

theorem Removed.index_lt {handle : F.Handle} (h : Removed s t handle e) :
    F.index handle < s.buffer.mElements.length :=
  (List.getElem?_eq_some_iff.mp h.word).1

theorem Resized.length {size : F.Handle} (h : Resized s t size) :
    t.buffer.mElements.length = size.toNat := by
  rw [length_of_words h.words, length_freshWords]

/-- Before a removal the words are those `resize` wrote. -/
theorem word_of_fresh {size : F.Handle} (hwords : s.buffer.words = freshWords size)
    (hlen : size.toNat = s.buffer.mElements.length) {i : ℕ} {e : Element F T}
    (he : s.buffer.mElements[i]? = some e) :
    e.next = if i + 1 = s.buffer.mElements.length then F.maskIndex else BitVec.ofNat _ (i + 1) := by
  have hlt := (List.getElem?_eq_some_iff.mp he).1
  have hword := word_of_slot he
  rw [hwords, freshWords_getElem? (by omega), Option.some.injEq, hlen] at hword
  exact hword.symm

end Shape

/-! ### One call keeps the books -/

namespace Balanced

variable {s t : HandleLives F T} {e : Element F T}

/-- The slot `create` takes holds no object, if no other creation followed the last
removal. -/
theorem vacant (hs : s.Balanced) (hphase : s.phase ≠ .created)
    (hlt : s.buffer.mStart.toNat < s.buffer.mElements.length) :
    s.held s.buffer.mStart.toNat = none := by
  have hshaped := hs.shaped
  unfold Shaped at hshaped
  cases hcase : s.phase with
  | filling =>
      rw [hcase] at hshaped
      exact hshaped.2 _ hlt le_rfl
  | removed =>
      rw [hcase] at hshaped
      exact hshaped.2
  | created => exact absurd hcase hphase

/-- The object just constructed is alive. -/
theorem held_start (hs : s.Balanced) (h : Created s t e) :
    t.held s.buffer.mStart.toNat = some s.issued := by
  rw [held, h.object, h.destroyed, Function.update_self, Option.filter_some, if_pos]
  rw [decide_eq_true_eq]
  exact fun hmem => absurd (hs.ledger.settled_lt hmem) (lt_irrefl _)

/-- The free list after a creation. -/
theorem shaped_create (hs : s.Balanced) (hphase : s.phase ≠ .created) (h : Created s t e) :
    t.Shaped := by
  have hmask := F.maskIndex_toNat_lt
  have hbounded := hs.bounded
  have hlt := h.start_lt
  have hshaped := hs.shaped
  unfold Shaped at hshaped ⊢
  cases hcase : s.phase with
  | filling =>
      rw [h.phase, hcase, if_pos rfl]
      rw [hcase] at hshaped
      obtain ⟨⟨size, hsize, hfresh⟩, hnone⟩ := hshaped
      refine ⟨⟨size, by rw [h.length, hsize], by rw [h.words, hfresh]⟩, fun i hi hle => ?_⟩
      rw [h.length] at hi
      -- the link of the slot is the next one, or the end of the list
      rw [h.start, word_of_fresh hfresh hsize h.word] at hle
      split at hle
      · rw [BitVec.and_self] at hle
        omega
      · have hnat := ofNat_toNat_of_lt (F := F) (i := s.buffer.mStart.toNat + 1) (by omega)
        rw [F.and_maskIndex_of_lt (by rw [hnat]; omega), hnat] at hle
        rw [h.held_of_ne (by omega)]
        exact hnone i hi (by omega)
  | removed =>
      rw [h.phase, hcase, if_neg (by decide)]
      rw [hcase] at hshaped
      have hlink := hshaped.1
      rw [HandleBuffer.link, h.word, Option.elim_some] at hlink
      rw [h.start, hlink, h.length, hs.held_start h]
      exact ⟨hlt, rfl⟩
  | created => exact absurd hcase hphase

/-- A creation keeps the books, if no other one followed the last removal. -/
theorem create (hs : s.Balanced) (hphase : s.phase ≠ .created) (h : Created s t e) :
    t.Balanced := by
  have hmask := F.maskIndex_toNat_lt
  have hbounded := hs.bounded
  have hlt := h.start_lt
  have hself := hs.held_start h
  have hvacant := hs.vacant hphase hlt
  obtain ⟨hledger, hcount, hroom⟩ := ledger_create hs.ledger rfl h.length hlt hvacant
    h.destroyed hself fun i hi => h.held_of_ne hi
  refine ⟨by rw [h.length]; exact hbounded, by rw [h.issued]; exact hledger, ?_, ?_, ?_,
    hs.shaped_create hphase h⟩
  · rw [h.overwritten, hvacant, hs.fresh]
    rfl
  · have hfree := hs.free
    rw [h.length, hcount, h.free, toNat_sub_one (by omega)]
    omega
  · intro handle hmem
    rw [h.returned] at hmem
    rcases List.mem_cons.mp hmem with rfl | hold
    · obtain ⟨e', he', hnext⟩ := exists_slot (h.words ▸ word_of_slot h.word)
      rw [F.index_handle (by omega), F.generation_handle (by omega), hself]
      exact ⟨e', he', by rw [hnext], fun _ => rfl⟩
    · obtain ⟨e₁, he₁, hle, hlive⟩ := hs.known handle hold
      obtain ⟨e', he', hnext⟩ := exists_slot (h.words ▸ word_of_slot he₁)
      refine ⟨e', he', by rw [hnext]; exact hle, fun hgen => ?_⟩
      by_cases hk : F.index handle = s.buffer.mStart.toNat
      · rw [hk, hself]
        rfl
      · rw [h.held_of_ne hk]
        exact hlive (by rw [hgen, hnext])

/-- A removal by a known handle destroys the object that is alive in the slot. -/
theorem exists_destroyed {handle : F.Handle} (hs : s.Balanced) (hknown : handle ∈ s.returned)
    (h : Removed s t handle e) : ∃ a, s.held (F.index handle) = some a ∧
      t.destroyed = a :: s.destroyed ∧ t.held (F.index handle) = none := by
  obtain ⟨e₁, he₁, -, hlive⟩ := hs.known handle hknown
  obtain rfl : e = e₁ := Option.some.inj (h.word.symm.trans he₁)
  obtain ⟨a, ha⟩ := Option.isSome_iff_exists.mp (hlive h.generation)
  obtain ⟨hobject, halive⟩ := Option.filter_eq_some_iff.mp ha
  have hdestroyed : t.destroyed = a :: s.destroyed := by
    rw [h.destroyed, hobject, Option.toList_some, List.singleton_append]
  refine ⟨a, ha, hdestroyed, ?_⟩
  rw [held, h.object, hobject, hdestroyed, Option.filter_some, if_neg (by simp)]

/-- The other slots hold what they held. -/
theorem held_removed {handle : F.Handle} (hs : s.Balanced) (h : Removed s t handle e) {a : ℕ}
    (ha : s.held (F.index handle) = some a) (hdestroyed : t.destroyed = a :: s.destroyed) {i : ℕ}
    (hi : i < s.buffer.mElements.length) (hne : i ≠ F.index handle) : t.held i = s.held i := by
  have hdiffer := held_ne hs.ledger rfl h.index_lt ha hi hne
  rw [held, h.object, hdestroyed, held]
  rw [held] at hdiffer
  cases hobject : s.object i with
  | none => rfl
  | some c =>
      rw [hobject] at hdiffer
      rw [Option.filter_some, Option.filter_some] at *
      by_cases hc : c ∈ s.destroyed
      · simp [hc]
      · have hca : c ≠ a := by simpa [hc] using hdiffer
        simp [hc, hca]

/-- A removal keeps the books, if its handle was returned since the last `resize`. -/
theorem remove {handle : F.Handle} (hs : s.Balanced) (hknown : handle ∈ s.returned)
    (h : Removed s t handle e) : t.Balanced := by
  have hmask := F.maskIndex_toNat_lt
  have hbounded := hs.bounded
  obtain ⟨a, ha, hdestroyed, hnone⟩ := hs.exists_destroyed hknown h
  obtain ⟨hledger, hcount⟩ := ledger_remove hs.ledger rfl h.length h.index_lt ha hdestroyed hnone
    fun i hi hne => hs.held_removed h ha hdestroyed hi hne
  have hfree := hs.free
  refine ⟨by rw [h.length]; exact hbounded, by rw [h.issued]; exact hledger,
    by rw [h.overwritten]; exact hs.fresh, ?_, ?_, ?_⟩
  · have hmax := F.maskIndex.isLt
    have hone : (1 : ℕ) < 2 ^ F.handleBits := by omega
    rw [h.length, h.free, BitVec.toNat_add, BitVec.toNat_ofNat, Nat.mod_eq_of_lt hone,
      Nat.mod_eq_of_lt (by omega)]
    omega
  · intro handle' hmem
    rw [h.returned] at hmem
    obtain ⟨e₁, he₁, hle, hlive⟩ := hs.known handle' hmem
    by_cases hk : F.index handle' = F.index handle
    · -- the generation of the slot is above those of all handles of the slot
      obtain ⟨e', he', hgen⟩ := h.exists_next (F.maskBits_pos hbounded)
      rw [hk] at he₁ ⊢
      obtain rfl : e = e₁ := Option.some.inj (h.word.symm.trans he₁)
      exact ⟨e', he', by omega, fun heq => by omega⟩
    · have hword := word_of_slot he₁
      rw [← List.getElem?_set_ne (a := bumpGeneration e.next ||| (handle &&& F.maskIndex))
        (Ne.symm hk), ← h.words] at hword
      obtain ⟨e', he', hnext⟩ := exists_slot hword
      rw [hnext.symm] at hle hlive
      rw [hs.held_removed h ha hdestroyed (List.getElem?_eq_some_iff.mp he₁).1 hk]
      exact ⟨e', he', hle, hlive⟩
  · unfold Shaped
    rw [h.phase]
    refine ⟨h.link, ?_⟩
    rw [h.start]
    exact hnone

/-- A `resize` keeps the books, if all slots are free. -/
theorem resize {size : F.Handle} (hs : s.Balanced) (hsize : size.toNat < F.maskIndex.toNat)
    (hfree : s.AllFree) (h : Resized s t size) : t.Balanced := by
  have hnil : s.live = [] := by
    have := hs.free
    rw [AllFree] at hfree
    exact List.eq_nil_of_length_eq_zero (by omega)
  have hnone : ∀ i, t.held i = none := by
    intro i
    rw [held, h.object, h.destroyed]
    split
    · exact held_of_live_nil hnil (by omega)
    · rfl
  have hlive := live_nil_of_held hnone
  refine ⟨by rw [h.length]; exact hsize, ?_, by rw [h.overwritten]; exact hs.fresh, ?_, ?_, ?_⟩
  · rw [h.issued, h.destroyed, hlive, ← hnil]
    exact hs.ledger
  · rw [hlive, h.free, h.length]
    rfl
  · intro handle hmem
    rw [h.returned] at hmem
    exact absurd hmem List.not_mem_nil
  · unfold Shaped
    rw [h.phase]
    exact ⟨⟨size, h.length.symm, h.words⟩, fun i _ _ => hnone i⟩

/-- **One call** keeps the books.  The phase says what the free list looks like, and the list says
which slot the next creation takes; an orderly call therefore never constructs over an object or
destroys a raw slot. -/
theorem step [Inhabited T] (hs : s.Balanced) {call : HandleRequest F} (hcall : s.Orderly call)
    (hstep : s.exec call = some t) : t.Balanced := by
  cases call with
  | create =>
      rcases create_cases hstep with ⟨-, rfl⟩ | ⟨e, hcreated⟩
      · exact hs
      · exact hs.create hcall.2 hcreated
  | remove handle =>
      rcases remove_cases hstep with ⟨-, rfl⟩ | ⟨hhas, e, hremoved⟩
      · exact hs
      · refine hs.remove (hcall.resolve_right fun hmiss => ?_) hremoved
        rw [hhas] at hmiss
        cases hmiss
  | resize size => exact hs.resize hcall.2.1 hcall.2.2 (resize_cases hstep)
  | lookup handle =>
      obtain rfl := eq_of_perform hstep
      exact hs
  | iterate =>
      obtain rfl := eq_of_perform (r := s.buffer.perform .iterate) hstep
      exact hs
  | counts =>
      obtain rfl := eq_of_perform (r := s.buffer.perform .counts) hstep
      exact hs

/-- The slot of a known handle can be read. -/
theorem exists_has (hs : s.Balanced) {handle : F.Handle} (hknown : handle ∈ s.returned) :
    ∃ ok, s.buffer.has handle = some ok := by
  by_cases hne : handle = F.invalidHandle
  · exact ⟨_, has_of_atHandle (if_pos hne)⟩
  · obtain ⟨e, he, -⟩ := hs.known handle hknown
    exact ⟨_, has_of_atHandle (atHandle_eq hne he)⟩

theorem exists_exec [Inhabited T] (hs : s.Balanced) {call : HandleRequest F}
    (hcall : s.Orderly call) : ∃ t, s.exec call = some t := by
  cases call with
  | create =>
      rcases hcall.1 with hfull | hlt
      · exact ⟨_, by rw [exec, create_of_full hfull, Option.map_some]⟩
      · by_cases hfull : s.buffer.mStart = F.maskIndex
        · exact ⟨_, by rw [exec, create_of_full hfull, Option.map_some]⟩
        · have hslot := create_of_slot hfull (List.getElem?_eq_getElem hlt)
          exact ⟨_, by rw [exec, hslot, Option.map_some]⟩
  | remove handle =>
      obtain ⟨ok, hok⟩ : ∃ ok, s.buffer.has handle = some ok :=
        hcall.elim hs.exists_has fun hmiss => ⟨false, hmiss⟩
      obtain ⟨b, hb⟩ := remove_of_has hok
      exact ⟨_, by rw [exec, hb, Option.map_some]⟩
  | resize size =>
      obtain ⟨b, hb, -⟩ := s.buffer.resize_spec hcall.1
      exact ⟨_, by rw [exec, hb, Option.map_some]⟩
  | lookup handle =>
      obtain ⟨ok, hok⟩ := Option.isSome_iff_exists.mp hcall
      obtain ⟨found, hfound, -⟩ := Option.map_eq_some_iff.mp hok
      exact ⟨s, by rw [exec, perform, hfound, Option.map_some, Option.map_some] <;> simp⟩
  | iterate => exact ⟨s, rfl⟩
  | counts => exact ⟨s, rfl⟩

/-- The books of a new buffer. -/
theorem of_start (hmask : 0 < F.maskIndex.toNat) : (start : HandleLives F T).Balanced where
  bounded := hmask
  ledger := Ledger.empty
  fresh := rfl
  free := rfl
  known := fun _ hh => absurd hh List.not_mem_nil
  shaped := ⟨⟨0, BitVec.toNat_zero, rfl⟩, fun i hi => absurd hi (Nat.not_lt_zero i)⟩

/-- The destructor of the buffer destroys no object, so none may be left. -/
theorem destruct_iff (hs : s.Balanced) : s.destruct.DestroyedOnce ↔ s.AllFree := by
  have hfree := hs.free
  constructor
  · intro hall
    have hnil : s.live = [] := by
      by_contra hne
      obtain ⟨a, ha⟩ := List.exists_mem_of_ne_nil _ hne
      have hissued : a < s.issued :=
        List.mem_range.mp (hs.ledger.mem_iff.mp (List.mem_append_right _ ha))
      have hcount := hall.once a hissued
      rw [show s.destruct.destroyed = s.destroyed from rfl,
        List.count_eq_zero_of_not_mem (hs.ledger.not_mem_settled ha)] at hcount
      exact absurd hcount Nat.zero_ne_one
    rw [hnil, List.length_nil, Nat.add_zero] at hfree
    exact hfree
  · intro hall
    rw [AllFree] at hall
    have hnil : s.live = [] := List.eq_nil_of_length_eq_zero (by omega)
    have hledger := hs.ledger
    rw [hnil] at hledger
    exact ⟨fun a ha => hledger.count_settled ha, hs.fresh⟩

/-- After a removal, the second creation is made over the object of the first. -/
theorem overwrites (hs : s.Balanced) (hphase : s.phase = .created) (h : Created s t e) :
    t.overwritten ≠ [] := by
  have hshaped := hs.shaped
  unfold Shaped at hshaped
  rw [hphase] at hshaped
  obtain ⟨a, ha⟩ := Option.isSome_iff_exists.mp hshaped.2
  rw [h.overwritten, ha, Option.toList_some]
  exact List.cons_ne_nil _ _

end Balanced

section Run

variable [Inhabited T] {s : HandleLives F T}

/-- **The lives of the elements.**  In every state that a run of orderly calls leads to,
orderly calls have an effect; no object was constructed over another one that was alive, and
the next creation constructs one over another if and only if it is not orderly; and after
the destruction of the buffer every object was destroyed exactly once if and only if all
slots were free. -/
theorem destroyedOnce_of_run (hmask : 0 < F.maskIndex.toNat) {calls : List (HandleRequest F)}
    (hrun : Run (Guarded (StepOf exec) Orderly) start calls s) :
    (∀ call, s.Orderly call → ∃ t, s.exec call = some t) ∧
      s.overwritten = [] ∧
      (∀ t, s.exec .create = some t → (t.overwritten = [] ↔ s.Orderly .create)) ∧
      (s.destruct.DestroyedOnce ↔ s.AllFree) := by
  have hs : s.Balanced := hrun.invariant (I := Balanced)
    (fun _ _ _ hs hstep => hs.step hstep.1 hstep.2) (Balanced.of_start hmask)
  refine ⟨fun _ => hs.exists_exec, hs.fresh, fun t hstep => ⟨fun hfresh => ?_, fun hcall => ?_⟩,
    hs.destruct_iff⟩
  · rcases create_cases hstep with ⟨hfull, -⟩ | ⟨e, hcreated⟩
    · refine ⟨Or.inl hfull, fun hphase => ?_⟩
      -- a removed slot is not the end of the list
      have hshaped := hs.shaped
      unfold Shaped at hshaped
      rw [hphase] at hshaped
      have hlt := hshaped.1
      have hbounded := hs.bounded
      rw [hfull] at hlt
      omega
    · exact ⟨Or.inr hcreated.start_lt, fun hphase => hs.overwrites hphase hcreated hfresh⟩
  · exact (hs.step hcall hstep).fresh

/-- One slot is used twice. -/
theorem destroyedOnce_of_run_twice :
    ∃ s : HandleLives default32 Unit,
      Run (Guarded (StepOf exec) Orderly) start
        [.resize 1, .create, .remove 0#32, .create, .remove 0x01000000#32] s ∧
      s.issued = 2 ∧ s.destruct.DestroyedOnce := by
  obtain ⟨s, hrun, hissued, hfree⟩ : ∃ s : HandleLives default32 Unit,
      Run (Guarded (StepOf exec) Orderly) start
        [.resize 1, .create, .remove 0#32, .create, .remove 0x01000000#32] s ∧
      s.issued = 2 ∧ s.AllFree :=
    ⟨_, Run.guarded_of_foldlM rfl, rfl, by rfl⟩
  exact ⟨s, hrun, hissued, (destroyedOnce_of_run (by decide) hrun).2.2.2.mpr hfree⟩

/-- An element is left when the buffer is destroyed; an element is created over another one;
an element is left when the buffer is resized. -/
theorem not_destroyedOnce :
    (∃ s : HandleLives default32 Unit,
      Run (StepOf exec) start [.resize 1, .create] s ∧ ¬ s.destruct.DestroyedOnce) ∧
    (∃ s : HandleLives default32 Unit,
      Run (StepOf exec) start [.resize 1, .create, .remove 0#32, .create, .create] s ∧
        s.overwritten = [1] ∧ ¬ s.destruct.DestroyedOnce) ∧
    ∃ s : HandleLives default32 Unit,
      Run (StepOf exec) start [.resize 1, .create, .resize 1] s ∧ ¬ s.destruct.DestroyedOnce := by
  refine ⟨⟨_, Run.of_foldlM rfl, fun h => ?_⟩, ⟨_, Run.of_foldlM rfl, rfl, fun h => ?_⟩,
    ⟨_, Run.of_foldlM rfl, fun h => ?_⟩⟩
  · exact absurd (h.once 0 (by decide)) (by decide)
  · exact absurd h.fresh (by decide)
  · exact absurd (h.once 0 (by decide)) (by decide)

end Run

end HandleLives

end Tklb
