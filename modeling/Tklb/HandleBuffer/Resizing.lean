import Tklb.HandleBuffer.FreeList
import Tklb.Foundation.Replies

/-!
# A resized buffer and a new one

`resize` rewrites every link and the number of free slots, as for a new buffer, and
keeps one word of what was there before: `mStart`, the head of the free list.  A new
buffer has slot `0` there.

What a client can see of a buffer are the replies to its calls (`perform`).  They depend
on the words of the slots, on `mStart` and on `mFree`, and on nothing else (`Alike`).
So the resized buffer answers like a new one exactly when `mStart` was `0`
(`resize_likeNew_iff`).

### Main results

* `resize_spec` — what `resize` leaves of the state before it: `mStart`, and what is stored in
  the slots that remain.
* `Alike` — a simulation: calls on buffers that are alike return the same and lead to buffers
  that are alike again.
* `resize_likeNew_iff` — for every state and every number of slots, the resized buffer answers
  all sequences of calls like a new one if and only if `mStart` was `0`.

### What is load-bearing

One call tells the difference: the first `create` of a new buffer returns the handle `0`, and that
of a resized one the index in `mStart`.  For the other direction every sequence of calls has to be
followed, and there `Alike` is what is kept.  A client that wants a new buffer has to construct
one, or to resize while slot `0` is the next to be handed out.
-/

namespace Tklb

open Foundation HandleFormat HandleSession

/-- A call to a buffer. -/
inductive HandleRequest (F : HandleFormat)
  | create
  | remove (handle : F.Handle)
  | resize (size : F.Handle)
  | lookup (handle : F.Handle)
  | iterate
  | counts
  deriving DecidableEq

/-- What a call returns.  `lookup` returns the slot a pointer designates, `iterate` the
slots and handles its function is called with. -/
inductive HandleReply (F : HandleFormat)
  | handle (handle : F.Handle)
  | removed (valid : Bool)
  | resized
  | found (slot : Option ℕ)
  | visits (calls : List (ℕ × F.Handle))
  | counts (size free : F.Handle)
  deriving DecidableEq

namespace HandleBuffer

variable {F : HandleFormat} {T : Type}

/-- One call: the reply and the buffer afterwards. -/
def perform [Inhabited T] (s : HandleBuffer F T) :
    HandleRequest F → Option (HandleReply F × HandleBuffer F T)
  | .create => s.create.map fun (h, b) => (.handle h, b)
  | .remove h => (s.remove h).map fun (ok, b) => (.removed ok, b)
  | .resize size => (s.resize size).map fun b => (.resized, b)
  | .lookup h => (s.atHandle h).map fun slot => (.found slot, s)
  -- the storage of a slot that is not in use holds no element: it is no reply
  | .iterate => some (.visits (s.iterate.map fun v => (v.slot, v.handle)), s)
  | .counts => some (.counts (BitVec.ofNat _ s.mElements.length) s.mFree, s)

/-! ### What the replies depend on -/

/-- The words of the slots: links and generations. -/
def words (s : HandleBuffer F T) : List F.Handle := s.mElements.map Element.next

theorem words_getElem? (s : HandleBuffer F T) (i : ℕ) :
    s.words[i]? = (s.mElements[i]?).map Element.next := List.getElem?_map

theorem length_words (s : HandleBuffer F T) : s.words.length = s.mElements.length :=
  List.length_map _

/-- The buffers differ at most in what is stored in their slots.  No reply depends on that: of
`iterate` the reply is the slots and the handles. -/
structure Alike (s t : HandleBuffer F T) : Prop where
  words : s.words = t.words
  start : s.mStart = t.mStart
  free : s.mFree = t.mFree

section Alike

variable {s t : HandleBuffer F T}

theorem Alike.length (h : Alike s t) : s.mElements.length = t.mElements.length := by
  rw [← length_words, h.words, length_words]

/-- Both buffers have the slot, with the same word, or neither has. -/
theorem Alike.slot (h : Alike s t) (i : ℕ) :
    s.mElements[i]? = none ∧ t.mElements[i]? = none ∨
      ∃ e e', s.mElements[i]? = some e ∧ t.mElements[i]? = some e' ∧ e.next = e'.next := by
  have hword : (s.mElements[i]?).map Element.next = (t.mElements[i]?).map Element.next := by
    rw [← words_getElem?, h.words, words_getElem?]
  cases hs : s.mElements[i]? with
  | none =>
      rw [hs, Option.map_none] at hword
      exact Or.inl ⟨rfl, Option.map_eq_none_iff.mp hword.symm⟩
  | some e =>
      rw [hs, Option.map_some] at hword
      obtain ⟨e', he', hnext⟩ := Option.map_eq_some_iff.mp hword.symm
      exact Or.inr ⟨e, e', rfl, he', hnext.symm⟩

/-- Writing a slot of both with the same word. -/
theorem words_set {i : ℕ} {e : Element F T} {m f : F.Handle} :
    (⟨s.mElements.set i e, m, f⟩ : HandleBuffer F T).words = s.words.set i e.next :=
  List.map_set

theorem word_of_slot {i : ℕ} {e : Element F T} (he : s.mElements[i]? = some e) :
    s.words[i]? = some e.next := by
  rw [words_getElem?, he, Option.map_some]

/-- Writing a slot with the word it has. -/
theorem words_set_next {i : ℕ} {e : Element F T} (he : s.mElements[i]? = some e)
    {value : Option T} {m f : F.Handle} :
    (⟨s.mElements.set i ⟨e.next, value⟩, m, f⟩ : HandleBuffer F T).words = s.words := by
  obtain ⟨hlt, hget⟩ := List.getElem?_eq_some_iff.mp (word_of_slot he)
  rw [words_set, ← hget, List.set_getElem_self]

theorem Alike.atHandle (h : Alike s t) (handle : F.Handle) :
    s.atHandle handle = t.atHandle handle := by
  simp only [HandleBuffer.atHandle, h.length]
  rcases h.slot (handle &&& F.maskIndex).toNat with ⟨hs, ht⟩ | ⟨e, e', hs, ht, hnext⟩
  · rw [hs, ht]
  · simp only [hs, ht, Option.bind_eq_bind, Option.bind_some, hnext]

theorem Alike.create [Inhabited T] (h : Alike s t) :
    AnswersAlike Alike s.create t.create := by
  simp only [HandleBuffer.create, h.start]
  split
  · exact Option.Rel.some ⟨rfl, h⟩
  · rcases h.slot t.mStart.toNat with ⟨hs, ht⟩ | ⟨e, e', hs, ht, hnext⟩
    · rw [hs, ht]
      exact Option.Rel.none
    · simp only [hs, ht, Option.bind_eq_bind, Option.bind_some, hnext]
      refine Option.Rel.some ⟨rfl, ?_, rfl, ?_⟩
      · rw [words_set, words_set, h.words]
      · rw [h.free]

theorem Alike.remove (h : Alike s t) (handle : F.Handle) :
    AnswersAlike Alike (s.remove handle) (t.remove handle) := by
  simp only [HandleBuffer.remove, h.atHandle, Option.bind_eq_bind]
  cases t.atHandle handle with
  | none => exact Option.Rel.none
  | some found =>
      cases found with
      | none => exact Option.Rel.some ⟨rfl, h⟩
      | some i =>
          simp only [Option.bind_some]
          rcases h.slot (handle &&& F.maskIndex).toNat with ⟨hs, ht⟩ | ⟨e, e', hs, ht, hnext⟩
          · rw [hs, ht]
            exact Option.Rel.none
          · simp only [hs, ht, Option.bind_some, hnext]
            refine Option.Rel.some ⟨rfl, ?_, rfl, ?_⟩
            · rw [words_set, words_set, h.words]
            · rw [h.free]

/-- The loop of `iterate` reads the words only. -/
theorem iterateFrom_handles {es es' : List (Element F T)}
    (h : es.map Element.next = es'.map Element.next) (i : ℕ) (left : F.Handle) :
    (iterateFrom i left es).map (fun v => (v.slot, v.handle)) =
      (iterateFrom i left es').map fun v => (v.slot, v.handle) := by
  induction es generalizing es' i left with
  | nil =>
      rw [List.map_nil, eq_comm, List.map_eq_nil_iff] at h
      rw [h]
  | cons e es ih =>
      cases es' with
      | nil => simp at h
      | cons e' es' =>
          obtain ⟨hnext, hrest⟩ := List.cons.inj h
          simp only [iterateFrom, hnext]
          split
          · rfl
          · split
            · rw [List.map_cons, List.map_cons, ih hrest]
            · exact ih hrest _ _

theorem Alike.iterate (h : Alike s t) :
    s.iterate.map (fun v => (v.slot, v.handle)) =
      t.iterate.map fun v => (v.slot, v.handle) := by
  rw [HandleBuffer.iterate, HandleBuffer.iterate, itemsLeft, itemsLeft, h.length, h.free]
  exact iterateFrom_handles h.words _ _

end Alike

/-! ### `resize` -/

/-- The words `resize` writes: each slot is linked to the next one, the last to
`MaskIndex`. -/
def freshWords (size : F.Handle) : List F.Handle :=
  (List.range size.toNat).map fun i =>
    if i + 1 = size.toNat then F.maskIndex else BitVec.ofNat _ (i + 1)

theorem length_freshWords (size : F.Handle) : (freshWords size).length = size.toNat := by
  rw [freshWords, List.length_map, List.length_range]

theorem freshWords_getElem? {size : F.Handle} {i : ℕ} (hi : i < size.toNat) :
    (freshWords size : List F.Handle)[i]? =
      some (if i + 1 = size.toNat then F.maskIndex else BitVec.ofNat _ (i + 1)) := by
  rw [freshWords, List.getElem?_map, List.getElem?_range hi, Option.map_some]

/-- **`resize` rewrites everything but `mStart`.**  The words are those of a new buffer of the size,
and all slots count as free; of the state before the call only the head of the list is left. -/
theorem resize_spec (s : HandleBuffer F T) {size : F.Handle} (hpos : 0 < size.toNat) :
    ∃ b, s.resize size = some b ∧ b.words = freshWords size ∧ b.mStart = s.mStart ∧
      b.mFree = size := by
  have hne : size ≠ 0 := by
    rintro rfl
    simp at hpos
  obtain ⟨b, hb⟩ : ∃ b, s.resize size = some b := by
    simp only [resize, if_neg hne]
    exact ⟨_, rfl⟩
  refine ⟨b, hb, ?_⟩
  simp only [resize, if_neg hne, Option.some.injEq] at hb
  subst hb
  refine ⟨?_, rfl, rfl⟩
  have hlen : (s.mElements.take size.toNat ++
      List.replicate (size.toNat - s.mElements.length) (⟨0, none⟩ : Element F T)).length =
        size.toNat := by
    rw [List.length_append, List.length_take, List.length_replicate]
    omega
  refine List.ext_getElem? fun i => ?_
  rcases Nat.lt_or_ge i size.toNat with hi | hi
  · rw [freshWords_getElem? hi, words_getElem?, List.getElem?_modify, List.getElem?_mapIdx,
      List.getElem?_eq_getElem (hi.trans_eq hlen.symm)]
    by_cases hlast : i + 1 = size.toNat
    · simp [hlast, show size.toNat - 1 = i by omega]
    · simp [hlast, show size.toNat - 1 ≠ i by omega]
  · rw [List.getElem?_eq_none, List.getElem?_eq_none]
    · simpa [freshWords] using hi
    · rw [length_words, List.length_modify, List.length_mapIdx, hlen]
      exact hi

theorem resize_zero (s : HandleBuffer F T) : s.resize 0 = none := by
  simp only [resize, if_true]

/-- What a `resize` that returns has done. -/
theorem resize_eq_some {s b : HandleBuffer F T} {size : F.Handle} (h : s.resize size = some b) :
    b.words = freshWords size ∧ b.mStart = s.mStart ∧ b.mFree = size := by
  have hpos : 0 < size.toNat := by
    refine Nat.pos_of_ne_zero fun hzero => ?_
    obtain rfl : size = 0 := BitVec.eq_of_toNat_eq (hzero.trans BitVec.toNat_zero.symm)
    rw [resize_zero] at h
    cases h
  obtain ⟨c, hc, hspec⟩ := s.resize_spec hpos
  obtain rfl : b = c := Option.some.inj (h.symm.trans hc)
  exact hspec

theorem Alike.resize {R : Type} {s t : HandleBuffer F T} (h : Alike s t) (size : F.Handle)
    (reply : R) : AnswersAlike Alike ((s.resize size).map fun b => (reply, b))
      ((t.resize size).map fun b => (reply, b)) := by
  rcases Nat.eq_zero_or_pos size.toNat with hzero | hpos
  · obtain rfl : size = 0 := BitVec.eq_of_toNat_eq (hzero.trans BitVec.toNat_zero.symm)
    rw [resize_zero, resize_zero]
    exact Option.Rel.none
  · obtain ⟨b, hb, hwords, hstart, hfree⟩ := s.resize_spec hpos
    obtain ⟨c, hc, hwords', hstart', hfree'⟩ := t.resize_spec hpos
    rw [hb, hc]
    exact Option.Rel.some ⟨rfl, hwords.trans hwords'.symm,
      hstart.trans (h.start.trans hstart'.symm), hfree.trans hfree'.symm⟩

/-! ### What a client can tell -/

variable [Inhabited T]

/-- One call is answered alike by buffers that are alike. -/
theorem Alike.perform {s t : HandleBuffer F T} (h : Alike s t) (call : HandleRequest F) :
    AnswersAlike Alike (s.perform call) (t.perform call) := by
  cases call with
  | create => exact h.create.map _
  | remove handle => exact (h.remove handle).map _
  | resize size => exact h.resize size _
  | lookup handle =>
      simp only [HandleBuffer.perform, h.atHandle]
      cases t.atHandle handle with
      | none => exact Option.Rel.none
      | some slot => exact Option.Rel.some ⟨rfl, h⟩
  | iterate => exact Option.Rel.some ⟨congrArg HandleReply.visits h.iterate, h⟩
  | counts => exact Option.Rel.some ⟨by rw [h.length, h.free], h⟩

theorem Alike.indistinguishable {s t : HandleBuffer F T} (h : Alike s t) :
    Indistinguishable HandleBuffer.perform s t :=
  Indistinguishable.of_bisimulation (fun _ _ h call => h.perform call) h

/-! ### Creating until the buffer is full -/

section Fresh

variable {n : F.Handle} {k : ℕ} {s : HandleBuffer F T}

omit [Inhabited T] in
/-- A word without generation bits: all that `resize` writes. -/
theorem and_maskGeneration_of_lt {x : F.Handle} (hx : x.toNat < 2 ^ F.maskBits) :
    x &&& F.maskGeneration = 0#F.handleBits := by
  apply BitVec.eq_of_toNat_eq
  rw [F.and_maskGeneration_toNat, generation, Nat.div_eq_of_lt hx, zero_mul]
  exact BitVec.toNat_zero.symm

/-- `k` slots of the resized buffer have been created, none removed.  It is the state of a new
buffer after as many creations, whose first slot is handed out first. -/
structure Fresh (n : F.Handle) (k : ℕ) (s : HandleBuffer F T) : Prop where
  words : s.words = freshWords n
  start : s.mStart = if k = n.toNat then F.maskIndex else BitVec.ofNat _ k

/-- The next `create` hands out slot `k`. -/
theorem Fresh.create (hs : Fresh n k s) (hn : n.toNat < F.maskIndex.toNat)
    (hk : k < n.toNat) :
    ∃ t, s.create = some (BitVec.ofNat _ k, t) ∧ Fresh n (k + 1) t := by
  have hmask := F.maskIndex_toNat_lt
  have hstart : s.mStart = BitVec.ofNat _ k := by rw [hs.start, if_neg (by omega)]
  have hkv : (BitVec.ofNat F.handleBits k).toNat = k := ofNat_toNat_of_lt (by omega)
  have hne : s.mStart ≠ F.maskIndex := by
    rw [hstart]
    intro heq
    rw [heq] at hkv
    omega
  have hword : (s.mElements[k]?).map Element.next =
      some (if k + 1 = n.toNat then F.maskIndex else BitVec.ofNat _ (k + 1)) := by
    rw [← words_getElem?, hs.words, freshWords_getElem? hk]
  obtain ⟨e, he, hnext⟩ := Option.map_eq_some_iff.mp hword
  have hlt : e.next.toNat < 2 ^ F.maskBits := by
    rw [hnext]
    split
    · exact hmask
    · rw [ofNat_toNat_of_lt (by omega)]
      omega
  refine ⟨⟨s.mElements.set k { e with value := some default }, e.next,
    s.mFree - 1#F.handleBits⟩, ?_, ?_⟩
  · rw [create_of_slot hne (by rw [hstart, hkv]; exact he), and_maskGeneration_of_lt hlt,
      F.and_maskIndex_of_lt hlt, hstart, hkv, BitVec.or_zero]
  · refine ⟨?_, hnext⟩
    -- `create` writes the word back
    rw [words_set_next he, hs.words]

/-- The replies to `create`, called until the buffer is full and once more. -/
theorem Fresh.replies (hn : n.toNat < F.maskIndex.toNat) {m : ℕ} (hm : k + m = n.toNat)
    (hs : Fresh n k s) :
    Foundation.replies perform s (List.replicate (m + 1) .create) =
      some ((((List.range' k m).map (BitVec.ofNat _)) ++ [F.invalidHandle]).map
        HandleReply.handle) := by
  induction m generalizing k s with
  | zero =>
      have hfull : s.mStart = F.maskIndex := hs.start.trans (if_pos hm)
      have hcall : s.perform .create = some (.handle F.invalidHandle, s) := by
        rw [perform, create_of_full hfull, Option.map_some]
      rw [List.replicate_succ, replies_cons_of_some hcall]
      rfl
  | succ m ih =>
      obtain ⟨t, hcreate, ht⟩ := hs.create hn (by omega)
      have hcall : s.perform .create = some (.handle (BitVec.ofNat _ k), t) := by
        rw [perform, hcreate, Option.map_some]
      rw [List.replicate_succ, replies_cons_of_some hcall, ih (by omega) ht]
      rfl

end Fresh

/-! ### Which resized buffers are like new -/

/-- **The buffer is a new one** to its client, whatever calls follow.  It cannot be told from a
buffer that was just constructed, and so it hands out each of its slots once before it hands out
nothing. -/
structure LikeNew (s : HandleBuffer F T) (n : F.Handle) : Prop where
  same : ∃ b, construct n = some b ∧ Indistinguishable perform s b
  /-- Exactly `n` slots can be created, all different. -/
  creates : ∃ handles : List F.Handle, handles.length = n.toNat ∧
    (handles.map F.index).Nodup ∧ (∀ h ∈ handles, h ≠ F.invalidHandle) ∧
    replies perform s (List.replicate (n.toNat + 1) .create) =
      some ((handles ++ [F.invalidHandle]).map HandleReply.handle)
  /-- Until the next `resize`, no other slot is handed out. -/
  inside : ∀ calls rs, (∀ call ∈ calls, ∀ m, call ≠ .resize m) →
    replies perform s calls = some rs →
    ∀ h, .handle h ∈ rs → h = F.invalidHandle ∨ F.index h < n.toNat

/-- What a handle that is handed out may be. -/
def HandsOutBelow (n : ℕ) (r : HandleReply F) : Prop :=
  ∀ h, r = .handle h → h = F.invalidHandle ∨ F.index h < n

/-- Only `resize` changes the number of slots, and `create` hands out a slot that is
there. -/
theorem perform_handsOutBelow {n : ℕ} (hn : n < F.maskIndex.toNat)
    {s t : HandleBuffer F T} {call : HandleRequest F} {r : HandleReply F}
    (hlen : s.mElements.length = n) (hcall : ∀ m, call ≠ .resize m)
    (h : s.perform call = some (r, t)) :
    HandsOutBelow n r ∧ t.mElements.length = n := by
  cases call with
  | create =>
      obtain ⟨⟨handle, b⟩, hc, hr⟩ := Option.map_eq_some_iff.mp h
      obtain ⟨rfl, rfl⟩ := Prod.mk.inj hr
      rcases create_cases hc with ⟨-, rfl, rfl⟩ | ⟨-, e, he, rfl, rfl⟩
      · exact ⟨fun h heq => Or.inl (HandleReply.handle.inj heq).symm, hlen⟩
      · have hlt := (List.getElem?_eq_some_iff.mp he).1
        have hmask := F.maskIndex_toNat_lt
        refine ⟨fun h heq => Or.inr ?_, by rw [List.length_set, hlen]⟩
        rw [← HandleReply.handle.inj heq, F.index_handle (by omega)]
        omega
  | remove handle =>
      obtain ⟨⟨ok, b⟩, hc, hr⟩ := Option.map_eq_some_iff.mp h
      obtain ⟨rfl, rfl⟩ := Prod.mk.inj hr
      refine ⟨by simp [HandsOutBelow], ?_⟩
      rcases remove_cases hc with ⟨-, -, rfl⟩ | ⟨-, -, e, -, -, -, rfl⟩
      · exact hlen
      · rw [List.length_set, hlen]
  | resize m => exact absurd rfl (hcall m)
  | lookup handle =>
      obtain ⟨slot, -, hr⟩ := Option.map_eq_some_iff.mp h
      obtain ⟨rfl, rfl⟩ := Prod.mk.inj hr
      exact ⟨by simp [HandsOutBelow], hlen⟩
  | iterate =>
      obtain ⟨rfl, rfl⟩ := Prod.mk.inj (Option.some.inj h)
      exact ⟨by simp [HandsOutBelow], hlen⟩
  | counts =>
      obtain ⟨rfl, rfl⟩ := Prod.mk.inj (Option.some.inj h)
      exact ⟨by simp [HandsOutBelow], hlen⟩

variable {n : F.Handle} {s b : HandleBuffer F T}

omit [Inhabited T] in
theorem Fresh.of_construct (hpos : 0 < n.toNat) :
    ∃ b : HandleBuffer F T, construct n = some b ∧ b.mFree = n ∧ Fresh n 0 b := by
  obtain ⟨b, hb, hwords, hstart, hfree⟩ := (empty : HandleBuffer F T).resize_spec hpos
  exact ⟨b, hb, hfree, hwords, by rw [if_neg (by omega)]; exact hstart⟩

theorem LikeNew.of_fresh (hpos : 0 < n.toNat) (hn : n.toNat < F.maskIndex.toNat)
    (hs : Fresh n 0 s) (hfree : s.mFree = n) : LikeNew s n where
  same := by
    obtain ⟨b, hb, hbfree, hfresh⟩ := Fresh.of_construct (T := T) hpos
    have halike : Alike s b :=
      ⟨hs.words.trans hfresh.words.symm, hs.start.trans hfresh.start.symm,
        hfree.trans hbfree.symm⟩
    exact ⟨b, hb, halike.indistinguishable⟩
  creates := by
    have hmask := F.maskIndex_toNat_lt
    have hindex : ∀ i < n.toNat, F.index (BitVec.ofNat _ i) = i := by
      intro i hi
      rw [F.index_eq_mod, ofNat_toNat_of_lt (by omega), Nat.mod_eq_of_lt (by omega)]
    refine ⟨(List.range' 0 n.toNat).map (BitVec.ofNat _), by simp, ?_, ?_,
      hs.replies hn (Nat.zero_add _)⟩
    · rw [List.map_map, List.map_congr_left (g := id), List.map_id]
      · exact List.nodup_range'
      · intro i hi
        exact hindex i (by simpa using hi)
    · intro h hh
      obtain ⟨i, hi, rfl⟩ := List.mem_map.mp hh
      refine F.ne_invalidHandle ?_
      rw [hindex i (by simpa using hi)]
      have : i < n.toNat := by simpa using hi
      omega
  inside := by
    have hlen : s.mElements.length = n.toNat := by
      rw [← length_words, hs.words, length_freshWords]
    intro calls rs hcalls hrs h hh
    exact replies_forall (I := fun s : HandleBuffer F T => s.mElements.length = n.toNat)
      (C := fun call => ∀ m, call ≠ .resize m) (Q := HandsOutBelow n.toNat)
      (fun s call r t hlen hcall => perform_handsOutBelow hn hlen hcall) hlen hcalls hrs
      (.handle h) hh h rfl

/-- The first handle of a new buffer is `0`. -/
theorem LikeNew.start_eq_zero (hpos : 0 < n.toNat) (hn : n.toNat < F.maskIndex.toNat)
    (h : LikeNew s n) : s.mStart = 0 := by
  obtain ⟨b, hb, hsame⟩ := h.same
  obtain ⟨c, hc, -, hfresh⟩ := Fresh.of_construct (T := T) hpos
  obtain rfl : b = c := Option.some.inj (hb.symm.trans hc)
  obtain ⟨t, hcreate, -⟩ := hfresh.create hn hpos
  have hfirst := hsame [.create]
  rw [replies_singleton, replies_singleton, perform, perform, hcreate] at hfirst
  obtain ⟨⟨reply, s'⟩, hcall, hreply⟩ := Option.map_eq_some_iff.mp hfirst
  obtain ⟨⟨handle, t'⟩, hcreated, hpair⟩ := Option.map_eq_some_iff.mp hcall
  obtain ⟨rfl, rfl⟩ := Prod.mk.inj hpair
  have hzero : handle = 0 := HandleReply.handle.inj (List.cons.inj hreply).1
  rcases create_cases hcreated with ⟨-, rfl, -⟩ | ⟨-, e, -, rfl, -⟩
  · have := F.ne_invalidHandle (h := 0) (by simp [index]; omega)
    exact absurd hzero.symm this
  · exact (BitVec.or_eq_zero_iff.mp hzero).1

/-- **A resized buffer is like new exactly if slot `0` was the head of the free list.**
In every state and for every number of slots a handle can index. -/
theorem resize_likeNew_iff (hpos : 0 < n.toNat) (hn : n.toNat < F.maskIndex.toNat)
    (hresize : s.resize n = some b) : LikeNew b n ↔ s.mStart = 0 := by
  obtain ⟨hwords, hstart, hfree⟩ := resize_eq_some hresize
  rw [← hstart]
  refine ⟨fun h => h.start_eq_zero hpos hn, fun hzero => ?_⟩
  exact LikeNew.of_fresh hpos hn ⟨hwords, by rw [if_neg (by omega)]; exact hzero⟩ hfree

/-- A buffer of one slot that was never used, resized to two. -/
theorem resize_likeNew_iff_unused :
    ∃ s b : HandleBuffer default32 Unit, construct 1#32 = some s ∧ s.resize 2#32 = some b ∧
      LikeNew b 2#32 :=
  ⟨_, _, rfl, rfl, (resize_likeNew_iff (by decide) (by decide) rfl).mpr rfl⟩

/-- One slot of two is created before the call: afterwards only slot `1` is handed out,
although both count as free. -/
theorem not_likeNew_after_create :
    ∃ (s t b : HandleBuffer default32 Unit) (h : default32.Handle),
      construct 2#32 = some s ∧ s.create = some (h, t) ∧ t.resize 2#32 = some b ∧
      replies perform b [.create, .create] = some [.handle 1, .handle default32.invalidHandle] ∧
      ¬ LikeNew b 2#32 := by
  refine ⟨_, _, _, _, rfl, rfl, rfl, rfl, fun h => ?_⟩
  exact absurd (h.start_eq_zero (by decide) (by decide)) (by decide)

end HandleBuffer

end Tklb
