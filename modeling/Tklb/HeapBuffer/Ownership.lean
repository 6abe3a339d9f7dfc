import Tklb.Foundation.Runs
import Tklb.HeapBuffer.Contents

/-!
# Who owns a block

Several buffers live on one heap.  A buffer owns its memory when `mRealSize` is
not `0`; moving a buffer hands the memory over by clearing `mRealSize` of the
source (`disown`).  The ledger of blocks says that every block obtained so far was
given back or is owned by one buffer, exactly once.

Every operation on one buffer keeps the ledger, whatever the allocator answers
(`exec_owns`), because all of them go through `allocate`.  A move keeps it only if
it really hands over (`HandsOver`):

* `disown` returns early on a buffer without elements, so a source that has
  reserved memory but holds nothing stays an owner beside the target;
* move assignment overwrites the fields of the target, so memory the target owned
  is lost; and a move to itself disowns memory nobody else owns.

### What the ledger presupposes

The ledger names a block by the order in which it was obtained; the source names it by its
address, which an aligned buffer keeps in the word in front of its elements.  The two agree
as long as nobody writes outside of his memory, and that is what the other two conditions of
`Proper` are for.  If the bytes of a request wrap, the memory is too small and the copy into
it can run over the saved word of the old memory (`AlignedBuffer.deallocates_iff`), so
`SizesFit` forbids it.  And a source that was moved from still points to its elements: when
the new owner has given them back, or `reserve` has cut them down, whoever works on them
works in memory of others, which `Backed` forbids.
-/

namespace Tklb

open Foundation HeapBuffer

namespace BufferState

variable {T : Type} {B : BufferType} {s : BufferState T} {others : List ℕ}

/-- Every block was given back, is owned by the buffer or is one of `others`.  The others are what
the rest of the program owns, which a call on this buffer may not touch. -/
structure Owns (s : BufferState T) (others : List ℕ) : Prop where
  ledger : Ledger s.heap.blocks s.heap.freed (s.buffer.owned.toList ++ others)
  wellOwned : s.buffer.WellOwned

/-! ### Operations on one buffer -/

/-- Neither the objects nor the size matter for the ownership. -/
theorem Owns.of_same {t : BufferState T} (h : s.Owns others)
    (hblocks : t.heap.blocks = s.heap.blocks) (hfreed : t.heap.freed = s.heap.freed)
    (hbuf : t.buffer.mBuf = s.buffer.mBuf)
    (hreal : t.buffer.mRealSize = s.buffer.mRealSize) : t.Owns others := by
  obtain ⟨hledger, hwell⟩ := h
  constructor
  · rw [hblocks, hfreed, owned, hbuf, hreal]
    exact hledger
  · rw [WellOwned, hbuf, hreal]
    exact hwell

theorem Owns.onMemory (h : s.Owns others) (f : ObjectStore T → ℕ → ObjectStore T) :
    (s.onMemory f).Owns others := by
  unfold BufferState.onMemory
  split
  · exact h
  · exact h.of_same rfl rfl rfl rfl

theorem Owns.resized (h : s.Owns others) (n : ℕ) :
    Owns { s with buffer := { s.buffer with mSize := n } } others :=
  h.of_same rfl rfl rfl rfl

/-- **`allocate`** gives back the old block and takes on the new one; when the
request is not met, nothing changes hands. -/
theorem Owns.allocate (h : s.Owns others) (chunk : ℕ) :
    (s.allocate B chunk).2.Owns others := by
  have hsettled := h.ledger.settle
  rcases Nat.eq_zero_or_pos chunk with rfl | hpos
  · obtain ⟨t, hcall, hexchanged, hblocks⟩ := allocate_zero_exchanges B s
    rw [hcall]
    refine ⟨?_, ?_⟩
    · have hnone : (⟨none, s.buffer.mSize, 0⟩ : HeapBuffer).owned = none := owned_of_zero rfl
      rw [hexchanged.freed, hblocks, hexchanged.buffer, hnone]
      exact hsettled
    · rw [hexchanged.buffer]
      exact fun hne => absurd rfl hne
  · cases hgrant : s.heap.grants s.heap.requests with
    | false =>
        rw [allocate_refused hpos hgrant]
        exact h.of_same rfl rfl rfl rfl
    | true =>
        obtain ⟨t, hcall, hexchanged, hblocks, -⟩ :=
          allocate_exchanges (B := B) (s := s) hpos hgrant
        have hne : (⟨some s.heap.blocks, s.buffer.mSize, chunk⟩ : HeapBuffer).mRealSize ≠ 0 :=
          hpos.ne'
        rw [hcall]
        refine ⟨?_, ?_⟩
        · rw [hexchanged.freed, hblocks, hexchanged.buffer, owned_of_ne hne]
          exact (hsettled.issue 1).perm (List.Perm.refl _) List.perm_append_comm
        · rw [hexchanged.buffer]
          exact fun _ => rfl

theorem Owns.reserve (h : s.Owns others) (n : ℕ) : (s.reserve B n).2.Owns others := by
  rw [BufferState.reserve]
  split
  · exact h
  · exact h.allocate n

theorem Owns.truncate (h : s.Owns others) (n : ℕ) : (s.truncate n).Owns others := by
  unfold BufferState.truncate
  split
  · exact h.onMemory _
  · exact h

theorem Owns.extend [Inhabited T] (h : s.Owns others) (n : ℕ) : (s.extend n).Owns others := by
  unfold BufferState.extend
  dsimp only
  split
  · exact (h.onMemory _).resized _
  · exact h.resized _

theorem Owns.resize [Inhabited T] (h : s.Owns others) (n : ℕ) (downsize : Bool) :
    (s.resize B n downsize).2.Owns others := by
  rw [resize_eq]
  split
  · have hallocated := (h.truncate n).allocate (B := B) (closestChunkSize B n chunkSize)
    dsimp only
    split
    · exact hallocated.extend n
    · exact hallocated
  · exact (h.truncate n).extend n

theorem Owns.set [Inhabited T] (h : s.Owns others) (data : List T) :
    (s.set B data).2.Owns others := by
  simp only [BufferState.set]
  have h₁ : (if s.buffer.mBuf.isSome then (s.resize B 0 true).2 else s).Owns others := by
    split
    · exact h.resize 0 true
    · exact h
  generalize (if s.buffer.mBuf.isSome then (s.resize B 0 true).2 else s) = s₁ at h₁ ⊢
  have h₂ : (s₁.resize B data.length true).2.Owns others := h₁.resize data.length true
  split
  · dsimp only
    exact h₂.onMemory _
  · exact h₂

theorem Owns.push (h : s.Owns others) (object : T) : (s.push B object).2.Owns others := by
  simp only [BufferState.push]
  have h₁ : (if s.buffer.mRealSize < wrap B.sizeBits (s.buffer.mSize + 1) then
      s.allocate B (closestChunkSize B (wrap B.sizeBits (s.buffer.mSize + 1)) chunkSize)
      else (true, s)).2.Owns others := by
    split
    · exact h.allocate _
    · exact h
  generalize (if s.buffer.mRealSize < wrap B.sizeBits (s.buffer.mSize + 1) then
      s.allocate B (closestChunkSize B (wrap B.sizeBits (s.buffer.mSize + 1)) chunkSize)
      else (true, s)) = r at h₁ ⊢
  split
  · exact (h₁.onMemory _).resized _
  · exact h₁

theorem Owns.pop (h : s.Owns others) : s.pop.2.Owns others := by
  rw [BufferState.pop]
  split
  · exact h
  · exact h.resized _

theorem Owns.removeAt (h : s.Owns others) (i : ℕ) : (s.removeAt i).2.Owns others := by
  rw [BufferState.removeAt]
  split
  · exact h
  · dsimp only
    split
    · exact ((h.onMemory _).onMemory _).resized _
    · exact (h.onMemory _).resized _

theorem Owns.removeValue [BEq T] (h : s.Owns others) (object : T) :
    (s.removeValue object).2.Owns others := by
  rw [BufferState.removeValue]
  split
  · exact h.removeAt _
  · exact h

theorem Owns.removePointer (h : s.Owns others) (object : ℕ × ℕ) :
    (s.removePointer object).2.Owns others := by
  rw [BufferState.removePointer]
  split
  · exact h.removeAt _
  · exact h

/-- **Operations on one buffer.**  Whatever the allocator answers, every block
stays accounted for. -/
theorem exec_owns [Inhabited T] [BEq T] (h : s.Owns others) (c : BufferCall T) :
    (s.exec B c).2.Owns others := by
  cases c with
  | set data => exact h.set data
  | resize size downsize => exact h.resize size downsize
  | reserve size => exact h.reserve size
  | push object => exact h.push object
  | pop => exact h.pop
  | removeAt index => exact h.removeAt index
  | removeValue object => exact h.removeValue object
  | removePointer object => exact h.removePointer object
  | clear => exact h.resize (B := B) 0 false

/-- Resizing to nothing gives the memory back. -/
theorem resize_zero_mRealSize [Inhabited T] (s : BufferState T) :
    (s.resize B 0 true).2.buffer.mRealSize = 0 := by
  obtain ⟨t, hcall, hbuffer, -⟩ := resize_zero_eq B s
  rw [hcall, hbuffer]

/-- The destructor leaves nothing to own. -/
theorem destruct_owns [Inhabited T] (h : s.Owns others) :
    (s.destruct B).Owns others ∧ (s.destruct B).buffer.owned = none := by
  rw [destruct]
  by_cases hinjected : s.buffer.injected
  · rw [if_pos hinjected]
    refine ⟨h, if_pos ?_⟩
    simp only [injected, decide_eq_true_eq] at hinjected
    exact hinjected.1
  · rw [if_neg hinjected]
    exact ⟨h.resize 0 true, if_pos (resize_zero_mRealSize s)⟩

end BufferState

/-! ### Programs with several buffers -/

/-- The buffers of a program, named by the order of their construction; `none`
is a buffer that was destroyed. -/
structure BufferProgram (T : Type) where
  heap : Heap T
  count : ℕ
  buffers : ℕ → Option HeapBuffer

/-- The calls of a program. -/
inductive ProgramCall (T : Type)
  | construct
  | constructSized (size : ℕ)
  | constructData (data : List T)
  | moveConstruct (source : ℕ)
  | moveAssign (target source : ℕ)
  | on (i : ℕ) (c : BufferCall T)
  | destroy (i : ℕ)

namespace BufferProgram

variable {T : Type} {B : BufferType}

/-- No buffers on a heap nothing was allocated on. -/
def start (grants : ℕ → Bool) : BufferProgram T := ⟨.initial grants, 0, fun _ => none⟩

/-- Add a new buffer. -/
def add (p : BufferProgram T) (s : BufferState T) : BufferProgram T :=
  ⟨s.heap, p.count + 1, Function.update p.buffers p.count (some s.buffer)⟩

/-- Replace a buffer. -/
def put (p : BufferProgram T) (i : ℕ) (s : BufferState T) : BufferProgram T :=
  ⟨s.heap, p.count, Function.update p.buffers i (some s.buffer)⟩

/-- A buffer is gone. -/
def drop (p : BufferProgram T) (i : ℕ) (heap : Heap T) : BufferProgram T :=
  ⟨heap, p.count, Function.update p.buffers i none⟩

/-- Perform a call; a call on a buffer that does not exist has no meaning. -/
def exec [Inhabited T] [BEq T] (B : BufferType) (p : BufferProgram T) :
    ProgramCall T → Option (BufferProgram T)
  | .construct => some (p.add ⟨p.heap, .initial⟩)
  | .constructSized size => some (p.add (.constructSized B p.heap size))
  | .constructData data => some (p.add (.constructData B p.heap data))
  | .moveConstruct source =>
      (p.buffers source).map fun b =>
        let (target, source') := b.move
        (p.put source ⟨p.heap, source'⟩).add ⟨p.heap, target⟩
  | .moveAssign target source =>
      (p.buffers target).bind fun _ => (p.buffers source).map fun b =>
        let (target', source') := b.move
        if target = source then p.put source ⟨p.heap, source'⟩
        else (p.put target ⟨p.heap, target'⟩).put source ⟨p.heap, source'⟩
  | .on i c =>
      (p.buffers i).map fun b => p.put i (BufferState.exec B ⟨p.heap, b⟩ c).2
  | .destroy i =>
      (p.buffers i).map fun b => p.drop i (BufferState.destruct B ⟨p.heap, b⟩).heap

/-- The move hands the memory over: the source holds elements if it owns memory,
and the target owns none. -/
def HandsOver (p : BufferProgram T) : ProgramCall T → Prop
  | .moveConstruct source =>
      ∀ b, p.buffers source = some b → b.mSize ≠ 0 ∨ b.mRealSize = 0
  | .moveAssign target source =>
      if target = source then
        ∀ b, p.buffers source = some b → b.mSize = 0 ∨ b.mRealSize = 0
      else
        (∀ b, p.buffers source = some b → b.mSize ≠ 0 ∨ b.mRealSize = 0) ∧
          ∀ b, p.buffers target = some b → b.mRealSize = 0
  | _ => True

/-- No size a call computes with wraps: neither the number of elements, rounded to whole
chunks, nor the number of their bytes. -/
def SizesFit (B : BufferType) (p : BufferProgram T) : ProgramCall T → Prop
  | .constructSized size => BufferState.RoundFits B size
  | .constructData data => BufferState.RoundFits B data.length
  | .on i c => ∀ b, p.buffers i = some b → BufferState.Fits B ⟨p.heap, b⟩ c
  | _ => True

/-- The call reads or changes the elements of a buffer that does not own them; `set` and the
calls that resize to nothing leave them alone. -/
def LooksAt : BufferCall T → Prop
  | .set _ | .clear => False
  | .resize size _ => size ≠ 0
  | _ => True

/-- Where a call looks at elements the buffer does not own, they are still there, and `reserve`
keeps room for all of them. -/
def Backed (p : BufferProgram T) : ProgramCall T → Prop
  | .on i c => ∀ b, p.buffers i = some b → b.injected → LooksAt c →
      (∀ r, b.mBuf = some r → r ∉ p.heap.freed) ∧ ∀ n, c = .reserve n → b.mSize ≤ n
  | _ => True

/-- What a program has to keep to.  A move takes from a buffer that can be disowned, no size or
number of bytes is wrapped, and what is passed has a meaning in the state. -/
structure Proper (B : BufferType) (p : BufferProgram T) (c : ProgramCall T) : Prop where
  handsOver : p.HandsOver c
  sizesFit : p.SizesFit B c
  backed : p.Backed c

/-- The blocks owned by the buffers of the program. -/
def owners (p : BufferProgram T) : List ℕ :=
  (List.range p.count).filterMap fun i => (p.buffers i).bind owned

/-- Every block was given back or is owned by one buffer.  The blocks are those obtained from the
allocator so far; none was given back twice, and no block that is owned was given back. -/
structure Settled (p : BufferProgram T) : Prop where
  ledger : Ledger p.heap.blocks p.heap.freed p.owners
  wellOwned : ∀ i b, p.buffers i = some b → b.WellOwned
  fresh : ∀ i, p.count ≤ i → p.buffers i = none

/-- The blocks owned by the buffers other than `i`. -/
def rest (p : BufferProgram T) (i : ℕ) : List ℕ :=
  ((List.range p.count).erase i).filterMap fun j => (p.buffers j).bind owned

section Settled

variable {p : BufferProgram T} {i : ℕ} {b : HeapBuffer}

theorem Settled.lt (h : p.Settled) (hb : p.buffers i = some b) : i < p.count := by
  by_contra hge
  rw [h.fresh i (by omega)] at hb
  simp at hb

/-- What a buffer owns and what the others own is what all own. -/
theorem owners_perm (hi : i < p.count) (hb : p.buffers i = some b) :
    p.owners.Perm (b.owned.toList ++ p.rest i) := by
  have hsplit := filterMap_perm_erase (fun j => (p.buffers j).bind owned)
    (List.mem_range.mpr hi)
  rw [hb] at hsplit
  exact hsplit

/-- What is owned after the buffer `i` was replaced or destroyed. -/
theorem owners_update (p' : BufferProgram T) {x : Option HeapBuffer} (hi : i < p.count)
    (hcount : p'.count = p.count) (hbuffers : p'.buffers = Function.update p.buffers i x) :
    p'.owners.Perm ((x.bind owned).toList ++ p.rest i) := by
  have hsplit := filterMap_perm_erase (fun j => (p'.buffers j).bind owned)
    (List.mem_range.mpr hi)
  have hrest : ((List.range p.count).erase i).filterMap
      (fun j => (p'.buffers j).bind owned) = p.rest i := by
    refine filterMap_erase_congr List.nodup_range fun j _ hj => ?_
    rw [hbuffers, Function.update_of_ne hj]
  have hself : p'.buffers i = x := by rw [hbuffers, Function.update_self]
  rw [hrest, hself] at hsplit
  rw [owners, hcount]
  exact hsplit

theorem owners_put (hi : i < p.count) (s : BufferState T) :
    (p.put i s).owners.Perm (s.buffer.owned.toList ++ p.rest i) :=
  owners_update (p.put i s) hi rfl rfl

theorem add_buffers_self (s : BufferState T) :
    (p.add s).buffers p.count = some s.buffer := Function.update_self _ _ _

theorem add_buffers_of_ne (s : BufferState T) {j : ℕ} (hj : j ≠ p.count) :
    (p.add s).buffers j = p.buffers j := Function.update_of_ne hj _ _

/-- What is owned after a buffer was added. -/
theorem owners_add (s : BufferState T) :
    (p.add s).owners.Perm (s.buffer.owned.toList ++ p.owners) := by
  have hold : (List.range p.count).filterMap (fun j => ((p.add s).buffers j).bind owned) =
      p.owners := by
    refine List.filterMap_congr fun j hj => ?_
    rw [add_buffers_of_ne s (List.mem_range.mp hj).ne]
  rw [owners, show (p.add s).count = p.count + 1 from rfl, List.range_succ,
    List.filterMap_append, hold]
  refine List.perm_append_comm.trans (List.Perm.append_right _ ?_)
  rw [List.filterMap_cons, add_buffers_self, List.filterMap_nil, Option.bind_some]
  cases s.buffer.owned with
  | none => exact List.Perm.refl _
  | some r => exact List.Perm.refl _

theorem wellOwned_update {f : ℕ → Option HeapBuffer} {x : Option HeapBuffer}
    (hf : ∀ j b, f j = some b → b.WellOwned) (hx : ∀ b, x = some b → b.WellOwned) :
    ∀ j b, Function.update f i x j = some b → b.WellOwned := by
  intro j b hb
  by_cases hj : j = i
  · subst hj
    rw [Function.update_self] at hb
    exact hx b hb
  · rw [Function.update_of_ne hj] at hb
    exact hf j b hb

theorem fresh_update {f : ℕ → Option HeapBuffer} {x : Option HeapBuffer} {n : ℕ}
    (hf : ∀ j, n ≤ j → f j = none) (hi : i < n) :
    ∀ j, n ≤ j → Function.update f i x j = none := by
  intro j hj
  rw [Function.update_of_ne (by omega)]
  exact hf j hj

/-- The blocks seen from one buffer. -/
theorem Settled.owns (h : p.Settled) (hb : p.buffers i = some b) :
    BufferState.Owns ⟨p.heap, b⟩ (p.rest i) :=
  ⟨h.ledger.perm (List.Perm.refl _) (owners_perm (h.lt hb) hb).symm, h.wellOwned i b hb⟩

theorem Settled.put (h : p.Settled) (hi : i < p.count) {s : BufferState T}
    (hs : s.Owns (p.rest i)) : (p.put i s).Settled := by
  refine ⟨hs.ledger.perm (List.Perm.refl _) (owners_put hi s),
    wellOwned_update h.wellOwned ?_, fresh_update h.fresh hi⟩
  rintro b ⟨⟩
  exact hs.wellOwned

theorem Settled.add (h : p.Settled) {s : BufferState T} (hs : s.Owns p.owners) :
    (p.add s).Settled := by
  refine ⟨hs.ledger.perm (List.Perm.refl _) (owners_add s),
    wellOwned_update h.wellOwned ?_, ?_⟩
  · rintro b ⟨⟩
    exact hs.wellOwned
  · intro j hj
    have hlt : p.count + 1 ≤ j := hj
    rw [add_buffers_of_ne s (by omega)]
    exact h.fresh j (by omega)

theorem Settled.owns_initial (h : p.Settled) :
    BufferState.Owns ⟨p.heap, .initial⟩ p.owners :=
  ⟨h.ledger, fun hne => absurd rfl hne⟩

end Settled

/-! ### Moves -/

/-- A move from a buffer that owns memory only together with elements. -/
theorem move_owned {b : HeapBuffer} (h : b.mSize ≠ 0 ∨ b.mRealSize = 0) :
    b.move.1.owned = b.owned ∧ b.move.2.owned = none := by
  refine ⟨rfl, ?_⟩
  rw [move, disown]
  by_cases hempty : b.empty
  · rw [if_pos hempty]
    have hzero : b.mSize = 0 := by simpa [empty] using hempty
    exact if_pos (h.resolve_left (not_not.mpr hzero))
  · rw [if_neg hempty]
    rfl

theorem disown_wellOwned {b : HeapBuffer} (h : b.WellOwned) : b.disown.WellOwned := by
  rw [disown]
  split
  · exact h
  · exact fun hne => absurd rfl hne

/-- Disowning a buffer without elements or without memory of its own changes
nothing. -/
theorem disown_owned {b : HeapBuffer} (h : b.mSize = 0 ∨ b.mRealSize = 0) :
    b.disown.owned = b.owned := by
  rw [disown]
  split
  · rfl
  · rename_i hempty
    have hne : b.mSize ≠ 0 := by simpa [empty] using hempty
    rw [owned, owned, if_pos (h.resolve_left hne), if_pos rfl]

/-- Move construction hands the memory over to the new buffer. -/
theorem Settled.moveConstruct {p : BufferProgram T} (h : p.Settled) {source : ℕ}
    {b : HeapBuffer} (hb : p.buffers source = some b) (hc : b.mSize ≠ 0 ∨ b.mRealSize = 0) :
    ((p.put source ⟨p.heap, b.move.2⟩).add ⟨p.heap, b.move.1⟩).Settled := by
  obtain ⟨htarget, hsource⟩ := move_owned hc
  have hwell := h.wellOwned source b hb
  have howners : ((p.put source ⟨p.heap, b.move.2⟩).add ⟨p.heap, b.move.1⟩).owners.Perm
      p.owners := by
    have hput := owners_put (h.lt hb) (⟨p.heap, b.move.2⟩ : BufferState T)
    have hadd := owners_add (p := p.put source ⟨p.heap, b.move.2⟩) ⟨p.heap, b.move.1⟩
    dsimp only at hput hadd
    rw [hsource] at hput
    rw [htarget] at hadd
    exact (hadd.trans (hput.append_left _)).trans (owners_perm (h.lt hb) hb).symm
  refine ⟨h.ledger.perm (List.Perm.refl _) howners,
    wellOwned_update (wellOwned_update h.wellOwned ?_) ?_, ?_⟩
  · rintro b' ⟨⟩
    exact disown_wellOwned hwell
  · rintro b' ⟨⟩
    exact hwell
  · intro j hj
    have hlt : p.count + 1 ≤ j := hj
    have hold : ((p.put source ⟨p.heap, b.move.2⟩).add ⟨p.heap, b.move.1⟩).buffers j =
        (p.put source (⟨p.heap, b.move.2⟩ : BufferState T)).buffers j :=
      add_buffers_of_ne _ (show j ≠ p.count by omega)
    rw [hold]
    exact fresh_update h.fresh (h.lt hb) j (by omega)

/-- Move assignment to itself. -/
theorem Settled.moveSelf {p : BufferProgram T} (h : p.Settled) {source : ℕ}
    {b : HeapBuffer} (hb : p.buffers source = some b) (hc : b.mSize = 0 ∨ b.mRealSize = 0) :
    (p.put source ⟨p.heap, b.move.2⟩).Settled := by
  have howns := h.owns hb
  refine h.put (h.lt hb) ⟨?_, disown_wellOwned howns.wellOwned⟩
  have hledger := howns.ledger
  rw [← disown_owned hc] at hledger
  exact hledger

/-- Move assignment hands the memory over to a buffer that owns none. -/
theorem Settled.moveAssign {p : BufferProgram T} (h : p.Settled) {target source : ℕ}
    {a b : HeapBuffer} (hne : target ≠ source) (ha : p.buffers target = some a)
    (hb : p.buffers source = some b) (hc : b.mSize ≠ 0 ∨ b.mRealSize = 0)
    (hfree : a.mRealSize = 0) :
    ((p.put target ⟨p.heap, b.move.1⟩).put source ⟨p.heap, b.move.2⟩).Settled := by
  obtain ⟨htarget, hsource⟩ := move_owned hc
  have hwell := h.wellOwned source b hb
  have hlt : source < (p.put target ⟨p.heap, b.move.1⟩).count := h.lt hb
  have hb' : (p.put target ⟨p.heap, b.move.1⟩).buffers source = some b :=
    (Function.update_of_ne (Ne.symm hne) _ _).trans hb
  -- the target owns nothing before, so all memory is owned by the others
  have hall : p.owners.Perm (p.rest target) := by
    have hsplit := owners_perm (h.lt ha) ha
    rwa [show a.owned = none from if_pos hfree] at hsplit
  have howners : ((p.put target ⟨p.heap, b.move.1⟩).put source
      ⟨p.heap, b.move.2⟩).owners.Perm p.owners := by
    have hfirst := owners_put (h.lt ha) (⟨p.heap, b.move.1⟩ : BufferState T)
    have hsecond := owners_put hlt (⟨p.heap, b.move.2⟩ : BufferState T)
    dsimp only at hfirst hsecond
    rw [htarget] at hfirst
    rw [hsource] at hsecond
    have hrest := (List.perm_append_left_iff _).mp
      ((owners_perm hlt hb').symm.trans hfirst)
    exact (hsecond.trans hrest).trans hall.symm
  refine ⟨h.ledger.perm (List.Perm.refl _) howners,
    wellOwned_update (wellOwned_update h.wellOwned ?_) ?_,
    fresh_update (fresh_update h.fresh (h.lt ha)) hlt⟩
  · rintro b' ⟨⟩
    exact hwell
  · rintro b' ⟨⟩
    exact disown_wellOwned hwell

variable [Inhabited T] [BEq T]

/-- **One call.**  A call whose move hands over keeps the ledger.  Calls on one buffer settle the
old block when they obtain a new one; injecting and moving settle what the target owned, and a move
passes the block on. -/
theorem Settled.exec {p p' : BufferProgram T} (h : p.Settled) {c : ProgramCall T}
    (hc : p.HandsOver c) (hexec : p.exec B c = some p') : p'.Settled := by
  cases c with
  | construct =>
      obtain rfl := Option.some.inj hexec
      exact h.add h.owns_initial
  | constructSized size =>
      obtain rfl := Option.some.inj hexec
      refine h.add ?_
      rw [BufferState.constructSized]
      split
      · exact h.owns_initial.resize _ _
      · exact h.owns_initial
  | constructData data =>
      obtain rfl := Option.some.inj hexec
      exact h.add (h.owns_initial.set data)
  | moveConstruct source =>
      obtain ⟨b, hb, rfl⟩ := Option.map_eq_some_iff.mp hexec
      exact h.moveConstruct hb (hc b hb)
  | moveAssign target source =>
      obtain ⟨a, ha, hmap⟩ := Option.bind_eq_some_iff.mp hexec
      obtain ⟨b, hb, rfl⟩ := Option.map_eq_some_iff.mp hmap
      dsimp only
      by_cases hself : target = source
      · rw [HandsOver, if_pos hself] at hc
        rw [if_pos hself]
        exact h.moveSelf hb (hc b hb)
      · rw [HandsOver, if_neg hself] at hc
        rw [if_neg hself]
        exact h.moveAssign hself ha hb (hc.1 b hb) (hc.2 a ha)
  | on i c =>
      obtain ⟨b, hb, rfl⟩ := Option.map_eq_some_iff.mp hexec
      exact h.put (h.lt hb) (BufferState.exec_owns (h.owns hb) c)
  | destroy i =>
      obtain ⟨b, hb, rfl⟩ := Option.map_eq_some_iff.mp hexec
      obtain ⟨howns, hnone⟩ := BufferState.destruct_owns (B := B) (h.owns hb)
      have hledger := howns.ledger
      rw [hnone] at hledger
      exact ⟨hledger.perm (List.Perm.refl _) (owners_update (p.drop i _) (h.lt hb) rfl rfl),
        wellOwned_update h.wellOwned nofun, fresh_update h.fresh (h.lt hb)⟩

omit [Inhabited T] [BEq T] in
/-- Without buffers nothing is owned. -/
theorem settled_start (grants : ℕ → Bool) : (start grants : BufferProgram T).Settled :=
  ⟨Ledger.empty, nofun, fun _ _ => rfl⟩

omit [Inhabited T] [BEq T] in
/-- Two buffers do not own one block. -/
theorem Settled.eq_of_owned {p : BufferProgram T} (h : p.Settled) {i j : ℕ}
    {a b : HeapBuffer} (ha : p.buffers i = some a) (hb : p.buffers j = some b)
    (hai : a.mRealSize ≠ 0) (hbj : b.mRealSize ≠ 0) (hsame : a.mBuf = b.mBuf) : i = j := by
  by_contra hne
  obtain ⟨r, hr⟩ := Option.isSome_iff_exists.mp (h.wellOwned i a ha hai)
  have haowned : a.owned = some r := by rw [owned, if_neg hai, hr]
  have hbowned : b.owned = some r := by rw [owned, if_neg hbj, ← hsame, hr]
  have hrest : r ∈ p.rest i := by
    refine List.mem_filterMap.mpr ⟨j, ?_, by rw [hb]; exact hbowned⟩
    rw [List.nodup_range.mem_erase_iff]
    exact ⟨Ne.symm hne, List.mem_range.mpr (h.lt hb)⟩
  have hnodup := (owners_perm (h.lt ha) ha).nodup_iff.mp h.ledger.held_nodup
  rw [haowned] at hnodup
  exact (List.nodup_cons.mp hnodup).1 hrest

omit [Inhabited T] [BEq T] in
/-- A program without buffers owns nothing. -/
theorem owners_eq_nil {p : BufferProgram T} (h : ∀ i, p.buffers i = none) :
    p.owners = [] := by
  refine List.filterMap_eq_nil_iff.mpr fun i _ => ?_
  rw [h i]
  rfl

/-! ### Every run -/

end BufferProgram

end Tklb
