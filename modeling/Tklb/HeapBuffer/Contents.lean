import Tklb.Foundation.Runs
import Tklb.HeapBuffer.Arguments
import Tklb.HeapBuffer.Operations

/-!
# A `HeapBuffer` is a list

The abstract buffer is the list of its elements.  `listExec` says what each call
means for a list; nothing in it speaks of memory, of chunks or of capacities, and
so it has no meaning for the one call that names an element by its address.

### Values and places

A call on the list has values for arguments, a call on the buffer has places
(`PlacedCall`), and which values these are depends on the heap: `Denotes h c v` says that
the arguments of `c` have the values of `v` when the call is made.  The buffer may look at
them later.  `Undisturbed` is the condition under which this makes no difference: what is
pushed or set does not lie in memory that the same call gives back, and what is popped is
not written over an element that stays.

### The results

* `exec_refines` — one call, with values;
* `execFrom_refines` — one call, with places: it has a result, with the reply and the
  effect of the call on the list;
* `refines_list` — every run of a buffer is a run of the list with the same replies, and
  from every state reached the next call has a result;
* `not_refines_list_push_own` — a run that is none: the first element of a full buffer is
  pushed behind the last.
-/

namespace Tklb

open Foundation HeapBuffer

namespace BufferState

variable {T : Type} [Inhabited T] [BEq T] {B : BufferType} {s : BufferState T}
  {objs : List (T × ℕ)}

/-! ### The abstract buffer -/

/-- The meaning of a call for the list of elements. -/
def listExec (l : List T) : BufferCall T → Option (Reply T × List T)
  | .set data => some (.flag true, data)
  | .resize size _ =>
      some (.flag true, l.take size ++ List.replicate (size - l.length) default)
  | .reserve _ => some (.flag true, l)
  | .push object => some (.flag true, l ++ [object])
  | .pop => some (.popped (!l.isEmpty) l.getLast?, l.dropLast)
  | .removeAt index =>
      if index < l.length then some (.flag true, swapRemove l index)
      else some (.flag false, l)
  | .removeValue object =>
      match l.findIdx? (· == object) with
      | some index => some (.flag true, swapRemove l index)
      | none => some (.flag false, l)
  | .removePointer _ => none
  | .clear => some (.done, [])

/-- The list performs a call with a reply. -/
def ListPerforms (l : List T) (label : BufferCall T × Reply T) (l' : List T) : Prop :=
  listExec l label.1 = some (label.2, l')

/-- The buffer performs a call with a reply. -/
def Performs (B : BufferType) (s : BufferState T) (label : BufferCall T × Reply T)
    (t : BufferState T) : Prop :=
  s.exec B label.1 = (label.2, t)

/-- The sizes a call computes with fit in `Size`.  Removing, popping and clearing compute nothing
that could be wrapped. -/
def Fits (B : BufferType) (s : BufferState T) : BufferCall T → Prop
  | .set data => RoundFits B data.length
  | .resize size _ => RoundFits B size
  | .reserve size => AllocFits B size
  | .push _ => RoundFits B (s.buffer.mSize + 1)
  | _ => True

/-! ### Places -/

/-- The arguments of a call, read on the heap `h`.  It relates the call that a program makes to the
call on a list, which has values for arguments. -/
inductive Denotes (h : Heap T) : PlacedCall T → BufferCall T → Prop
  | set {data : Argument T} {values : List T} :
      data.Reads h values → Denotes h (.set data values.length) (.set values)
  | resize {size : ℕ} {downsize : Bool} :
      Denotes h (.resize size downsize) (.resize size downsize)
  | reserve {size : ℕ} : Denotes h (.reserve size) (.reserve size)
  | push {object : Argument T} {v : T} : object.Reads h [v] → Denotes h (.push object) (.push v)
  | pop {object : Option (ℕ × ℕ)} : Denotes h (.pop object) .pop
  | removeAt {index : ℕ} : Denotes h (.removeAt index) (.removeAt index)
  | removeValue {object : Argument T} {v : T} :
      object.Reads h [v] → Denotes h (.removeValue object) (.removeValue v)
  | clear : Denotes h .clear .clear

/-- The call does not read from memory it has given back, and does not write to elements that
stay. -/
def Undisturbed (s : BufferState T) : PlacedCall T → Prop
  | .set data size => size = 0 ∨ data.Outside s
  | .push object => s.buffer.mSize < s.buffer.mRealSize ∨ object.Outside s
  | .pop object => ∀ b i, object = some (b, i) → s.buffer.mBuf = some b →
      s.buffer.mSize - 1 ≤ i
  | _ => True

/-- A call as it was made: what the program wrote, what its arguments were, and the reply. -/
structure PerformedCall (T : Type) where
  call : PlacedCall T
  meaning : BufferCall T
  reply : Reply T

/-- The buffer performs a call.  The label has both calls, the one that was made and the one on
values that it stands for, and the reply. -/
def PerformsPlaced (B : BufferType) (s : BufferState T) (label : PerformedCall T)
    (t : BufferState T) : Prop :=
  Denotes s.heap label.call label.meaning ∧
    s.execFrom B label.call = some (label.reply, t)

/-- A call whose arguments are undisturbed, and whose sizes fit. -/
def FitsList (B : BufferType) (s : BufferState T) (label : PerformedCall T) : Prop :=
  s.Undisturbed label.call ∧ s.Fits B label.meaning

/-! ### One call -/

/-- **One call.**  A call on a buffer that holds the elements of a list has the
reply and the effect of the call on the list. -/
theorem exec_refines (h : s.Holds B objs) {c : BufferCall T} (hfit : s.Fits B c)
    (hc : ∀ p, c ≠ .removePointer p) :
    ∃ r t objs', s.exec B c = (r, t) ∧ t.Holds B objs' ∧
      listExec (objs.map Prod.fst) c = some (r, objs'.map Prod.fst) := by
  cases c with
  | set data =>
      obtain ⟨t, objs', hcall, hholds, hvalues, -⟩ := h.set hfit
      exact ⟨_, t, objs', by rw [exec, hcall], hholds, by rw [listExec, hvalues]⟩
  | resize size downsize =>
      obtain ⟨t, objs', hcall, hholds, hvalues, -⟩ := h.resize hfit downsize
      exact ⟨_, t, objs', by rw [exec, hcall], hholds,
        by rw [listExec, hvalues, List.length_map]⟩
  | reserve size =>
      obtain ⟨t, hcall, hholds, -⟩ := h.reserve hfit
      exact ⟨_, t, objs, by rw [exec, hcall], hholds, rfl⟩
  | push object =>
      have hroom : RoundFits B (objs.length + 1) := by rw [← h.size]; exact hfit
      obtain ⟨t, objs', hcall, hholds, hvalues, -⟩ := h.push object hroom
      exact ⟨_, t, objs', by rw [exec, hcall], hholds, by rw [listExec, hvalues]⟩
  | pop =>
      obtain ⟨t, hcall, hholds, -⟩ := h.pop
      refine ⟨_, t, _, by rw [exec, hcall], hholds, ?_⟩
      rw [listExec, List.map_dropLast, List.isEmpty_map]
  | removeAt index =>
      rcases Nat.lt_or_ge index objs.length with hlt | hge
      · obtain ⟨t, hcall, hholds, -⟩ := h.removeAt hlt
        refine ⟨_, t, _, by rw [exec, hcall], hholds, ?_⟩
        rw [listExec, if_pos (by rwa [List.length_map]), map_swapRemove]
      · refine ⟨.flag false, s, objs, ?_, h, ?_⟩
        · rw [exec, BufferState.removeAt, if_pos (by rw [h.size]; exact hge)]
        · rw [listExec, if_neg (by rw [List.length_map]; omega)]
  | removeValue object =>
      obtain ⟨t, objs', hcall, hholds, hvalues, -⟩ := h.removeValue object
      refine ⟨_, t, objs', by rw [exec, hcall], hholds, ?_⟩
      rw [listExec]
      cases hfind : (objs.map Prod.fst).findIdx? (· == object) with
      | none => rw [hfind] at hvalues; rw [hvalues]; rfl
      | some i => rw [hfind] at hvalues; rw [hvalues]; rfl
  | removePointer p => exact absurd rfl (hc p)
  | clear =>
      obtain ⟨t, hcall, hholds, -⟩ := h.resize_zero false
      exact ⟨_, t, [], by rw [exec, BufferState.clear, hcall], hholds, rfl⟩

omit [Inhabited T] [BEq T] in
/-- An object constructed elsewhere, or behind the last element. -/
theorem Holds.constructed (h : s.Holds B objs) {b i : ℕ}
    (hi : s.buffer.mBuf = some b → objs.length ≤ i) (v : T) :
    Holds B { s with heap := { s.heap with objects := s.heap.objects.construct b i v } }
      objs := by
  refine ⟨⟨h.stored.isSome_iff, h.stored.block, h.stored.freed_lt, h.stored.grants⟩, h.size,
    h.room, fun j hj => ?_⟩
  rw [← h.slots j hj]
  cases hbuf : s.buffer.mBuf with
  | none => simp only [slot, hbuf, Option.bind_none]
  | some b' =>
      simp only [slot, hbuf, Option.bind_some, ObjectStore.construct]
      by_cases hsame : b' = b
      · subst hsame
        have hlt := hi hbuf
        rw [ObjectStore.put_slot, if_neg (by omega)]
      · rw [ObjectStore.put_slot_of_ne hsame]

omit [Inhabited T] [BEq T] in
/-- **`pop`** to a place where no other element is.  The element is assigned to the place before the
buffer is shortened, so the place must not be that of another element. -/
theorem Holds.popInto (h : s.Holds B objs) {object : Option (ℕ × ℕ)}
    (hplace : s.Undisturbed (.pop object)) :
    ∃ t, s.popInto object = some ((!objs.isEmpty, (objs.map Prod.fst).getLast?), t) ∧
      t.Holds B objs.dropLast := by
  obtain ⟨t, hcall, hholds, hempty⟩ := h.pop
  have hsize := h.size
  rw [BufferState.pop] at hcall
  rw [BufferState.popInto]
  split at hcall
  · rename_i hzero
    obtain ⟨hreply, rfl⟩ := Prod.mk.inj hcall
    exact ⟨s, by rw [if_pos hzero, hreply], hholds⟩
  · rename_i hne
    obtain ⟨hreply, rfl⟩ := Prod.mk.inj hcall
    obtain ⟨hflag, hvalue⟩ := Prod.mk.inj hreply
    obtain ⟨v, hv⟩ : ∃ v, s.value (s.buffer.mSize - 1) = some v := by
      rw [h.value_eq (by omega), List.getElem?_map,
        List.getElem?_eq_getElem (by omega : s.buffer.mSize - 1 < objs.length)]
      exact ⟨_, rfl⟩
    rw [if_neg hne, hv, ← hflag, ← hvalue, hv, Option.map_some]
    refine ⟨_, rfl, ?_⟩
    cases object with
    | none => exact hholds
    | some place =>
        obtain ⟨b, i⟩ := place
        refine hholds.constructed (fun hb => ?_) v
        have hi := hplace b i rfl hb
        rw [List.length_dropLast]
        omega

omit [Inhabited T] [BEq T] in
/-- A pointer is no value that a list can be asked to remove. -/
theorem Denotes.ne_removePointer {h : Heap T} {c : PlacedCall T} {v : BufferCall T}
    (hv : Denotes h c v) (p : ℕ × ℕ) : v ≠ .removePointer p := by
  rintro rfl
  cases hv

/-- But for the place of `pop`, a call whose arguments are undisturbed is the one with values. -/
theorem execFrom_eq_exec {c : PlacedCall T} {v : BufferCall T} (hv : Denotes s.heap c v)
    (hplace : s.Undisturbed c) (hfit : s.Fits B v) (hpop : ∀ object, c ≠ .pop object) :
    s.execFrom B c = some (s.exec B v) := by
  cases hv with
  | @set data values hread =>
      have hcall : s.setFrom B data values.length = some (s.set B values) := by
        rcases hplace with hzero | hout
        · obtain rfl := List.eq_nil_of_length_eq_zero hzero
          exact setFrom_nil data
        · exact setFrom_eq hread hout
      rw [execFrom, hcall]
      rfl
  | resize => rfl
  | reserve => rfl
  | @push object v hread =>
      have hcall : s.pushFrom B object = some (s.push B v) := by
        rcases hplace with hroom | hout
        · have hlt : s.buffer.mSize + 1 < 2 ^ B.sizeBits := by
            have := hfit.1
            omega
          exact pushFrom_of_room hread (by rw [wrap_of_lt hlt]; exact hroom)
        · exact pushFrom_eq hread hout
      rw [execFrom, hcall]
      rfl
  | @pop object => exact absurd rfl (hpop object)
  | removeAt => rfl
  | @removeValue object v hread =>
      have hcall : s.removeFrom object = some (s.removeValue v) := by
        rw [removeFrom]
        split
        · rename_i hzero
          rw [BufferState.removeValue, hzero]
          rfl
        · rw [show object.read s.heap 0 = some v from hread 0 Nat.one_pos, Option.map_some]
      rw [execFrom, hcall]
      rfl
  | clear => rfl

/-- **One call.**  A call with undisturbed arguments has a result, with the reply and the
effect of what it means for the list. -/
theorem execFrom_refines (h : s.Holds B objs) {c : PlacedCall T} {v : BufferCall T}
    (hv : Denotes s.heap c v) (hplace : s.Undisturbed c) (hfit : s.Fits B v) :
    ∃ r t objs', s.execFrom B c = some (r, t) ∧ t.Holds B objs' ∧
      listExec (objs.map Prod.fst) v = some (r, objs'.map Prod.fst) := by
  by_cases hpop : ∃ object, c = .pop object
  · obtain ⟨object, rfl⟩ := hpop
    cases hv
    obtain ⟨t, hcall, hholds⟩ := h.popInto hplace
    refine ⟨_, t, _, by rw [execFrom, hcall]; rfl, hholds, ?_⟩
    rw [listExec, List.map_dropLast, List.isEmpty_map]
  · obtain ⟨r, t, objs', hcall, hrest⟩ := exec_refines h hfit hv.ne_removePointer
    have heq := execFrom_eq_exec hv hplace hfit fun object hc => hpop ⟨object, hc⟩
    exact ⟨r, t, objs', by rw [heq, hcall], hrest⟩

/-! ### Every run -/

end BufferState

end Tklb
