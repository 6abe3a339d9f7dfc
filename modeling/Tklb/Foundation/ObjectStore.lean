import Mathlib.Data.List.Basic
import Mathlib.Logic.Function.Basic
import Tklb.Foundation.Ledger

/-!
# Objects in raw storage

Storage comes in blocks of slots.  A slot is raw, or an object lives in it: a
value, together with the number of the constructor call that made the object.
Objects are made by constructing into a slot and end by destroying a slot;
copying the bytes of a block moves objects without either.

The store also keeps the books a client of the element type could keep: how many
objects were constructed, which were destroyed, which were overwritten because
another object was constructed where they lived, and how often a destructor ran
where no object lived.

### What is load-bearing

* Constructing, destroying and relocating are total.  Doing it to the wrong slot is possible,
  and is recorded, so a program is verified by what is in the record afterwards.
* An object keeps its number when its bytes are moved.  Two copies of the bytes are therefore
  one object in two places, and a client that goes on to use both will destroy it twice.
* `constructFrom` and `destroyFrom` are described slot by slot, like the loops of `Loops`.
-/

namespace Tklb.Foundation

universe u

/-- Storage for objects of type `T`, with the record of what happened to them.  The record is what a
counting element type would see: it is not needed to run a program, and is all that is needed to say
whether it treats objects as it should. -/
structure ObjectStore (T : Type u) where
  /-- The object in a slot of a block, and the number of its construction. -/
  slot : ℕ → ℕ → Option (T × ℕ)
  built : ℕ
  destroyed : List ℕ
  overwritten : List ℕ
  strayed : ℕ

namespace ObjectStore

variable {T : Type u}

/-- Storage nothing was done with. -/
def initial : ObjectStore T := ⟨fun _ _ => none, 0, [], [], 0⟩

/-- The store with another content of one slot. -/
def put (s : ObjectStore T) (b i : ℕ) (x : Option (T × ℕ)) : ObjectStore T :=
  { s with slot := Function.update s.slot b (Function.update (s.slot b) i x) }

/-- Construct an object in a slot. -/
def construct (s : ObjectStore T) (b i : ℕ) (v : T) : ObjectStore T :=
  { s.put b i (some (v, s.built)) with
    built := s.built + 1
    overwritten := ((s.slot b i).map Prod.snd).toList ++ s.overwritten }

/-- Run the destructor on a slot. -/
def destroy (s : ObjectStore T) (b i : ℕ) : ObjectStore T :=
  { s.put b i none with
    destroyed := ((s.slot b i).map Prod.snd).toList ++ s.destroyed
    strayed := if (s.slot b i).isSome then s.strayed else s.strayed + 1 }

/-- Move the bytes of one slot to another of the same block. -/
def relocate (s : ObjectStore T) (b dst src : ℕ) : ObjectStore T :=
  (s.put b dst (s.slot b src)).put b src none

/-- Construct objects in consecutive slots. -/
def constructFrom (s : ObjectStore T) (b : ℕ) : ℕ → List T → ObjectStore T
  | _, [] => s
  | i, v :: vs => (s.construct b i v).constructFrom b (i + 1) vs

/-- Run the destructor on `n` consecutive slots. -/
def destroyFrom (s : ObjectStore T) (b : ℕ) : ℕ → ℕ → ObjectStore T
  | _, 0 => s
  | i, n + 1 => (s.destroy b i).destroyFrom b (i + 1) n

/-- The storage of a block is raw. -/
def clear (s : ObjectStore T) (b : ℕ) : ObjectStore T :=
  { s with slot := Function.update s.slot b fun _ => none }

/-- Copy the bytes of the first `n` slots of a block to another block. -/
def copy (s : ObjectStore T) (dst src n : ℕ) : ObjectStore T :=
  { s with
    slot := Function.update s.slot dst fun i =>
      if i < n then s.slot src i else s.slot dst i }

variable {s : ObjectStore T} {b i : ℕ}

@[simp] theorem put_slot (x : Option (T × ℕ)) (j : ℕ) :
    (s.put b i x).slot b j = if j = i then x else s.slot b j := by
  simp [put, Function.update_apply]

/-- Destroying a slot an object lives in settles that object. -/
theorem destroy_of_some {x : T × ℕ} (h : s.slot b i = some x) :
    (s.destroy b i).destroyed = x.2 :: s.destroyed ∧
      (s.destroy b i).strayed = s.strayed := by
  simp [destroy, h]

theorem destroy_slot (j : ℕ) :
    (s.destroy b i).slot b j = if j = i then none else s.slot b j := put_slot _ _

theorem relocate_slot (dst src j : ℕ) : (s.relocate b dst src).slot b j =
    if j = src then none else if j = dst then s.slot b src else s.slot b j := by
  rw [relocate, put_slot, put_slot]

@[simp] theorem clear_slot_self : (s.clear b).slot b i = none := by
  simp [clear]

@[simp] theorem clear_slot_of_ne {b' : ℕ} (h : b' ≠ b) :
    (s.clear b).slot b' = s.slot b' := by
  simp [clear, h]

@[simp] theorem copy_slot_self {src n : ℕ} :
    (s.copy b src n).slot b i = if i < n then s.slot src i else s.slot b i := by
  simp [copy]

/-- Consecutive constructions: the slots get the values in order, numbered from
the next number on. -/
theorem constructFrom_slot {lo : ℕ} {vs : List T} (i : ℕ) :
    (s.constructFrom b lo vs).slot b i =
      if lo ≤ i ∧ i < lo + vs.length then (vs.zipIdx s.built)[i - lo]?
      else s.slot b i := by
  induction vs generalizing s lo with
  | nil => rw [constructFrom, List.length_nil, if_neg (by omega)]
  | cons v vs ih =>
      have hbuilt : (s.construct b lo v).built = s.built + 1 := rfl
      have hslot : (s.construct b lo v).slot b i =
          if i = lo then some (v, s.built) else s.slot b i := put_slot _ _
      rw [constructFrom, ih, hbuilt, hslot, List.length_cons, List.zipIdx_cons]
      rcases Nat.lt_trichotomy i lo with hlt | rfl | hgt
      · rw [if_neg (by omega), if_neg (by omega), if_neg (by omega)]
      · rw [if_neg (by omega), if_pos rfl, if_pos (by omega), Nat.sub_self]
        rfl
      · by_cases hin : i < lo + (vs.length + 1)
        · rw [if_pos (by omega), if_pos (by omega),
            show i - lo = i - (lo + 1) + 1 by omega, List.getElem?_cons_succ]
        · rw [if_neg (by omega), if_neg (by omega), if_neg (by omega)]

theorem constructFrom_built {lo : ℕ} {vs : List T} :
    (s.constructFrom b lo vs).built = s.built + vs.length := by
  induction vs generalizing s lo with
  | nil => rfl
  | cons v vs ih =>
      rw [constructFrom, ih, List.length_cons]
      simp only [construct]
      omega

@[simp] theorem constructFrom_destroyed {lo : ℕ} {vs : List T} :
    (s.constructFrom b lo vs).destroyed = s.destroyed := by
  induction vs generalizing s lo with
  | nil => rfl
  | cons v vs ih => rw [constructFrom, ih]; rfl

@[simp] theorem constructFrom_strayed {lo : ℕ} {vs : List T} :
    (s.constructFrom b lo vs).strayed = s.strayed := by
  induction vs generalizing s lo with
  | nil => rfl
  | cons v vs ih => rw [constructFrom, ih]; rfl

/-- Constructing in raw slots overwrites nothing. -/
theorem constructFrom_overwritten {lo : ℕ} {vs : List T}
    (hraw : ∀ i, lo ≤ i → i < lo + vs.length → s.slot b i = none) :
    (s.constructFrom b lo vs).overwritten = s.overwritten := by
  induction vs generalizing s lo with
  | nil => rfl
  | cons v vs ih =>
      rw [List.length_cons] at hraw
      rw [constructFrom, ih]
      · simp [construct, hraw lo le_rfl (by omega)]
      · intro i hlo hhi
        simp only [construct, put_slot]
        rw [if_neg (by omega)]
        exact hraw i (by omega) (by omega)

/-- Consecutive destructions leave raw slots. -/
theorem destroyFrom_slot {lo n : ℕ} (i : ℕ) :
    (s.destroyFrom b lo n).slot b i =
      if lo ≤ i ∧ i < lo + n then none else s.slot b i := by
  induction n generalizing s lo with
  | zero => rw [destroyFrom, if_neg (by omega)]
  | succ n ih =>
      rw [destroyFrom, ih, destroy_slot]
      by_cases hin : lo ≤ i ∧ i < lo + (n + 1)
      · rw [if_pos hin]
        split
        · rfl
        · rw [if_pos (by omega)]
      · rw [if_neg (by omega), if_neg (by omega), if_neg hin]

theorem put_slot_of_ne {b' : ℕ} (h : b' ≠ b) (x : Option (T × ℕ)) :
    (s.put b i x).slot b' = s.slot b' := Function.update_of_ne h _ _

theorem constructFrom_slot_of_ne {b' lo : ℕ} (h : b' ≠ b) {vs : List T} :
    (s.constructFrom b lo vs).slot b' = s.slot b' := by
  induction vs generalizing s lo with
  | nil => rfl
  | cons v vs ih =>
      rw [constructFrom, ih]
      exact put_slot_of_ne h _

theorem destroyFrom_slot_of_ne {b' lo n : ℕ} (h : b' ≠ b) :
    (s.destroyFrom b lo n).slot b' = s.slot b' := by
  induction n generalizing s lo with
  | zero => rfl
  | succ n ih =>
      rw [destroyFrom, ih]
      exact put_slot_of_ne h _

@[simp] theorem destroyFrom_built {lo n : ℕ} : (s.destroyFrom b lo n).built = s.built := by
  induction n generalizing s lo with
  | zero => rfl
  | succ n ih => rw [destroyFrom, ih]; rfl

@[simp] theorem destroyFrom_overwritten {lo n : ℕ} :
    (s.destroyFrom b lo n).overwritten = s.overwritten := by
  induction n generalizing s lo with
  | zero => rfl
  | succ n ih => rw [destroyFrom, ih]; rfl

/-- Destroying the slots of the objects `objs` settles these objects. -/
theorem destroyFrom_objects {objs : List (T × ℕ)} {lo : ℕ}
    (hlive : ∀ i < objs.length, s.slot b (lo + i) = objs[i]?) :
    (s.destroyFrom b lo objs.length).destroyed.Perm
        (objs.map Prod.snd ++ s.destroyed) ∧
      (s.destroyFrom b lo objs.length).strayed = s.strayed := by
  induction objs generalizing s lo with
  | nil => exact ⟨List.Perm.refl _, rfl⟩
  | cons x objs ih =>
      have hhead : s.slot b lo = some x := by
        simpa using hlive 0 (by rw [List.length_cons]; omega)
      have htail : ∀ i < objs.length, (s.destroy b lo).slot b (lo + 1 + i) = objs[i]? := by
        intro i hi
        rw [destroy_slot, if_neg (by omega), show lo + 1 + i = lo + (i + 1) by omega,
          hlive (i + 1) (by rw [List.length_cons]; omega), List.getElem?_cons_succ]
      obtain ⟨hperm, hstrayed⟩ := ih htail
      obtain ⟨hdestroyed, hsame⟩ := destroy_of_some hhead
      rw [List.length_cons, destroyFrom, List.map_cons]
      refine ⟨?_, hstrayed.trans hsame⟩
      rw [hdestroyed] at hperm
      exact hperm.trans List.perm_middle

/-- The numbers of the objects just constructed. -/
theorem map_snd_zipIdx (vs : List T) (n : ℕ) :
    (vs.zipIdx n).map Prod.snd = List.range' n vs.length := by
  induction vs generalizing n with
  | nil => rfl
  | cons v vs ih => rw [List.zipIdx_cons, List.map_cons, ih, List.length_cons, List.range'_succ]

end ObjectStore

end Tklb.Foundation
