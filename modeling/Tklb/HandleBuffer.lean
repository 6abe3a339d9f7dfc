import Tklb.Foundation.Runs
import Tklb.Foundation.Walks
import Mathlib.Data.List.Basic
import Mathlib.Tactic.Ring

/-!
# `HandleBuffer`

A fixed number of slots, each a storage cell for a `T` and one word `next`.  The
low `MaskBits` bits of `next` link the free slots into a list that starts at
`mStart`; the remaining high bits are the slot's **generation**.  A handle is an
index in the low bits and the generation the slot had when the handle was given
out.

This file is the model: the constants, `resize`, `at`, `has`, `create`, `remove` and
`iterate`, statement by statement.  A read of `mElements[i]` outside the buffer
gives `none`: the source has no defined behaviour there, and a run that reaches
it stops.  The storage of an element is `some` exactly from the placement `new`
in `create` to the destructor call in `remove`.

The second half is the arithmetic of the two bit fields (`Handle.index`,
`Handle.generation`): `create` and `remove` only ever take a word apart into the
fields or glue two fields together, so nothing after this file looks at bits.

### How the model is laid out

* `HandleFormat` has the template arguments on which the bits of a handle depend; everything is
  stated for all formats, and `default32` has the default arguments of the source.
* `HandleBuffer` has the fields of the class.  `resize` is taken to find memory for its slots:
  the storage is a list, and what a refused block does is a matter of `HeapBuffer`.
* `HandleCall`, `HandleSession` and `exec` are a client that creates and removes elements and
  remembers which handles it was given.  `Known` says that it makes up none.

### What is load-bearing

* `bumpGeneration_toNat` — the generation a removal writes is one more, always.  The branch that
  is meant to skip the reserved generation is never taken, and that alone decides what becomes
  of a slot that is used up (`HandleBuffer.Generations`).
* `or_bumpGeneration_index` — the word a removal writes links the slot to itself.  The head of
  the list is nowhere in it, so the rest of the list is lost (`HandleBuffer.FreeList`).
-/

namespace Tklb

/-- The template arguments of `HandleBuffer` that shape a handle: the width of
the unsigned type `Handle` and `GenerationBits`. -/
structure HandleFormat where
  handleBits : ℕ
  generationBits : ℕ
  generationBits_le : generationBits ≤ handleBits

namespace HandleFormat

variable (F : HandleFormat)

/-- The unsigned integer type `Handle`. -/
abbrev Handle : Type := BitVec F.handleBits

/-- `MaskBits = sizeof(Handle) * 8 - GenerationBits` -/
def maskBits : ℕ := F.handleBits - F.generationBits

/-- `MaskIndex = (1 << MaskBits) - 1` -/
def maskIndex : F.Handle := (1#F.handleBits <<< F.maskBits) - 1#F.handleBits

/-- `MaskGeneration = ~MaskIndex` -/
def maskGeneration : F.Handle := ~~~F.maskIndex

/-- The default template arguments: `unsigned int` and 8 generation bits. -/
abbrev default32 : HandleFormat := ⟨32, 8, by decide⟩

/-- `InvalidHandle = ~0` -/
def invalidHandle : F.Handle := ~~~0#F.handleBits

end HandleFormat

/-- One slot: the packed link and generation, and the storage for a `T`, which
is `none` while no `T` lives there. -/
structure Element (F : HandleFormat) (T : Type) where
  next : F.Handle
  value : Option T
  deriving DecidableEq

structure HandleBuffer (F : HandleFormat) (T : Type) where
  mElements : List (Element F T)
  /-- The first free element. -/
  mStart : F.Handle
  /-- The number of free slots. -/
  mFree : F.Handle
  deriving DecidableEq

namespace HandleBuffer

open HandleFormat

variable {F : HandleFormat} {T : Type}

/-- The default constructor: no slots. -/
def empty : HandleBuffer F T := ⟨[], 0, 0⟩

/-- `resize`.  The words of all `size` slots are rewritten; the storage behind
them is kept (new slots are zeroed); `mStart` is left alone.  With `size = 0`
the call `mElements.last()` reads before the buffer. -/
def resize (s : HandleBuffer F T) (size : F.Handle) : Option (HandleBuffer F T) :=
  let elements := s.mElements.take size.toNat ++
    List.replicate (size.toNat - s.mElements.length) ⟨0, none⟩
  let linked := elements.mapIdx fun i element =>
    { element with next := BitVec.ofNat _ (i + 1) }
  if size = 0 then none
  else some
    { mElements := linked.modify (size.toNat - 1) fun element =>
        { element with next := F.maskIndex }
      mStart := s.mStart
      mFree := size }

/-- `HandleBuffer(Handle size)` -/
def construct (size : F.Handle) : Option (HandleBuffer F T) :=
  (empty : HandleBuffer F T).resize size

/-- `at`: the slot whose storage the returned pointer designates, or `none` for
`nullptr`. -/
def atHandle (s : HandleBuffer F T) (handle : F.Handle) : Option (Option ℕ) :=
  if handle = F.invalidHandle then some none
  else
    let index := handle &&& F.maskIndex
    -- an index equal to the size passes this test
    if s.mElements.length < index.toNat then some none
    else do
      let element ← s.mElements[index.toNat]?
      let currentGeneration := element.next &&& F.maskGeneration
      if currentGeneration = F.maskGeneration then some none
      else
        let accessedGeneration := handle &&& F.maskGeneration
        if accessedGeneration ≠ currentGeneration then some none
        else some (some index.toNat)

def has (s : HandleBuffer F T) (handle : F.Handle) : Option Bool :=
  (s.atHandle handle).map Option.isSome

/-- `create`: the handle returned and the buffer afterwards. -/
def create [Inhabited T] (s : HandleBuffer F T) :
    Option (F.Handle × HandleBuffer F T) :=
  if s.mStart = F.maskIndex then some (F.invalidHandle, s)
  else do
    let index := s.mStart
    let element ← s.mElements[index.toNat]?
    some (index ||| (element.next &&& F.maskGeneration),
      { mElements := s.mElements.set index.toNat { element with value := some default }
        mStart := element.next &&& F.maskIndex
        mFree := s.mFree - 1#F.handleBits })

/-- The generation field `remove` writes: one more, the last one skipped. -/
def bumpGeneration (next : F.Handle) : F.Handle :=
  let generation := (next &&& F.maskGeneration) >>> F.maskBits
  let generation := generation + 1#F.handleBits
  let generation := if generation = F.maskGeneration then 0 else generation
  generation <<< F.maskBits

/-- `remove`: whether the handle was valid, and the buffer afterwards.  The word
written into the slot links it to `index`, the slot itself. -/
def remove (s : HandleBuffer F T) (handle : F.Handle) :
    Option (Bool × HandleBuffer F T) := do
  match ← s.atHandle handle with
  | none => some (false, s)
  | some _ =>
    let index := handle &&& F.maskIndex
    let slot ← s.mElements[index.toNat]?
    -- the link is `index`, not the old `mStart`
    some (true,
      { mElements := s.mElements.set index.toNat
          { next := bumpGeneration slot.next ||| index, value := none }
        mStart := index
        mFree := s.mFree + 1#F.handleBits })

/-- One call `iterate` makes: the slot, what is stored there, and the handle passed
with it. -/
structure Visit (F : HandleFormat) (T : Type) where
  slot : ℕ
  value : Option T
  handle : F.Handle
  deriving DecidableEq

/-- The loop of `iterate` from slot `i` on: the calls of `func`, in order. -/
def iterateFrom (i : ℕ) (itemsLeft : F.Handle) : List (Element F T) → List (Visit F T)
  | [] => []
  | element :: rest =>
      -- early out
      if itemsLeft = 0 then []
      else if element.next &&& F.maskGeneration ≠ F.maskGeneration then
        ⟨i, element.value, BitVec.ofNat _ i ||| (element.next &&& F.maskGeneration)⟩ ::
          iterateFrom (i + 1) (itemsLeft - 1#F.handleBits) rest
      else iterateFrom (i + 1) itemsLeft rest

/-- `itemsLeft` before the loop of `iterate`. -/
def itemsLeft (s : HandleBuffer F T) : F.Handle :=
  BitVec.ofNat _ s.mElements.length - s.mFree

/-- `iterate` -/
def iterate (s : HandleBuffer F T) : List (Visit F T) :=
  iterateFrom 0 s.itemsLeft s.mElements

/-- The successor of a slot in the free list, as a reader of the list computes
it; positions outside the buffer end the walk. -/
def link (s : HandleBuffer F T) (i : F.Handle) : F.Handle :=
  (s.mElements[i.toNat]?).elim F.maskIndex fun element =>
    element.next &&& F.maskIndex

end HandleBuffer

/-! ### The two bit fields of a handle -/

namespace HandleFormat

variable (F : HandleFormat)

/-- The index part of a handle. -/
def index (h : F.Handle) : ℕ := (h &&& F.maskIndex).toNat

/-- The generation part of a handle, as a number. -/
def generation (h : F.Handle) : ℕ := h.toNat / 2 ^ F.maskBits

theorem maskBits_le : F.maskBits ≤ F.handleBits := Nat.sub_le _ _

theorem handleBits_eq : F.handleBits = F.maskBits + F.generationBits := by
  have := F.generationBits_le
  unfold maskBits
  omega

theorem two_pow_handleBits :
    2 ^ F.handleBits = 2 ^ F.maskBits * 2 ^ F.generationBits := by
  rw [F.handleBits_eq, pow_add]

theorem maskIndex_toNat : F.maskIndex.toNat = 2 ^ F.maskBits - 1 := by
  have hle := Nat.pow_le_pow_right (n := 2) (by omega) F.maskBits_le
  have hpos := Nat.two_pow_pos F.maskBits
  rcases Nat.lt_or_eq_of_le hle with hlt | heq
  · have hone : (1 : ℕ) < 2 ^ F.handleBits := by omega
    simp only [maskIndex, BitVec.toNat_sub, BitVec.toNat_shiftLeft, BitVec.toNat_ofNat,
      Nat.mod_eq_of_lt hone, Nat.one_shiftLeft, Nat.mod_eq_of_lt hlt]
    rw [show 2 ^ F.handleBits - 1 + 2 ^ F.maskBits
      = (2 ^ F.maskBits - 1) + 2 ^ F.handleBits by omega, Nat.add_mod_right,
      Nat.mod_eq_of_lt (by omega)]
  · rcases Nat.lt_or_ge 1 (2 ^ F.handleBits) with hone | hone
    · simp only [maskIndex, BitVec.toNat_sub, BitVec.toNat_shiftLeft, BitVec.toNat_ofNat,
        Nat.mod_eq_of_lt hone, Nat.one_shiftLeft, heq, Nat.mod_self]
      exact Nat.mod_eq_of_lt (by omega)
    · have := F.maskIndex.isLt
      omega

theorem index_eq_mod (h : F.Handle) : F.index h = h.toNat % 2 ^ F.maskBits := by
  rw [index, BitVec.toNat_and, maskIndex_toNat, Nat.and_two_pow_sub_one_eq_mod]

theorem getLsbD_maskIndex (i : ℕ) :
    F.maskIndex.getLsbD i = decide (i < F.maskBits) := by
  rw [BitVec.getLsbD, maskIndex_toNat, Nat.testBit_two_pow_sub_one]

theorem and_maskGeneration (h : F.Handle) :
    h &&& F.maskGeneration = (h >>> F.maskBits) <<< F.maskBits := by
  apply BitVec.eq_of_getLsbD_eq
  intro i hi
  simp only [maskGeneration, BitVec.getLsbD_and, BitVec.getLsbD_not, getLsbD_maskIndex,
    BitVec.getLsbD_shiftLeft, BitVec.getLsbD_ushiftRight, hi, decide_true, Bool.true_and]
  by_cases hm : i < F.maskBits
  · simp [hm]
  · simp [hm, show F.maskBits + (i - F.maskBits) = i by omega]

theorem and_maskGeneration_toNat (h : F.Handle) :
    (h &&& F.maskGeneration).toNat = F.generation h * 2 ^ F.maskBits := by
  rw [and_maskGeneration, BitVec.toNat_shiftLeft, BitVec.toNat_ushiftRight,
    Nat.shiftRight_eq_div_pow, Nat.shiftLeft_eq, generation]
  exact Nat.mod_eq_of_lt (lt_of_le_of_lt (Nat.div_mul_le_self _ _) h.isLt)

theorem index_lt (h : F.Handle) : F.index h < 2 ^ F.maskBits := by
  rw [index_eq_mod]
  exact Nat.mod_lt _ (Nat.two_pow_pos _)

theorem toNat_eq (h : F.Handle) :
    h.toNat = F.generation h * 2 ^ F.maskBits + F.index h := by
  rw [index_eq_mod, generation, Nat.div_add_mod']

/-- The two fields determine the handle. -/
theorem ext_fields {h h' : F.Handle} (hi : F.index h = F.index h')
    (hg : F.generation h = F.generation h') : h = h' := by
  apply BitVec.eq_of_toNat_eq
  rw [F.toNat_eq h, F.toNat_eq h', hi, hg]

/-- A word without generation bits is its own index. -/
theorem and_maskIndex_of_lt {i : F.Handle} (hi : i.toNat < 2 ^ F.maskBits) :
    i &&& F.maskIndex = i := by
  apply BitVec.eq_of_toNat_eq
  rw [← index, index_eq_mod, Nat.mod_eq_of_lt hi]

/-- Glueing an index below `2 ^ MaskBits` to a word that has only generation
bits. -/
theorem or_toNat {i g : F.Handle} {k : ℕ} (hi : i.toNat < 2 ^ F.maskBits)
    (hg : g.toNat = k * 2 ^ F.maskBits) :
    (g ||| i).toNat = k * 2 ^ F.maskBits + i.toNat := by
  rw [BitVec.toNat_or, hg, mul_comm, Nat.two_pow_add_eq_or_of_lt hi]

theorem index_or {i g : F.Handle} {k : ℕ} (hi : i.toNat < 2 ^ F.maskBits)
    (hg : g.toNat = k * 2 ^ F.maskBits) : F.index (g ||| i) = i.toNat := by
  rw [index_eq_mod, F.or_toNat hi hg, Nat.mul_add_mod_of_lt hi]

theorem generation_or {i g : F.Handle} {k : ℕ} (hi : i.toNat < 2 ^ F.maskBits)
    (hg : g.toNat = k * 2 ^ F.maskBits) : F.generation (g ||| i) = k := by
  rw [generation, F.or_toNat hi hg]
  exact Nat.div_eq_of_lt_le (by omega) (by rw [add_mul]; omega)

theorem maskGeneration_toNat :
    F.maskGeneration.toNat = (2 ^ F.generationBits - 1) * 2 ^ F.maskBits := by
  have hle := Nat.pow_le_pow_right (n := 2) (by omega) F.maskBits_le
  have hpos := Nat.two_pow_pos F.maskBits
  rw [maskGeneration, BitVec.toNat_not, maskIndex_toNat, Nat.sub_mul, one_mul,
    mul_comm (2 ^ F.generationBits), ← two_pow_handleBits]
  omega

/-- The word of a slot carries the reserved generation exactly when its
generation bits are all ones. -/
theorem and_maskGeneration_eq_iff (x : F.Handle) :
    x &&& F.maskGeneration = F.maskGeneration ↔
      F.generation x = 2 ^ F.generationBits - 1 := by
  rw [← BitVec.toNat_inj, and_maskGeneration_toNat, maskGeneration_toNat]
  exact Nat.mul_left_inj (Nat.two_pow_pos _).ne'

/-- Two words agree in their generation bits exactly when their generations are
equal. -/
theorem and_maskGeneration_inj (x y : F.Handle) :
    x &&& F.maskGeneration = y &&& F.maskGeneration ↔
      F.generation x = F.generation y := by
  rw [← BitVec.toNat_inj, and_maskGeneration_toNat, and_maskGeneration_toNat]
  exact Nat.mul_left_inj (Nat.two_pow_pos _).ne'

/-- The handle `create` returns for slot `i` carries the index `i` … -/
theorem index_handle {i x : F.Handle} (hi : i.toNat < 2 ^ F.maskBits) :
    F.index (i ||| (x &&& F.maskGeneration)) = i.toNat := by
  rw [BitVec.or_comm, F.index_or hi (F.and_maskGeneration_toNat x)]

/-- … and the generation of the slot's word. -/
theorem generation_handle {i x : F.Handle} (hi : i.toNat < 2 ^ F.maskBits) :
    F.generation (i ||| (x &&& F.maskGeneration)) = F.generation x := by
  rw [BitVec.or_comm, F.generation_or hi (F.and_maskGeneration_toNat x)]

theorem maskIndex_toNat_lt : F.maskIndex.toNat < 2 ^ F.maskBits := by
  rw [maskIndex_toNat]
  have := Nat.two_pow_pos F.maskBits
  omega

/-- A buffer has slots only if a handle has an index field. -/
theorem maskBits_pos {n : ℕ} (hn : n < F.maskIndex.toNat) : 0 < F.maskBits := by
  refine Nat.pos_of_ne_zero fun hzero => ?_
  rw [maskIndex_toNat, hzero] at hn
  omega

/-- `InvalidHandle` has index `MaskIndex`, which no slot has. -/
theorem ne_invalidHandle {h : F.Handle} (hi : F.index h < F.maskIndex.toNat) :
    h ≠ F.invalidHandle := by
  rintro rfl
  have : F.index F.invalidHandle = F.maskIndex.toNat := by
    simp [index, invalidHandle]
  omega

theorem shiftRight_maskBits_toNat (x : F.Handle) :
    ((x &&& F.maskGeneration) >>> F.maskBits).toNat = F.generation x := by
  rw [BitVec.toNat_ushiftRight, and_maskGeneration_toNat, Nat.shiftRight_eq_div_pow,
    Nat.mul_div_cancel _ (Nat.two_pow_pos _)]

end HandleFormat

namespace HandleBuffer

open HandleFormat

variable {F : HandleFormat} {T : Type}

/-- The generation bits a `remove` writes never touch the index bits. -/
theorem or_bumpGeneration_index (next i : F.Handle) :
    (bumpGeneration next ||| (i &&& F.maskIndex)) &&& F.maskIndex = i &&& F.maskIndex := by
  apply BitVec.eq_of_getLsbD_eq
  intro k hk
  by_cases hm : k < F.maskBits
  · simp [bumpGeneration, getLsbD_maskIndex, hm]
  · simp [getLsbD_maskIndex, hm]

/-- **The wrap is never taken.**  With an index field in the handle, `remove` writes
the next generation after any generation but the reserved one. -/
theorem bumpGeneration_toNat (hmask : 0 < F.maskBits) {next : F.Handle}
    (hne : F.generation next ≠ 2 ^ F.generationBits - 1) :
    (bumpGeneration next).toNat = (F.generation next + 1) * 2 ^ F.maskBits := by
  have hgenlt : F.generation next < 2 ^ F.generationBits := by
    rw [generation, Nat.div_lt_iff_lt_mul (Nat.two_pow_pos _), mul_comm,
      ← two_pow_handleBits]
    exact next.isLt
  have hpos := Nat.two_pow_pos F.maskBits
  have hle : (F.generation next + 1) * 2 ^ F.maskBits < 2 ^ F.handleBits := by
    rw [two_pow_handleBits, mul_comm]
    exact Nat.mul_lt_mul_of_pos_left (by omega) hpos
  have hsucc : F.generation next + 1 < 2 ^ F.handleBits :=
    lt_of_le_of_lt (Nat.le_mul_of_pos_right _ hpos) hle
  have hgen : (((next &&& F.maskGeneration) >>> F.maskBits) + 1#F.handleBits).toNat
      = F.generation next + 1 := by
    rw [BitVec.toNat_add, shiftRight_maskBits_toNat, BitVec.toNat_ofNat,
      Nat.mod_eq_of_lt (by omega : 1 < 2 ^ F.handleBits), Nat.mod_eq_of_lt hsucc]
  -- the mask has its ones above the index bits, the generation has been shifted down
  have hmaskne : ((next &&& F.maskGeneration) >>> F.maskBits) + 1#F.handleBits
      ≠ F.maskGeneration := by
    intro heq
    rw [heq, maskGeneration_toNat] at hgen
    have htwo : 2 ≤ 2 ^ F.maskBits := by
      simpa using Nat.pow_le_pow_right (n := 2) (by omega) hmask
    have := Nat.mul_le_mul_left (2 ^ F.generationBits - 1) htwo
    omega
  rw [bumpGeneration]
  simp only [if_neg hmaskne]
  rw [BitVec.toNat_shiftLeft, hgen, Nat.shiftLeft_eq, Nat.mod_eq_of_lt hle]

/-! ### What each operation does

One equation for each operation at a slot inside the buffer; the invariant
proofs of the other files use these and never unfold an operation. -/

/-- `at` at an index inside the buffer. -/
theorem atHandle_eq {s : HandleBuffer F T} {h : F.Handle} {e : Element F T}
    (hne : h ≠ F.invalidHandle) (he : s.mElements[F.index h]? = some e) :
    s.atHandle h = some (if F.generation e.next = 2 ^ F.generationBits - 1 ∨
      F.generation h ≠ F.generation e.next then none else some (F.index h)) := by
  have hlt : ¬ s.mElements.length < F.index h := by
    have := (List.getElem?_eq_some_iff.mp he).1
    omega
  have he' : s.mElements[(h &&& F.maskIndex).toNat]? = some e := he
  have hlt' : ¬ s.mElements.length < (h &&& F.maskIndex).toNat := hlt
  simp only [atHandle, if_neg hne, if_neg hlt', he', Option.bind_eq_bind, Option.bind_some,
    and_maskGeneration_eq_iff, ne_eq, and_maskGeneration_inj]
  by_cases hres : F.generation e.next = 2 ^ F.generationBits - 1
  · simp [hres]
  · by_cases hgen : F.generation h = F.generation e.next
    · simp [hres, hgen, index]
    · simp [hres, hgen]

/-- A handle that `at` resolves names a slot of the buffer that carries the
handle's generation, and not the reserved one. -/
theorem atHandle_some {s : HandleBuffer F T} {h : F.Handle} {i : ℕ}
    (hat : s.atHandle h = some (some i)) :
    i = F.index h ∧ ∃ e, s.mElements[F.index h]? = some e ∧
      F.generation h = F.generation e.next ∧
      F.generation e.next ≠ 2 ^ F.generationBits - 1 := by
  by_cases hne : h = F.invalidHandle
  · simp [atHandle, hne] at hat
  cases he : s.mElements[F.index h]? with
  | none =>
      have he' : s.mElements[(h &&& F.maskIndex).toNat]? = none := he
      simp only [atHandle, if_neg hne, he', Option.bind_eq_bind, Option.bind_none] at hat
      split at hat <;> simp at hat
  | some e =>
      rw [atHandle_eq hne he, Option.some.injEq] at hat
      split at hat
      · simp at hat
      · rename_i hcond
        rw [not_or, not_not] at hcond
        exact ⟨(Option.some.inj hat).symm, e, rfl, hcond.2, hcond.1⟩

/-- The words of a freshly constructed buffer: each slot links to the next one,
the last to `MaskIndex`, all with generation `0`. -/
theorem construct_spec {n : F.Handle} (hpos : 0 < n.toNat) :
    ∃ b : HandleBuffer F T, construct n = some b ∧ b.mElements.length = n.toNat ∧
      b.mStart = 0 ∧ b.mFree = n ∧
      ∀ i < n.toNat, b.mElements[i]? = some
        ⟨if i + 1 = n.toNat then F.maskIndex else BitVec.ofNat _ (i + 1), none⟩ := by
  have hne : n ≠ 0 := by
    rintro rfl
    simp at hpos
  refine ⟨_, by simp only [construct, resize, if_neg hne]; rfl, ?_, rfl, rfl, ?_⟩
  · simp [empty]
  · intro i hi
    have hrep : (List.take n.toNat ([] : List (Element F T)) ++
        List.replicate (n.toNat - 0) ⟨0, none⟩)[i]? = some ⟨0, none⟩ := by
      simp [hi]
    simp only [empty, List.length_nil, List.getElem?_modify, List.getElem?_mapIdx, hrep,
      Option.map_some]
    by_cases hlast : i + 1 = n.toNat
    · simp [hlast, show n.toNat - 1 = i by omega]
    · simp [hlast, show n.toNat - 1 ≠ i by omega]

/-- Decrementing a counter that is not `0`. -/
theorem toNat_sub_one {w : ℕ} {x : BitVec w} (hx : 0 < x.toNat) :
    (x - 1#w).toNat = x.toNat - 1 := by
  have hw : 0 < w := by
    rcases Nat.eq_zero_or_pos w with rfl | hw
    · have := x.isLt
      omega
    · exact hw
  rw [BitVec.toNat_sub_of_le (by rw [BitVec.le_def, BitVec.toNat_one hw]; omega),
    BitVec.toNat_one hw]

/-- A full buffer refuses to create. -/
theorem create_of_full [Inhabited T] {s : HandleBuffer F T}
    (hfull : s.mStart = F.maskIndex) : s.create = some (F.invalidHandle, s) :=
  if_pos hfull

/-- Otherwise `create` takes the slot at `mStart`. -/
theorem create_of_slot [Inhabited T] {s : HandleBuffer F T} {e : Element F T}
    (hstart : s.mStart ≠ F.maskIndex) (he : s.mElements[s.mStart.toNat]? = some e) :
    s.create = some (s.mStart ||| (e.next &&& F.maskGeneration),
      { mElements := s.mElements.set s.mStart.toNat { e with value := some default }
        mStart := e.next &&& F.maskIndex
        mFree := s.mFree - 1#F.handleBits }) := by
  simp only [create, if_neg hstart, he, Option.bind_eq_bind, Option.bind_some]

/-- What `create` can do. -/
theorem create_cases [Inhabited T] {s b : HandleBuffer F T} {h : F.Handle}
    (hc : s.create = some (h, b)) :
    (s.mStart = F.maskIndex ∧ h = F.invalidHandle ∧ b = s) ∨
    (s.mStart ≠ F.maskIndex ∧ ∃ e, s.mElements[s.mStart.toNat]? = some e ∧
      h = s.mStart ||| (e.next &&& F.maskGeneration) ∧
      b = { mElements := s.mElements.set s.mStart.toNat { e with value := some default }
            mStart := e.next &&& F.maskIndex
            mFree := s.mFree - 1#F.handleBits }) := by
  unfold create at hc
  split at hc
  · rename_i hstart
    obtain ⟨rfl, rfl⟩ := Prod.mk.inj (Option.some.inj hc)
    exact Or.inl ⟨hstart, rfl, rfl⟩
  · rename_i hstart
    simp only [Option.bind_eq_bind, Option.bind_eq_some_iff, Option.some.injEq,
      Prod.mk.injEq] at hc
    obtain ⟨e, he, rfl, rfl⟩ := hc
    exact Or.inr ⟨hstart, e, he, rfl, rfl⟩

/-- What `remove` can do: refuse and change nothing, or find the slot and write
it back linked to itself. -/
theorem remove_cases {s b : HandleBuffer F T} {h : F.Handle} {ok : Bool}
    (hr : s.remove h = some (ok, b)) :
    (ok = false ∧ s.has h = some false ∧ b = s) ∨
    (ok = true ∧ s.has h = some true ∧ ∃ e, s.mElements[F.index h]? = some e ∧
      F.generation h = F.generation e.next ∧
      F.generation e.next ≠ 2 ^ F.generationBits - 1 ∧
      b = { mElements := s.mElements.set (F.index h)
              ⟨bumpGeneration e.next ||| (h &&& F.maskIndex), none⟩
            mStart := h &&& F.maskIndex
            mFree := s.mFree + 1#F.handleBits }) := by
  unfold remove at hr
  simp only [Option.bind_eq_bind, Option.bind_eq_some_iff] at hr
  obtain ⟨found, hat, hr⟩ := hr
  cases found with
  | none =>
      obtain ⟨rfl, rfl⟩ := Prod.mk.inj (Option.some.inj hr)
      exact Or.inl ⟨rfl, by simp [has, hat], rfl⟩
  | some i =>
      obtain ⟨-, e, he, hgen, hres⟩ := atHandle_some hat
      simp only [Option.bind_eq_some_iff, Option.some.injEq, Prod.mk.injEq] at hr
      obtain ⟨e', he', rfl, rfl⟩ := hr
      obtain rfl : e = e' := Option.some.inj (he.symm.trans he')
      exact Or.inr ⟨rfl, by simp [has, hat], e, he, hgen, hres, rfl⟩

theorem has_of_atHandle {s : HandleBuffer F T} {h : F.Handle} {found : Option ℕ}
    (hat : s.atHandle h = some found) : s.has h = some found.isSome := by
  rw [has, hat, Option.map_some]

/-- `remove` accepts exactly the handles `has` accepts. -/
theorem remove_of_has {s : HandleBuffer F T} {h : F.Handle} {ok : Bool}
    (hh : s.has h = some ok) : ∃ b, s.remove h = some (ok, b) := by
  rw [has, Option.map_eq_some_iff] at hh
  obtain ⟨found, hat, rfl⟩ := hh
  cases found with
  | none => exact ⟨s, by simp [remove, hat]⟩
  | some i =>
      obtain ⟨-, e, he, -⟩ := atHandle_some hat
      have he' : s.mElements[(h &&& F.maskIndex).toNat]? = some e := he
      exact ⟨_, by simp only [remove, hat, he', Option.bind_eq_bind, Option.bind_some]; rfl⟩

end HandleBuffer

/-! ### A client of the buffer -/

/-- A call a client makes.  The other functions change nothing, so they are not needed to say which
states there are. -/
inductive HandleCall (F : HandleFormat)
  | create
  | remove (handle : F.Handle)
  deriving DecidableEq

/-- The buffer together with what its client knows: every handle `create`
returned, the handles whose element is still alive, and the handles of all
successful removals. -/
structure HandleSession (F : HandleFormat) (T : Type) where
  buffer : HandleBuffer F T
  returned : List F.Handle
  live : List F.Handle
  removed : List F.Handle
  deriving DecidableEq

namespace HandleSession

variable {F : HandleFormat} {T : Type}

/-- A client that has just constructed a buffer of `n` slots. -/
def start (n : F.Handle) : Option (HandleSession F T) :=
  (HandleBuffer.construct n).map fun buffer => ⟨buffer, [], [], []⟩

/-- One call and the bookkeeping that follows from its result. -/
def exec [Inhabited T] (s : HandleSession F T) :
    HandleCall F → Option (HandleSession F T)
  | .create => s.buffer.create.map fun (h, buffer) =>
      { s with
        buffer := buffer
        returned := h :: s.returned
        live := if h = F.invalidHandle then s.live else h :: s.live }
  | .remove h => (s.buffer.remove h).map fun (ok, buffer) =>
      { s with
        buffer := buffer
        live := if ok then s.live.filter (· ≠ h) else s.live
        removed := if ok then h :: s.removed else s.removed }

/-- The slot `i` holds an element that was created and not removed since. -/
def Occupied (s : HandleSession F T) (i : ℕ) : Prop :=
  ∃ h ∈ s.live, F.index h = i

/-- `remove` is only called with handles `create` returned earlier.  Which of them, and how often,
is up to the client; it may hold on to handles that are gone. -/
def Known (s : HandleSession F T) : HandleCall F → Prop
  | .create => True
  | .remove h => h ∈ s.returned

end HandleSession

end Tklb
