import Mathlib.Logic.Relation
import Mathlib.Data.List.Basic

/-!
# Runs of a labelled transition relation

A stateful component is presented below as a relation `step s l t`: from state
`s`, the call (or event) `l` may lead to `t`.  This file fixes what a **run** is
and proves the three rules every invariant and refinement proof of the
development goes through:

* `Run.invariant` — a property of the start that every step keeps holds at the
  end.  Runs are closed under prefixes (`Run.split`), so "at the end of every
  run" is the same as "in every state reached".
* `Run.simulation` — if every concrete step is matched by an abstract step with
  the same label, every concrete run is an abstract run with the same labels.
  Replies are part of the label, so the abstract run gives the same answers.
* `Run.guarded_or_exists` — a run either meets a side condition at every step,
  or splits at the first step that does not.

`Guarded step C` is the relation restricted to the steps that meet `C`; "a run
whose steps all meet `C`" is a run of the restricted relation.

### What is load-bearing

Every result of the form "in every state reached" or "for every sequence of calls" is an
instance of one of these rules, so an induction over runs is done here and nowhere else.  What
is left to a component is a statement about one step.

`Run.refinement` is for components that take steps their abstract counterpart knows nothing of.
The abstract run is then over the `effects` of the concrete one, in the same order.
-/

namespace Tklb.Foundation

universe u v w

variable {S : Type u} {L : Type v} {A : Type w}

/-- A finite run: the labels taken, in order, from the first state to the last.  The labels are the
calls together with their replies, or the events, so a run has all that can be observed of it. -/
inductive Run (step : S → L → S → Prop) : S → List L → S → Prop
  | nil (s : S) : Run step s [] s
  | cons {s t u : S} {l : L} {ls : List L} :
      step s l t → Run step t ls u → Run step s (l :: ls) u

/-- The steps of `step` that meet the side condition `C`. -/
def Guarded (step : S → L → S → Prop) (C : S → L → Prop) (s : S) (l : L)
    (t : S) : Prop :=
  C s l ∧ step s l t

/-- The transition relation of a partial step function: `none` is a call the
component gives no meaning to. -/
def StepOf (exec : S → L → Option S) (s : S) (l : L) (t : S) : Prop :=
  exec s l = some t

namespace Run

variable {step : S → L → S → Prop}

theorem cons_iff {s u : S} {l : L} {ls : List L} :
    Run step s (l :: ls) u ↔ ∃ t, step s l t ∧ Run step t ls u := by
  constructor
  · intro h
    cases h with
    | cons hstep hrest => exact ⟨_, hstep, hrest⟩
  · rintro ⟨t, hstep, hrest⟩
    exact Run.cons hstep hrest

/-- Every prefix of a run is a run. -/
theorem split {s u : S} {ls ms : List L} (h : Run step s (ls ++ ms) u) :
    ∃ t, Run step s ls t ∧ Run step t ms u := by
  induction ls generalizing s with
  | nil => exact ⟨s, Run.nil s, h⟩
  | cons l ls ih =>
      obtain ⟨t, hstep, hrest⟩ := cons_iff.mp h
      obtain ⟨r, hfront, hback⟩ := ih hrest
      exact ⟨r, Run.cons hstep hfront, hback⟩

theorem append {s t u : S} {ls ms : List L} (h : Run step s ls t) (h' : Run step t ms u) :
    Run step s (ls ++ ms) u := by
  induction h with
  | nil => exact h'
  | cons hone _ ih => exact Run.cons hone (ih h')

/-- A run of a step function, computed. -/
theorem of_foldlM {exec : S → L → Option S} {s t : S} {ls : List L}
    (h : ls.foldlM exec s = some t) : Run (StepOf exec) s ls t := by
  induction ls generalizing s with
  | nil =>
      obtain rfl := Option.some.inj h
      exact Run.nil s
  | cons l ls ih =>
      rw [List.foldlM_cons, Option.bind_eq_bind, Option.bind_eq_some_iff] at h
      obtain ⟨m, hm, hrest⟩ := h
      exact Run.cons hm (ih hrest)

/-- The labels of a run of a step function determine where it leads. -/
theorem unique {exec : S → L → Option S} {s t t' : S} {ls : List L}
    (h : Run (StepOf exec) s ls t) (h' : Run (StepOf exec) s ls t') : t = t' := by
  induction h with
  | nil =>
      cases h'
      rfl
  | cons hone _ ih =>
      obtain ⟨m, hone', hrest⟩ := cons_iff.mp h'
      obtain rfl := Option.some.inj (hone.symm.trans hone')
      exact ih hrest

/-- The beginnings of an infinite execution are runs. -/
theorem of_execution {σ : ℕ → S} {l : ℕ → L} (h : ∀ n, step (σ n) (l n) (σ (n + 1)))
    (n : ℕ) : Run step (σ 0) ((List.range n).map l) (σ n) := by
  induction n with
  | zero => exact Run.nil _
  | succ n ih =>
      rw [List.range_succ, List.map_append]
      exact ih.append (Run.cons (h n) (Run.nil _))

theorem mono {step' : S → L → S → Prop}
    (hsub : ∀ s l t, step s l t → step' s l t) {s t : S} {ls : List L}
    (h : Run step s ls t) : Run step' s ls t := by
  induction h with
  | nil => exact Run.nil _
  | cons hstep _ ih => exact Run.cons (hsub _ _ _ hstep) ih

/-- A run of a step function all of whose steps meet a decidable condition, computed. -/
theorem guarded_of_foldlM {exec : S → L → Option S} {C : S → L → Prop}
    [∀ s l, Decidable (C s l)] {s t : S} {ls : List L}
    (h : ls.foldlM (fun s l => if C s l then exec s l else none) s = some t) :
    Run (Guarded (StepOf exec) C) s ls t :=
  (of_foldlM h).mono fun _ _ _ hstep => Option.ite_none_right_eq_some.mp hstep

/-- A guarded run is a run. -/
theorem of_guarded {C : S → L → Prop} {s t : S} {ls : List L}
    (h : Run (Guarded step C) s ls t) : Run step s ls t :=
  h.mono fun _ _ _ hstep => hstep.2

/-- A condition on the labels alone can be read off them. -/
theorem guarded_of_forall {C : L → Prop} {s t : S} {ls : List L} (h : Run step s ls t)
    (hC : ∀ l ∈ ls, C l) : Run (Guarded step fun _ l => C l) s ls t := by
  induction h with
  | nil => exact Run.nil _
  | cons hone _ ih =>
      exact Run.cons ⟨hC _ List.mem_cons_self, hone⟩
        (ih fun l hl => hC l (List.mem_cons_of_mem _ hl))

/-- The steps of a run meet a condition that an invariant and the labels grant, if those that
do keep the invariant. -/
theorem guarded_of_invariant {I : S → Prop} {D : L → Prop} {C : S → L → Prop}
    (hC : ∀ s l t, I s → D l → step s l t → C s l)
    (hI : ∀ s l t, I s → C s l → step s l t → I t) {s t : S} {ls : List L}
    (h : Run step s ls t) (hs : I s) (hls : ∀ l ∈ ls, D l) : Run (Guarded step C) s ls t := by
  induction h with
  | nil => exact Run.nil _
  | cons hone _ ih =>
      have hguard := hC _ _ _ hs (hls _ List.mem_cons_self) hone
      exact Run.cons ⟨hguard, hone⟩
        (ih (hI _ _ _ hs hguard hone) fun l hl => hls l (List.mem_cons_of_mem _ hl))

/-- The steps of a run meet one condition; in the states of an invariant it grants another
one. -/
theorem guarded_of_guarded {I : S → Prop} {D : L → Prop} {C C' : S → L → Prop}
    (hC : ∀ s l t, I s → D l → Guarded step C s l t → C' s l)
    (hI : ∀ s l t, I s → C' s l → Guarded step C s l t → I t) {s t : S} {ls : List L}
    (h : Run (Guarded step C) s ls t) (hs : I s) (hls : ∀ l ∈ ls, D l) :
    Run (Guarded step C') s ls t :=
  (h.guarded_of_invariant hC hI hs hls).mono fun _ _ _ hstep => ⟨hstep.1, hstep.2.2⟩

/-- **Invariants.**  What every step keeps holds at the end of every run. -/
theorem invariant {I : S → Prop} (hstep : ∀ s l t, I s → step s l t → I t)
    {s t : S} {ls : List L} (h : Run step s ls t) (hs : I s) : I t := by
  induction h with
  | nil => exact hs
  | cons hone _ ih => exact ih (hstep _ _ _ hs hone)

/-- Two side conditions that agree on the states of an invariant guard the same runs. -/
theorem guarded_congr {I : S → Prop} {C D : S → L → Prop}
    (hstep : ∀ s l t, I s → step s l t → I t) (hiff : ∀ s l, I s → (C s l ↔ D s l))
    {s t : S} {ls : List L} (hs : I s) :
    Run (Guarded step C) s ls t ↔ Run (Guarded step D) s ls t := by
  induction ls generalizing s with
  | nil =>
      constructor
      · rintro ⟨⟩
        exact Run.nil _
      · rintro ⟨⟩
        exact Run.nil _
  | cons l ls ih =>
      rw [cons_iff, cons_iff]
      constructor
      · rintro ⟨m, ⟨hC, hone⟩, hrest⟩
        exact ⟨m, ⟨(hiff s l hs).mp hC, hone⟩, (ih (hstep _ _ _ hs hone)).mp hrest⟩
      · rintro ⟨m, ⟨hD, hone⟩, hrest⟩
        exact ⟨m, ⟨(hiff s l hs).mpr hD, hone⟩, (ih (hstep _ _ _ hs hone)).mpr hrest⟩

/-- **Forward simulation.**  If related states match every concrete step by an
abstract step with the same label, every concrete run is an abstract run with
the same labels. -/
theorem simulation {astep : A → L → A → Prop} {R : S → A → Prop}
    (hsim : ∀ s a l s', R s a → step s l s' → ∃ a', astep a l a' ∧ R s' a')
    {s s' : S} {ls : List L} (h : Run step s ls s') {a : A} (hR : R s a) :
    ∃ a', Run astep a ls a' ∧ R s' a' := by
  induction h generalizing a with
  | nil => exact ⟨a, Run.nil a, hR⟩
  | cons hone _ ih =>
      obtain ⟨b, hab, hb⟩ := hsim _ _ _ _ hR hone
      obtain ⟨a', hrest, ha'⟩ := ih hb
      exact ⟨a', Run.cons hab hrest, ha'⟩

/-- Labels may say more than the steps look at. -/
theorem map_labels {M : Type*} {f : L → M} {step : S → M → S → Prop} {s t : S} {ls : List L}
    (h : Run (fun s l t => step s (f l) t) s ls t) : Run step s (ls.map f) t := by
  induction h with
  | nil => exact Run.nil _
  | cons hone _ ih => exact Run.cons hone ih

/-- **The first step out of line.**  A run meets the side condition at every
step, or there is a first step that does not. -/
theorem guarded_or_exists (C : S → L → Prop) {s u : S} {ls : List L}
    (h : Run step s ls u) :
    Run (Guarded step C) s ls u ∨
      ∃ before l after m m', ls = before ++ l :: after ∧
        Run (Guarded step C) s before m ∧ ¬ C m l ∧ step m l m' ∧
        Run step m' after u := by
  induction h with
  | nil s => exact Or.inl (Run.nil s)
  | @cons s t u l ls hone hrest ih =>
      by_cases hC : C s l
      · rcases ih with hall | ⟨before, k, after, m, m', hls, hbefore, hbad, hk, hafter⟩
        · exact Or.inl (Run.cons ⟨hC, hone⟩ hall)
        · refine Or.inr ⟨l :: before, k, after, m, m', by rw [hls]; rfl, ?_, hbad, hk, hafter⟩
          exact Run.cons ⟨hC, hone⟩ hbefore
      · exact Or.inr ⟨[], l, ls, s, t, rfl, Run.nil s, hC, hone, hrest⟩

end Run

/-! ### Steps that take effect -/

section Effects

variable {M : Type*}

/-- The abstract steps of a run: those of its steps that have one, in their order. -/
def effects (exec : S → L → Option S) (effect : S → L → Option M) : S → List L → List M
  | _, [] => []
  | s, l :: ls =>
      (effect s l).toList ++ (exec s l).elim [] fun t => effects exec effect t ls

/-- **Refinement by steps that take effect.**  If related states match every step by the abstract
step that it has, or by none, every run is an abstract run of its effects. -/
theorem Run.refinement {exec : S → L → Option S} {effect : S → L → Option M} {C : S → L → Prop}
    {astep : A → M → A → Prop} {R : S → A → Prop}
    (hsim : ∀ s a l s', R s a → Guarded (StepOf exec) C s l s' →
      ∃ a', Run astep a (effect s l).toList a' ∧ R s' a')
    {s s' : S} {ls : List L} (h : Run (Guarded (StepOf exec) C) s ls s') {a : A} (hR : R s a) :
    ∃ a', Run astep a (effects exec effect s ls) a' ∧ R s' a' := by
  induction h generalizing a with
  | nil => exact ⟨a, Run.nil a, hR⟩
  | cons hone _ ih =>
      obtain ⟨b, hab, hb⟩ := hsim _ _ _ _ hR hone
      obtain ⟨a', hrest, ha'⟩ := ih hb
      refine ⟨a', ?_, ha'⟩
      rw [effects, show exec _ _ = _ from hone.2]
      exact hab.append hrest

end Effects

end Tklb.Foundation
