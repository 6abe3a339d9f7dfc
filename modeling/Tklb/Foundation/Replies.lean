import Mathlib.Data.List.Basic
import Mathlib.Data.Option.Basic

/-!
# Telling two states apart

A component answers calls: `perform s l` is its reply to the call `l` in state `s` and the
state afterwards, or nothing if the call has no meaning there.  A client sees the replies
and not the states, so two states are the same to it if every sequence of calls is
answered in the same way (`Indistinguishable`).

`Indistinguishable.of_bisimulation` is the rule to prove it by: a relation between states
under which one call is answered alike and leads to related states again.

### What is load-bearing

A sequence of calls may end in a call without a meaning, and then there are no replies
(`replies` is `none`).  Two states are the same only if they fail on the same sequences.
`AnswersAlike` therefore has two cases, and a bisimulation has to establish one of them for
every call.
-/

namespace Tklb.Foundation

universe u v w

variable {S : Type u} {L : Type v} {R : Type w}

/-- The replies to a sequence of calls. -/
def replies (perform : S → L → Option (R × S)) : S → List L → Option (List R)
  | _, [] => some []
  | s, l :: ls => (perform s l).bind fun r => (replies perform r.2 ls).map (r.1 :: ·)

/-- No sequence of calls tells the states apart.  The sequences may be of any length, and the calls
may have no meaning in a state, which is seen as well. -/
def Indistinguishable (perform : S → L → Option (R × S)) (s t : S) : Prop :=
  ∀ ls, replies perform s ls = replies perform t ls

variable {perform : S → L → Option (R × S)} {s t : S}

theorem replies_cons_of_some {l : L} {r : R} (h : perform s l = some (r, t)) (ls : List L) :
    replies perform s (l :: ls) = (replies perform t ls).map (r :: ·) := by
  rw [replies, h, Option.bind_some]

theorem replies_singleton (l : L) :
    replies perform s [l] = (perform s l).map fun r => [r.1] := by
  rw [replies]
  cases perform s l with
  | none => rfl
  | some r => rfl

/-- What every reply to a call meets, as long as the calls keep `I`. -/
theorem replies_forall {I : S → Prop} {C : L → Prop} {Q : R → Prop}
    (hstep : ∀ s l r t, I s → C l → perform s l = some (r, t) → Q r ∧ I t) {ls : List L}
    {rs : List R} (hs : I s) (hls : ∀ l ∈ ls, C l) (hrs : replies perform s ls = some rs) :
    ∀ r ∈ rs, Q r := by
  induction ls generalizing s rs with
  | nil =>
      obtain rfl := Option.some.inj hrs
      exact fun r hr => absurd hr List.not_mem_nil
  | cons l ls ih =>
      rw [replies, Option.bind_eq_some_iff] at hrs
      obtain ⟨⟨r, t⟩, hcall, hrest⟩ := hrs
      obtain ⟨rs', hrs', rfl⟩ := Option.map_eq_some_iff.mp hrest
      obtain ⟨hr, ht⟩ := hstep s l r t hs (hls l List.mem_cons_self) hcall
      intro r' hr'
      rcases List.mem_cons.mp hr' with rfl | hr'
      · exact hr
      · exact ih ht (fun l hl => hls l (List.mem_cons_of_mem _ hl)) hrs' r' hr'

/-- Both states answer a call with the same reply, and the states afterwards are related
again; or neither gives an answer. -/
def AnswersAlike (Rel : S → S → Prop) : Option (R × S) → Option (R × S) → Prop :=
  Option.Rel fun a b => a.1 = b.1 ∧ Rel a.2 b.2

theorem AnswersAlike.map {R' : Type w} {Rel : S → S → Prop} {a b : Option (R × S)}
    (h : AnswersAlike Rel a b) (f : R → R') :
    AnswersAlike Rel (a.map fun r => (f r.1, r.2)) (b.map fun r => (f r.1, r.2)) := by
  cases h with
  | none => exact Option.Rel.none
  | some h => exact Option.Rel.some ⟨congrArg f h.1, h.2⟩

/-- **The bisimulation rule.**  If one call is answered alike in related states, then no
sequence of calls tells related states apart. -/
theorem Indistinguishable.of_bisimulation {Rel : S → S → Prop}
    (hstep : ∀ s t, Rel s t → ∀ l, AnswersAlike Rel (perform s l) (perform t l))
    (h : Rel s t) : Indistinguishable perform s t := by
  intro ls
  induction ls generalizing s t with
  | nil => rfl
  | cons l ls ih =>
      have hl := hstep s t h l
      revert hl
      rw [replies, replies]
      generalize perform s l = a
      generalize perform t l = b
      rintro (⟨hreply, hrel⟩ | _)
      · rw [Option.bind_some, Option.bind_some, ih hrel, hreply]
      · rfl

end Tklb.Foundation
