import Tklb.EventBus

/-!
# Whom a firing calls

`fireEvent` goes through the list by index while the callbacks change the list.
The file says exactly which subscriptions a firing reaches.

* `Sound` — the lists hold living subscriptions, each once and under its own event
  id, so whoever is called is alive and subscribed to the event fired.
* `Took` — the branches of `exec`, each with its guards.
* `Seen` — what one step of the whole machine means for one firing.  The later
  proofs go through these cases and none looks at `exec` again.
* `Reached` and `Missed` — the two ways a subscription can stand to a firing.  As
  long as no removal carries it from the part of the list still to be visited into
  the part already visited it is `Reached`: called once if its place is visited,
  not yet called otherwise.  Once carried over it is `Missed`, and a missed
  subscription is never called: the cursor only moves up, entries only move down.

The removal that carries an entry over is the one that fills a gap at or before
the cursor with a last entry from beyond it (`Carries`): in particular every
callback that destroys its own subscription, unless it is the last in the list.

### Main results

* `Told.run` bounds the calls of a firing by the subscriptions there were and those that were
  created meanwhile, so a firing ends whenever its callbacks do (`Terminates`).
* `Delivered` is what a firing is meant to do: everyone who is subscribed at its start and is
  not destroyed meanwhile is called, exactly once.
* `fireEvent_delivers_iff` says that it does if and only if no step of the run carries a
  subscription over its cursor; that it terminates and calls nobody dead or unsubscribed holds
  always.

### What is load-bearing

The stack of firings makes the loop counter of one firing a number among many, and a removal by
any of them moves entries for all.  So nothing is proved about a firing as a call; it is all
about a firing seen from outside (`Seen`), as the machine takes steps of which most belong to
others.  `took_of_step` is the only place where `exec` is unfolded, and the cases of `Seen` are
derived from it once; each of the invariants then is a short analysis of these cases.

Removal by filling the gap with the last entry is what the condition is about.  With a list
whose order is kept, an entry could not get in front of a cursor it was behind.
-/

namespace Tklb

open Foundation

/-! ### Removing a subscriber from a list -/

namespace Subscriptions

variable {Sub : Type}

open BufferState

/-- Where the entries are after a removal: the last one fills the gap, the others
stay. -/
theorem getElem?_swapRemove {l : List Sub} {i j : ℕ} {x : Sub} (hi : i < l.length)
    (hj : l[j]? = some x) (hne : j ≠ i) :
    (swapRemove l i)[if j + 1 = l.length then i else j]? = some x := by
  obtain ⟨init, y, rfl⟩ : ∃ init y, l = init ++ [y] :=
    ⟨_, _, (List.dropLast_concat_getLast (by rintro rfl; simp at hi)).symm⟩
  rw [List.length_append, List.length_singleton] at hi ⊢
  rw [swapRemove_concat _ _ (by omega)]
  have hlt : j < init.length + 1 := by
    have := (List.getElem?_eq_some_iff.mp hj).1
    simpa using this
  by_cases hlast : j = init.length
  · subst hlast
    rw [if_pos rfl, List.getElem?_set_self (by omega)]
    simpa using hj
  · rw [if_neg (by omega), List.getElem?_set_ne (Ne.symm hne)]
    rwa [List.getElem?_append_left (by omega)] at hj

/-- No entry passes a cursor, unless it is the last one and fills a gap in front of the
cursor from behind it. -/
theorem swapRemove_side {i j n cursor : ℕ} (hi : i < n)
    (hstay : ¬ (i < cursor ∧ cursor < n ∧ j + 1 = n)) :
    (if j + 1 = n then i else j) < cursor ↔ j < cursor := by
  by_cases hlast : j + 1 = n
  · rw [if_pos hlast]
    omega
  · rw [if_neg hlast]

/-- No entry moves up. -/
theorem getElem?_of_swapRemove {l : List Sub} {i j : ℕ} {x : Sub}
    (hj : (swapRemove l i)[j]? = some x) : ∃ j', j ≤ j' ∧ l[j']? = some x := by
  cases hlast : l.getLast? with
  | none => exact ⟨j, le_rfl, by rwa [swapRemove, hlast] at hj⟩
  | some y =>
      rw [swapRemove, hlast] at hj
      dsimp only at hj
      have hlt : j < l.length - 1 := by
        have := (List.getElem?_eq_some_iff.mp hj).1
        rwa [List.length_dropLast, List.length_set] at this
      rw [List.getElem?_dropLast, List.length_set, if_pos hlt] at hj
      by_cases heq : i = j
      · subst heq
        rw [List.getElem?_set_self (by omega)] at hj
        exact ⟨l.length - 1, by omega, by rw [← List.getLast?_eq_getElem?, hlast, hj]⟩
      · rw [List.getElem?_set_ne heq] at hj
        exact ⟨j, le_rfl, hj⟩

variable [DecidableEq Sub]

theorem remove_of_not_mem {l : List Sub} {sub : Sub} (h : sub ∉ l) : remove l sub = l := by
  have hnone : l.findIdx? (· == sub) = none := by
    rw [List.findIdx?_eq_none_iff]
    intro x hx
    simpa using fun heq : x = sub => h (heq ▸ hx)
  rw [remove, hnone]

/-- A subscriber in the list is found and removed by its index. -/
theorem exists_remove_eq {l : List Sub} {sub : Sub} (h : sub ∈ l) :
    ∃ i, l[i]? = some sub ∧ remove l sub = swapRemove l i := by
  cases hfind : l.findIdx? (· == sub) with
  | none =>
      rw [List.findIdx?_eq_none_iff] at hfind
      exact absurd (hfind sub h) (by simp)
  | some i =>
      refine ⟨i, ?_, by rw [remove, hfind]⟩
      obtain ⟨hi, heq, -⟩ := List.findIdx?_eq_some_iff_getElem.mp hfind
      rw [List.getElem?_eq_getElem hi]
      simpa using heq

/-- Nothing but the removed subscriber leaves the list. -/
theorem perm_cons_remove {l : List Sub} {sub : Sub} (h : sub ∈ l) :
    l.Perm (sub :: remove l sub) := by
  obtain ⟨i, hi, heq⟩ := exists_remove_eq h
  obtain ⟨init, y, rfl⟩ : ∃ init y, l = init ++ [y] :=
    ⟨_, _, (List.dropLast_concat_getLast (List.ne_nil_of_mem h)).symm⟩
  rw [heq]
  exact perm_cons_swapRemove init y sub hi

theorem mem_of_mem_remove {l : List Sub} {x sub : Sub} (h : x ∈ remove l sub) : x ∈ l := by
  by_cases hsub : sub ∈ l
  · exact (perm_cons_remove hsub).mem_iff.mpr (List.mem_cons_of_mem _ h)
  · rwa [remove_of_not_mem hsub] at h

theorem nodup_remove {l : List Sub} (h : l.Nodup) (sub : Sub) : (remove l sub).Nodup := by
  by_cases hsub : sub ∈ l
  · exact (List.nodup_cons.mp ((perm_cons_remove hsub).nodup_iff.mp h)).2
  · rwa [remove_of_not_mem hsub]

theorem not_mem_remove_self {l : List Sub} (h : l.Nodup) (sub : Sub) :
    sub ∉ remove l sub := by
  by_cases hsub : sub ∈ l
  · exact (List.nodup_cons.mp ((perm_cons_remove hsub).nodup_iff.mp h)).1
  · rwa [remove_of_not_mem hsub]

theorem length_remove_le (l : List Sub) (sub : Sub) : (remove l sub).length ≤ l.length := by
  by_cases hsub : sub ∈ l
  · have := (perm_cons_remove hsub).length_eq
    rw [List.length_cons] at this
    omega
  · rw [remove_of_not_mem hsub]

end Subscriptions

/-! ### What the bus does to the lists -/

namespace EventBus

variable {eventCount : ℕ} {Sub : Type} {bus : EventBus eventCount Sub} {sub x : Sub}
  {e e' : Fin eventCount} {stored : Bool} {j : ℕ}

/-- At most one list grows, by one entry at its end. -/
theorem mEvents_addSubscriber (bus : EventBus eventCount Sub) (sub : Sub) (e : Fin eventCount)
    (stored : Bool) (e' : Fin eventCount) :
    (bus.addSubscriber sub e stored).mEvents e' =
      bus.mEvents e' ++ if stored = true ∧ e' = e then [sub] else [] := by
  cases stored with
  | false => exact (List.append_nil _).symm
  | true =>
      by_cases heq : e' = e
      · subst heq
        simp [addSubscriber]
      · simp [addSubscriber, heq]

theorem mem_addSubscriber (h : x ∈ (bus.addSubscriber sub e stored).mEvents e') :
    x ∈ bus.mEvents e' ∨ x = sub ∧ e' = e := by
  rw [mEvents_addSubscriber, List.mem_append] at h
  refine h.imp_right fun hnew => ?_
  split at hnew
  · rename_i hstored
    exact ⟨List.mem_singleton.mp hnew, hstored.2⟩
  · cases hnew

theorem nodup_addSubscriber (h : (bus.mEvents e').Nodup) (hnew : sub ∉ bus.mEvents e') :
    ((bus.addSubscriber sub e stored).mEvents e').Nodup := by
  rw [mEvents_addSubscriber]
  split
  · refine List.nodup_append.mpr ⟨h, List.nodup_singleton _, fun y hy z hz heq => hnew ?_⟩
    rwa [← List.mem_singleton.mp hz, ← heq]
  · rwa [List.append_nil]

/-- The entries stay where they are. -/
theorem getElem?_addSubscriber (h : (bus.mEvents e')[j]? = some x) :
    ((bus.addSubscriber sub e stored).mEvents e')[j]? = some x := by
  rw [mEvents_addSubscriber, List.getElem?_append_left (List.getElem?_eq_some_iff.mp h).1, h]

theorem getElem?_of_addSubscriber
    (h : ((bus.addSubscriber sub e stored).mEvents e')[j]? = some x) (hne : x ≠ sub) :
    (bus.mEvents e')[j]? = some x := by
  rw [mEvents_addSubscriber] at h
  rcases Nat.lt_or_ge j (bus.mEvents e').length with hlt | hge
  · rwa [List.getElem?_append_left hlt] at h
  · rw [List.getElem?_append_right hge] at h
    have hnew := List.mem_of_getElem? h
    split at hnew
    · exact absurd (List.mem_singleton.mp hnew) hne
    · cases hnew

variable [DecidableEq Sub]

theorem mEvents_removeSubscriber_self (bus : EventBus eventCount Sub) (sub : Sub)
    (e : Fin eventCount) :
    (bus.removeSubscriber sub e).mEvents e = Subscriptions.remove (bus.mEvents e) sub :=
  Function.update_self ..

/-- A list is left alone, or the subscriber is removed from it. -/
theorem mEvents_removeSubscriber (bus : EventBus eventCount Sub) (sub : Sub)
    (e e' : Fin eventCount) :
    (bus.removeSubscriber sub e).mEvents e' = bus.mEvents e' ∨
      (bus.removeSubscriber sub e).mEvents e' = Subscriptions.remove (bus.mEvents e') sub := by
  by_cases heq : e' = e
  · exact Or.inr (heq ▸ bus.mEvents_removeSubscriber_self sub e)
  · exact Or.inl (Function.update_of_ne heq _ _)

theorem mem_of_mem_removeSubscriber (h : x ∈ (bus.removeSubscriber sub e).mEvents e') :
    x ∈ bus.mEvents e' := by
  rcases bus.mEvents_removeSubscriber sub e e' with hsame | hremove
  · rwa [hsame] at h
  · rw [hremove] at h
    exact Subscriptions.mem_of_mem_remove h

theorem nodup_removeSubscriber (h : (bus.mEvents e').Nodup) :
    ((bus.removeSubscriber sub e).mEvents e').Nodup := by
  rcases bus.mEvents_removeSubscriber sub e e' with hsame | hremove
  · rwa [hsame]
  · rw [hremove]
    exact Subscriptions.nodup_remove h sub

theorem length_removeSubscriber_le (bus : EventBus eventCount Sub) (sub : Sub)
    (e e' : Fin eventCount) :
    ((bus.removeSubscriber sub e).mEvents e').length ≤ (bus.mEvents e').length := by
  rcases bus.mEvents_removeSubscriber sub e e' with hsame | hremove
  · rw [hsame]
  · rw [hremove]
    exact Subscriptions.length_remove_le _ _

/-- A list is left alone, or the last entry fills the gap of the subscriber. -/
theorem removeSubscriber_cases (bus : EventBus eventCount Sub) (sub : Sub)
    (e e' : Fin eventCount) :
    (bus.removeSubscriber sub e).mEvents e' = bus.mEvents e' ∨
      ∃ i, (bus.mEvents e')[i]? = some sub ∧
        (bus.removeSubscriber sub e).mEvents e' = BufferState.swapRemove (bus.mEvents e') i := by
  rcases bus.mEvents_removeSubscriber sub e e' with hsame | hremove
  · exact Or.inl hsame
  · rw [hremove]
    by_cases hmem : sub ∈ bus.mEvents e'
    · exact Or.inr (Subscriptions.exists_remove_eq hmem)
    · exact Or.inl (Subscriptions.remove_of_not_mem hmem)

theorem getElem?_of_removeSubscriber
    (h : ((bus.removeSubscriber sub e).mEvents e')[j]? = some x) :
    ∃ j', j ≤ j' ∧ (bus.mEvents e')[j']? = some x := by
  rcases bus.removeSubscriber_cases sub e e' with hsame | ⟨i, -, hremove⟩
  · exact ⟨j, le_rfl, hsame ▸ h⟩
  · rw [hremove] at h
    exact Subscriptions.getElem?_of_swapRemove h

end EventBus

namespace BusSession

variable {eventCount : ℕ} {Sub Param : Type} {s t u : BusSession eventCount Sub Param}
  {a : BusAction eventCount Sub Param} {k : ℕ} {e : Fin eventCount} {p : Param} {x : Sub}

/-! ### The lists and the living -/

/-- **The lists are right.**  Whoever is listed is alive and subscribed to that
event, and listed once; the calls of `fireEvent` under way have different numbers,
and only numbers given out are in use. -/
structure Sound (s : BusSession eventCount Sub Param) : Prop where
  listed : ∀ e, ∀ x ∈ s.bus.mEvents e, s.subscription x = some e
  nodup : ∀ e, (s.bus.mEvents e).Nodup
  numbers : (s.firings.map Firing.number).Nodup
  number_lt : ∀ f ∈ s.firings, f.number < s.fired
  call_lt : ∀ c ∈ s.calls, c.firing < s.fired

theorem sound_start : (start : BusSession eventCount Sub Param).Sound :=
  ⟨fun _ _ h => absurd h List.not_mem_nil, fun _ => List.nodup_nil, List.nodup_nil,
    fun _ h => absurd h List.not_mem_nil, fun _ h => absurd h List.not_mem_nil⟩

/-- A step that leaves bus and subscriptions alone and replaces the innermost
call. -/
theorem Sound.retop (h : s.Sound) {f : Firing eventCount Param}
    {rest : List (Firing eventCount Param)} (hs : s.firings = f :: rest)
    (f' : Firing eventCount Param) (hnum : f'.number = f.number)
    {calls : List (CallbackCall eventCount Sub Param)}
    (hcalls : ∀ c ∈ calls, c.firing < s.fired) :
    Sound { s with firings := f' :: rest, calls := calls } := by
  have hnumbers := h.numbers
  have hlt := h.number_lt
  rw [hs] at hnumbers hlt
  refine ⟨h.listed, h.nodup, ?_, ?_, hcalls⟩
  · rw [List.map_cons] at hnumbers ⊢
    rwa [hnum]
  · intro g hg
    rcases List.mem_cons.mp hg with rfl | hg
    · rw [hnum]
      exact hlt f List.mem_cons_self
    · exact hlt g (List.mem_cons_of_mem _ hg)

theorem active_cons (s : BusSession eventCount Sub Param) (f : Firing eventCount Param)
    (rest : List (Firing eventCount Param)) (hs : s.firings = f :: rest) (k : ℕ) :
    s.active k = if f.number = k then some f else rest.find? (·.number == k) := by
  rw [active, hs]
  by_cases heq : f.number = k
  · rw [List.find?_cons_of_pos (by simpa using heq), if_pos heq]
  · rw [List.find?_cons_of_neg (by simpa using heq), if_neg heq]

/-- The numbers of the calls under way differ: below the innermost one there is no
other call with its number. -/
theorem Sound.find?_rest (h : s.Sound) {f : Firing eventCount Param}
    {rest : List (Firing eventCount Param)} (hs : s.firings = f :: rest) :
    rest.find? (·.number == f.number) = none := by
  have hnumbers := h.numbers
  rw [hs, List.map_cons, List.nodup_cons] at hnumbers
  rw [List.find?_eq_none]
  intro g hg
  simpa using fun heq : g.number = f.number => hnumbers.1 (heq ▸ List.mem_map_of_mem hg)

variable [DecidableEq Sub]

/-- The constructor of a subscription at a free address. -/
theorem Sound.subscribe (h : s.Sound) {sub : Sub} (hfresh : s.subscription sub = none)
    (stored : Bool) :
    Sound { s with
      bus := s.bus.addSubscriber sub e stored
      subscription := Function.update s.subscription sub (some e) } := by
  have hnew : ∀ e', sub ∉ s.bus.mEvents e' := fun e' hmem => by
    rw [h.listed e' sub hmem] at hfresh
    cases hfresh
  have hold : ∀ e', ∀ x ∈ s.bus.mEvents e',
      Function.update s.subscription sub (some e) x = some e' := fun e' x hx => by
    have hne : x ≠ sub := fun heq => hnew e' (heq ▸ hx)
    rw [Function.update_of_ne hne]
    exact h.listed e' x hx
  refine ⟨?_, ?_, h.numbers, h.number_lt, h.call_lt⟩
  · intro e' x hx
    rcases EventBus.mem_addSubscriber hx with hx | ⟨rfl, rfl⟩
    · exact hold e' x hx
    · exact Function.update_self ..
  · exact fun e' => EventBus.nodup_addSubscriber (h.nodup e') (hnew e')

/-- The destructor of a subscription. -/
theorem Sound.destroy (h : s.Sound) {sub : Sub} (halive : s.subscription sub = some e) :
    Sound { s with
      bus := s.bus.removeSubscriber sub e
      subscription := Function.update s.subscription sub none } := by
  refine ⟨?_, fun e' => EventBus.nodup_removeSubscriber (h.nodup e'), h.numbers, h.number_lt,
    h.call_lt⟩
  intro e' x hx
  have hlisted := h.listed e' x (EventBus.mem_of_mem_removeSubscriber hx)
  have hne : x ≠ sub := by
    rintro rfl
    obtain rfl : e = e' := Option.some.inj (halive.symm.trans hlisted)
    rw [EventBus.mEvents_removeSubscriber_self] at hx
    exact Subscriptions.not_mem_remove_self (h.nodup e) x hx
  show Function.update s.subscription sub none x = some e'
  rw [Function.update_of_ne hne, hlisted]

/-- The steps of the machine. -/
abbrev Step : BusSession eventCount Sub Param → BusAction eventCount Sub Param →
    BusSession eventCount Sub Param → Prop :=
  StepOf exec

/-- The session after `a`, by the branch of the code that was taken.  It is written once, for all
proofs about the bus: what the branch requires, and the session afterwards in full. -/
inductive Took (s : BusSession eventCount Sub Param) :
    BusAction eventCount Sub Param → BusSession eventCount Sub Param → Prop
  | subscribe {sub : Sub} {e : Fin eventCount} {stored : Bool} :
      s.userCode = true → s.subscription sub = none →
      Took s (.subscribe sub e stored) { s with
        bus := s.bus.addSubscriber sub e stored
        subscription := Function.update s.subscription sub (some e) }
  | destroy {sub : Sub} {e : Fin eventCount} :
      s.userCode = true → s.subscription sub = some e →
      Took s (.destroy sub) { s with
        bus := s.bus.removeSubscriber sub e
        subscription := Function.update s.subscription sub none }
  /-- Nobody is listening. -/
  | unheard {e : Fin eventCount} {p : Param} :
      s.userCode = true → s.bus.mEvents e = [] →
      Took s (.fireEvent e p) { s with fired := s.fired + 1 }
  | fire {e : Fin eventCount} {p : Param} :
      s.userCode = true → s.bus.mEvents e ≠ [] →
      Took s (.fireEvent e p) { s with
        fired := s.fired + 1
        firings := ⟨s.fired, e, p, 0, false⟩ :: s.firings }
  | call {f : Firing eventCount Param} {rest : List (Firing eventCount Param)} {sub : Sub} :
      s.firings = f :: rest → f.calling = false →
      (s.bus.mEvents f.eventId)[f.i]? = some sub →
      Took s .turn { s with
        firings := { f with calling := true } :: rest
        calls := s.calls ++ [⟨f.number, sub, f.param, s.subscription sub⟩] }
  | finish {f : Firing eventCount Param} {rest : List (Firing eventCount Param)} :
      s.firings = f :: rest → f.calling = false →
      (s.bus.mEvents f.eventId)[f.i]? = none → Took s .turn { s with firings := rest }
  | leave {f : Firing eventCount Param} {rest : List (Firing eventCount Param)} :
      s.firings = f :: rest → f.calling = true →
      Took s .leave { s with firings := { f with i := f.i + 1, calling := false } :: rest }

/-- **Inversion.**  A step took one of the branches.  Every proof about the bus goes through this
list of what a step can do, with the state afterwards in full; the branches of the code are looked
at here only. -/
theorem took_of_step (hstep : Step s a t) : Took s a t := by
  unfold Step StepOf at hstep
  cases a with
  | subscribe sub e stored =>
      simp only [exec, Option.ite_none_right_eq_some, Option.some.injEq] at hstep
      obtain ⟨⟨huser, hfresh⟩, rfl⟩ := hstep
      exact .subscribe huser hfresh
  | destroy sub =>
      simp only [exec, Option.ite_none_right_eq_some, Option.map_eq_some_iff] at hstep
      obtain ⟨huser, e, halive, rfl⟩ := hstep
      exact .destroy huser halive
  | fireEvent e p =>
      simp only [exec, Option.ite_none_right_eq_some] at hstep
      obtain ⟨huser, hstep⟩ := hstep
      split at hstep
      · rename_i hlen
        obtain rfl := Option.some.inj hstep
        exact .unheard huser (List.length_eq_zero_iff.mp hlen)
      · rename_i hlen
        obtain rfl := Option.some.inj hstep
        exact .fire huser (mt List.length_eq_zero_iff.mpr hlen)
  | turn =>
      cases hf : s.firings with
      | nil => simp [exec, hf] at hstep
      | cons f rest =>
          simp only [exec, hf, Option.ite_none_left_eq_some, Bool.not_eq_true] at hstep
          obtain ⟨hcalling, hstep⟩ := hstep
          split at hstep
          · rename_i sub hsub
            obtain rfl := Option.some.inj hstep
            exact .call hf hcalling hsub
          · rename_i hend
            obtain rfl := Option.some.inj hstep
            exact .finish hf hcalling hend
  | leave =>
      cases hf : s.firings with
      | nil => simp [exec, hf] at hstep
      | cons f rest =>
          simp only [exec, hf, Option.ite_none_right_eq_some, Option.some.injEq] at hstep
          obtain ⟨hcalling, rfl⟩ := hstep
          exact .leave hf hcalling

/-- Every step keeps the lists right, and no number is given out twice. -/
theorem Sound.step (h : s.Sound) (hstep : Step s a t) : t.Sound ∧ s.fired ≤ t.fired := by
  have hlater : ∀ c ∈ s.calls, c.firing < s.fired + 1 := fun c hc =>
    Nat.lt_succ_of_lt (h.call_lt c hc)
  cases took_of_step hstep with
  | @subscribe _ _ stored _ hfresh => exact ⟨h.subscribe hfresh stored, le_rfl⟩
  | destroy _ halive => exact ⟨h.destroy halive, le_rfl⟩
  | unheard _ _ =>
      exact ⟨⟨h.listed, h.nodup, h.numbers, fun f hf => Nat.lt_succ_of_lt (h.number_lt f hf),
        hlater⟩, Nat.le_succ _⟩
  | fire _ _ =>
      refine ⟨⟨h.listed, h.nodup, ?_, ?_, hlater⟩, Nat.le_succ _⟩
      · refine List.nodup_cons.mpr ⟨?_, h.numbers⟩
        intro hmem
        obtain ⟨f, hf, heq⟩ := List.mem_map.mp hmem
        exact absurd (h.number_lt f hf) (by rw [heq]; exact lt_irrefl _)
      · intro f hf
        rcases List.mem_cons.mp hf with rfl | hf
        · exact Nat.lt_succ_self _
        · exact Nat.lt_succ_of_lt (h.number_lt f hf)
  | @call f rest sub hf _ _ =>
      refine ⟨h.retop hf { f with calling := true } rfl ?_, le_rfl⟩
      intro c hc
      rcases List.mem_append.mp hc with hc | hc
      · exact h.call_lt c hc
      · obtain rfl := List.mem_singleton.mp hc
        exact h.number_lt f (hf ▸ List.mem_cons_self)
  | @finish f rest hf _ _ =>
      have hnumbers := h.numbers
      have hlt := h.number_lt
      rw [hf] at hnumbers hlt
      exact ⟨⟨h.listed, h.nodup, (List.nodup_cons.mp hnumbers).2,
        fun g hg => hlt g (List.mem_cons_of_mem _ hg), h.call_lt⟩, le_rfl⟩
  | @leave f rest hf _ =>
      exact ⟨h.retop hf { f with i := f.i + 1, calling := false } rfl h.call_lt, le_rfl⟩

/-! ### What a step means for one firing -/

/-- **One step, seen by the firing with number `k`.**  What matters to a given firing is what moves
its cursor, and what moves the entries under it. -/
inductive Seen (k : ℕ) (s : BusSession eventCount Sub Param) :
    BusAction eventCount Sub Param → BusSession eventCount Sub Param → Prop
  /-- A subscription appears at a free address and is put at the end of its list,
  if there is memory. -/
  | subscribe {sub : Sub} {e : Fin eventCount} {stored : Bool}
      {t : BusSession eventCount Sub Param} :
      s.subscription sub = none → t.bus = s.bus.addSubscriber sub e stored →
      t.subscription = Function.update s.subscription sub (some e) →
      t.active k = s.active k → t.callsOf k = s.callsOf k → Seen k s (.subscribe sub e stored) t
  /-- A subscription goes away. -/
  | destroy {sub : Sub} {e : Fin eventCount} {t : BusSession eventCount Sub Param} :
      s.subscription sub = some e → t.bus = s.bus.removeSubscriber sub e →
      t.subscription = Function.update s.subscription sub none →
      t.active k = s.active k → t.callsOf k = s.callsOf k → Seen k s (.destroy sub) t
  /-- Another firing begins, turns or ends. -/
  | elsewhere {a : BusAction eventCount Sub Param} {t : BusSession eventCount Sub Param} :
      (∀ sub, a ≠ .destroy sub) → t.bus = s.bus → t.subscription = s.subscription →
      t.active k = s.active k → t.callsOf k = s.callsOf k → Seen k s a t
  /-- The firing calls the entry at its cursor. -/
  | call {f : Firing eventCount Param} {sub : Sub} {t : BusSession eventCount Sub Param} :
      s.active k = some f → f.calling = false →
      (s.bus.mEvents f.eventId)[f.i]? = some sub → t.bus = s.bus →
      t.subscription = s.subscription → t.active k = some { f with calling := true } →
      t.callsOf k = s.callsOf k ++ [⟨k, sub, f.param, s.subscription sub⟩] → Seen k s .turn t
  /-- The firing has come to the end of the list and is over. -/
  | finish {f : Firing eventCount Param} {t : BusSession eventCount Sub Param} :
      s.active k = some f → f.calling = false →
      (s.bus.mEvents f.eventId)[f.i]? = none → t.bus = s.bus →
      t.subscription = s.subscription → t.active k = none → t.callsOf k = s.callsOf k →
      Seen k s .turn t
  /-- The callback the firing called returns. -/
  | leave {f : Firing eventCount Param} {t : BusSession eventCount Sub Param} :
      s.active k = some f → f.calling = true → t.bus = s.bus →
      t.subscription = s.subscription →
      t.active k = some { f with i := f.i + 1, calling := false } →
      t.callsOf k = s.callsOf k → Seen k s .leave t

/-- A step of the machine is one of the seven things a firing that has begun can
see. -/
theorem Sound.seen (h : s.Sound) (hk : k < s.fired) (hstep : Step s a t) : Seen k s a t := by
  cases took_of_step hstep with
  | subscribe _ hfresh => exact .subscribe hfresh rfl rfl rfl rfl
  | destroy _ halive => exact .destroy halive rfl rfl rfl rfl
  | unheard _ _ => exact .elsewhere nofun rfl rfl rfl rfl
  | fire _ _ =>
      refine .elsewhere nofun rfl rfl ?_ rfl
      rw [active_cons _ _ _ rfl, if_neg (Nat.ne_of_gt hk), active]
  | @call f rest sub hf hcalling hsub =>
      have hactive := active_cons s f rest hf k
      by_cases hnum : f.number = k
      · subst hnum
        rw [if_pos rfl] at hactive
        refine .call hactive hcalling hsub rfl rfl ?_ ?_
        · exact (active_cons _ { f with calling := true } rest rfl _).trans (if_pos rfl)
        · simp only [callsOf, List.filter_append, List.filter_cons, List.filter_nil,
            beq_self_eq_true, if_true]
      · rw [if_neg hnum] at hactive
        refine .elsewhere nofun rfl rfl ?_ ?_
        · rw [hactive]
          exact (active_cons _ { f with calling := true } rest rfl _).trans (if_neg hnum)
        · have hother : (f.number == k) = false := by simpa using hnum
          simp only [callsOf, List.filter_append, List.filter_cons, List.filter_nil,
            hother, Bool.false_eq_true, if_false, List.append_nil]
  | @finish f rest hf hcalling hend =>
      have hactive := active_cons s f rest hf k
      by_cases hnum : f.number = k
      · subst hnum
        rw [if_pos rfl] at hactive
        exact .finish hactive hcalling hend rfl rfl (h.find?_rest hf) rfl
      · rw [if_neg hnum] at hactive
        exact .elsewhere nofun rfl rfl hactive.symm rfl
  | @leave f rest hf hcalling =>
      have hactive := active_cons s f rest hf k
      by_cases hnum : f.number = k
      · subst hnum
        rw [if_pos rfl] at hactive
        exact .leave hactive hcalling rfl rfl
          ((active_cons _ { f with i := f.i + 1, calling := false } rest rfl _).trans
            (if_pos rfl)) rfl
      · rw [if_neg hnum] at hactive
        refine .elsewhere nofun rfl rfl ?_ rfl
        rw [hactive]
        exact (active_cons _ { f with i := f.i + 1, calling := false } rest rfl _).trans
          (if_neg hnum)

/-! ### The calls are bounded, and go to the living -/

/-- The number of subscriptions to `e` created by the given actions. -/
def created (e : Fin eventCount) (actions : List (BusAction eventCount Sub Param)) : ℕ :=
  actions.countP fun
    | .subscribe _ eventId _ => eventId == e
    | _ => false

/-- The lists only grow by what is created. -/
theorem Seen.length_le (h : Seen k s a t) (e : Fin eventCount) :
    (t.bus.mEvents e).length ≤ (s.bus.mEvents e).length + created e [a] := by
  cases h with
  | @subscribe sub e' stored _ _ hbus =>
      rw [hbus, EventBus.mEvents_addSubscriber, List.length_append]
      refine Nat.add_le_add_left ?_ _
      by_cases hnew : stored = true ∧ e = e'
      · rw [if_pos hnew, hnew.2]
        simp [created]
      · rw [if_neg hnew]
        exact Nat.zero_le _
  | @destroy sub e' _ _ hbus =>
      rw [hbus]
      exact le_add_right (EventBus.length_removeSubscriber_le _ _ _ _)
  | elsewhere _ hbus => exact hbus ▸ Nat.le_add_right _ _
  | call _ _ _ hbus => exact hbus ▸ Nat.le_add_right _ _
  | finish _ _ _ hbus => exact hbus ▸ Nat.le_add_right _ _
  | leave _ _ hbus => exact hbus ▸ Nat.le_add_right _ _

/-- The firing `k` is one of `e` with argument `p`: it has called only living
subscriptions to `e`, with `p`, and one for every entry it has visited. -/
structure Told (s : BusSession eventCount Sub Param) (k : ℕ) (e : Fin eventCount)
    (p : Param) : Prop where
  begun : k < s.fired
  calls : ∀ c ∈ s.callsOf k, c.target = some e ∧ c.param = p
  active : ∀ f, s.active k = some f →
    f.eventId = e ∧ f.param = p ∧ (s.callsOf k).length = f.visited

theorem Told.step (h : s.Told k e p) (hs : s.Sound) (hstep : Step s a t) :
    t.Told k e p ∧ (t.callsOf k).length ≤
      max (s.callsOf k).length (s.bus.mEvents e).length := by
  have hbegun : k < t.fired := lt_of_lt_of_le h.begun (hs.step hstep).2
  have hsame : t.active k = s.active k → t.callsOf k = s.callsOf k →
      t.Told k e p ∧ (t.callsOf k).length ≤
        max (s.callsOf k).length (s.bus.mEvents e).length := by
    intro hactive hcalls
    refine ⟨⟨hbegun, ?_, ?_⟩, ?_⟩
    · rw [hcalls]
      exact h.calls
    · rw [hactive, hcalls]
      exact h.active
    · rw [hcalls]
      exact le_max_left _ _
  cases hs.seen h.begun hstep with
  | subscribe _ _ _ hactive hcalls => exact hsame hactive hcalls
  | destroy _ _ _ hactive hcalls => exact hsame hactive hcalls
  | elsewhere _ _ _ hactive hcalls => exact hsame hactive hcalls
  | @call f sub _ hf hcalling hsub _ _ hactive hcalls =>
      obtain ⟨he, hp, hlen⟩ := h.active f hf
      rw [Firing.visited_of_testing hcalling] at hlen
      have hlen' : (t.callsOf k).length = f.i + 1 := by
        rw [hcalls, List.length_append, List.length_singleton, hlen]
      have hlt : f.i < (s.bus.mEvents e).length := by
        rw [← he]
        exact (List.getElem?_eq_some_iff.mp hsub).1
      refine ⟨⟨hbegun, ?_, ?_⟩, ?_⟩
      · intro c hc
        rw [hcalls] at hc
        rcases List.mem_append.mp hc with hc | hc
        · exact h.calls c hc
        · obtain rfl := List.mem_singleton.mp hc
          exact ⟨hs.listed e sub (he ▸ List.mem_of_getElem? hsub), hp⟩
      · intro g hg
        obtain rfl := Option.some.inj (hactive.symm.trans hg)
        exact ⟨he, hp, by rw [hlen', Firing.visited_of_calling rfl]⟩
      · rw [hlen']
        exact le_max_of_le_right hlt
  | finish _ _ _ _ _ hactive hcalls =>
      refine ⟨⟨hbegun, ?_, ?_⟩, ?_⟩
      · rw [hcalls]
        exact h.calls
      · rw [hactive]
        exact nofun
      · rw [hcalls]
        exact le_max_left _ _
  | @leave f _ hf hcalling _ _ hactive hcalls =>
      obtain ⟨he, hp, hlen⟩ := h.active f hf
      refine ⟨⟨hbegun, ?_, ?_⟩, ?_⟩
      · rw [hcalls]
        exact h.calls
      · intro g hg
        obtain rfl := Option.some.inj (hactive.symm.trans hg)
        refine ⟨he, hp, ?_⟩
        rw [hcalls, hlen, Firing.visited_of_calling hcalling, Firing.visited_of_testing rfl]
      · rw [hcalls]
        exact le_max_left _ _

/-- **The calls are bounded.**  Whatever the callbacks do, a firing makes no more
calls than there were subscriptions at its start and were created since. -/
theorem Told.run {actions : List (BusAction eventCount Sub Param)} (h : s.Told k e p)
    (hs : s.Sound) (hrun : Run Step s actions u) :
    u.Sound ∧ u.Told k e p ∧ (u.callsOf k).length ≤
      max (s.callsOf k).length ((s.bus.mEvents e).length + created e actions) := by
  induction hrun with
  | nil => exact ⟨hs, h, le_max_left _ _⟩
  | @cons s t u a as hstep _ ih =>
      obtain ⟨htold, hcalls⟩ := h.step hs hstep
      obtain ⟨hu, htu, hle⟩ := ih htold (hs.step hstep).1
      have hlist := (hs.seen h.begun hstep).length_le e
      have hsplit : created e (a :: as) = created e [a] + created e as := by
        rw [created, created, created, ← List.countP_append]
        rfl
      refine ⟨hu, htu, ?_⟩
      omega

/-! ### The subscriptions a firing reaches -/

/-- How often the firing `k` has called `x`. -/
def timesCalled (s : BusSession eventCount Sub Param) (k : ℕ) (x : Sub) : ℕ :=
  ((s.callsOf k).map CallbackCall.sub).count x

/-- The step carries `x` over the cursor of the firing `k`: a subscription is
destroyed whose entry `k` has visited, and `x` fills the gap although `k` has not
visited it. -/
def Carries (k : ℕ) (x : Sub) (s : BusSession eventCount Sub Param)
    (a : BusAction eventCount Sub Param) : Prop :=
  ∃ sub f i, a = .destroy sub ∧ s.active k = some f ∧
    (s.bus.mEvents f.eventId)[i]? = some sub ∧ i < f.visited ∧
    f.visited < (s.bus.mEvents f.eventId).length ∧
    (s.bus.mEvents f.eventId).getLast? = some x

omit [DecidableEq Sub] in
/-- Only a destructor carries anything. -/
theorem not_carries (ha : ∀ sub, a ≠ .destroy sub) : ¬ Carries k x s a := by
  rintro ⟨sub, -, -, h, -⟩
  exact ha sub h

omit [DecidableEq Sub] in
/-- A subscription whose entry is not visited yet leaves no gap behind the cursor. -/
theorem not_carries_beyond {f : Firing eventCount Param} {sub : Sub}
    (hf : s.active k = some f)
    (hbeyond : ∀ i < f.visited, (s.bus.mEvents f.eventId)[i]? ≠ some sub) :
    ¬ Carries k x s (.destroy sub) := by
  rintro ⟨sub', g, i, h, hg, hi, hlt, -⟩
  obtain rfl := BusAction.destroy.inj h
  obtain rfl := Option.some.inj (hf.symm.trans hg)
  exact hbeyond i hlt hi

/-- `x` is listed, and has been called once if its entry is visited and not at all
otherwise; a firing that is over has visited all entries. -/
structure Reached (s : BusSession eventCount Sub Param) (k : ℕ) (e : Fin eventCount)
    (x : Sub) : Prop where
  alive : s.subscription x = some e
  place : ∃ j, (s.bus.mEvents e)[j]? = some x ∧
    (∀ f, s.active k = some f → s.timesCalled k x = if j < f.visited then 1 else 0) ∧
    (s.active k = none → s.timesCalled k x = 1)

/-- `x` has not been called, and no entry the firing `k` will visit is `x`.  The entries of `x` are
all behind the cursor, and the cursor only goes forward. -/
structure Missed (s : BusSession eventCount Sub Param) (k : ℕ) (e : Fin eventCount)
    (x : Sub) : Prop where
  alive : s.subscription x = some e
  uncalled : s.timesCalled k x = 0
  behind : ∀ f, s.active k = some f → ∀ j, (s.bus.mEvents e)[j]? = some x → j < f.visited

/-- A subscription lives until it is destroyed. -/
theorem Seen.alive (h : Seen k s a t) (hx : s.subscription x = some e)
    (ha : a ≠ .destroy x) : t.subscription x = some e := by
  cases h with
  | @subscribe sub _ _ _ hfresh _ hsub =>
      have hne : x ≠ sub := by
        rintro rfl
        rw [hx] at hfresh
        cases hfresh
      rw [hsub, Function.update_of_ne hne, hx]
  | @destroy sub _ _ _ _ hsub =>
      have hne : x ≠ sub := fun heq => ha (heq ▸ rfl)
      rw [hsub, Function.update_of_ne hne, hx]
  | elsewhere _ _ hsub => rw [hsub, hx]
  | call _ _ _ _ hsub => rw [hsub, hx]
  | finish _ _ _ _ hsub => rw [hsub, hx]
  | leave _ _ _ hsub => rw [hsub, hx]

theorem timesCalled_congr (h : t.callsOf k = s.callsOf k) (x : Sub) :
    t.timesCalled k x = s.timesCalled k x := by
  rw [timesCalled, h, timesCalled]

theorem timesCalled_call {f : Firing eventCount Param} {sub : Sub}
    (h : t.callsOf k = s.callsOf k ++ [⟨k, sub, f.param, s.subscription sub⟩]) (x : Sub) :
    t.timesCalled k x = s.timesCalled k x + if sub = x then 1 else 0 := by
  rw [timesCalled, h, timesCalled, List.map_append, List.count_append, List.map_singleton,
    List.count_singleton]
  simp

/-- The count goes on with the cursor: an entry is listed once. -/
theorem timesCalled_visit {f : Firing eventCount Param} {sub : Sub} {j : ℕ}
    (hnodup : (s.bus.mEvents e).Nodup) (hj : (s.bus.mEvents e)[j]? = some x)
    (hsub : (s.bus.mEvents e)[f.i]? = some sub)
    (hcount : s.timesCalled k x = if j < f.i then 1 else 0)
    (hcalls : t.callsOf k = s.callsOf k ++ [⟨k, sub, f.param, s.subscription sub⟩]) :
    t.timesCalled k x = if j < f.i + 1 then 1 else 0 := by
  rw [timesCalled_call hcalls, hcount]
  by_cases heq : sub = x
  · -- the cursor is at the place of `x`
    subst heq
    have hij : j = f.i := by
      have hjlt := (List.getElem?_eq_some_iff.mp hj).1
      exact (List.getElem?_inj hjlt hnodup).mp (hj.trans hsub.symm)
    rw [if_neg (by omega), if_pos rfl, if_pos (show j < f.i + 1 by omega)]
  · have hij : j ≠ f.i := by
      rintro rfl
      exact heq (Option.some.inj (hsub.symm.trans hj))
    rw [if_neg heq, Nat.add_zero]
    have hkeep : j < f.i ↔ j < f.i + 1 := by omega
    simp only [hkeep]

/-- The place of `x` when another subscription was destroyed. -/
theorem Reached.place_remove {sub : Sub} (h : s.Reached k e x) (ht : s.Told k e p)
    (ha : sub ≠ x) (hcarry : ¬ Carries k x s (.destroy sub)) (e' : Fin eventCount) :
    ∃ j, ((s.bus.removeSubscriber sub e').mEvents e)[j]? = some x ∧
      (∀ f, s.active k = some f → s.timesCalled k x = if j < f.visited then 1 else 0) ∧
      (s.active k = none → s.timesCalled k x = 1) := by
  obtain ⟨j, hj, hactive, hover⟩ := h.place
  rcases s.bus.removeSubscriber_cases sub e' e with hsame | ⟨i, hi, hremove⟩
  · rw [hsame]
    exact ⟨j, hj, hactive, hover⟩
  · have hlt : i < (s.bus.mEvents e).length := (List.getElem?_eq_some_iff.mp hi).1
    have hne : j ≠ i := by
      rintro rfl
      exact ha (Option.some.inj (hi.symm.trans hj))
    rw [hremove]
    refine ⟨_, Subscriptions.getElem?_swapRemove hlt hj hne, ?_, hover⟩
    intro f hf
    rw [hactive f hf]
    have hstay : ¬ (i < f.visited ∧ f.visited < (s.bus.mEvents e).length ∧
        j + 1 = (s.bus.mEvents e).length) := by
      rintro ⟨hvisited, hmore, hlast⟩
      refine hcarry ⟨sub, f, i, rfl, hf, ?_⟩
      rw [(ht.active f hf).1, List.getLast?_eq_getElem?, ← hlast, Nat.add_sub_cancel, hlast]
      exact ⟨hi, hvisited, hmore, hj⟩
    simp only [Subscriptions.swapRemove_side hlt hstay]

/-- **Reached stays reached**, as long as nothing carries `x` over the cursor. -/
theorem Reached.step (h : s.Reached k e x) (hs : s.Sound) (ht : s.Told k e p)
    (hstep : Step s a t) (ha : a ≠ .destroy x) (hcarry : ¬ Carries k x s a) :
    t.Reached k e x := by
  have hseen := hs.seen ht.begun hstep
  obtain ⟨j, hj, hactive, hover⟩ := h.place
  refine ⟨hseen.alive h.alive ha, ?_⟩
  cases hseen with
  | subscribe _ hbus _ hact hcalls =>
      rw [hact, timesCalled_congr hcalls, hbus]
      exact ⟨j, EventBus.getElem?_addSubscriber hj, hactive, hover⟩
  | @destroy sub e' _ _ hbus _ hact hcalls =>
      rw [hact, timesCalled_congr hcalls, hbus]
      exact h.place_remove ht (fun heq => ha (heq ▸ rfl)) hcarry e'
  | elsewhere _ hbus _ hact hcalls =>
      rw [hact, timesCalled_congr hcalls, hbus]
      exact ⟨j, hj, hactive, hover⟩
  | @call f sub _ hf hcalling hsub hbus _ hact hcalls =>
      have hcount := hactive f hf
      rw [Firing.visited_of_testing hcalling] at hcount
      rw [(ht.active f hf).1] at hsub
      refine ⟨j, hbus ▸ hj, ?_, by rw [hact]; exact nofun⟩
      intro g hg
      obtain rfl := Option.some.inj (hact.symm.trans hg)
      rw [Firing.visited_of_calling rfl]
      exact timesCalled_visit (hs.nodup e) hj hsub hcount hcalls
  | @finish f _ hf hcalling hend hbus _ hact hcalls =>
      have hcount := hactive f hf
      rw [Firing.visited_of_testing hcalling] at hcount
      rw [(ht.active f hf).1, List.getElem?_eq_none_iff] at hend
      have hjlt : j < (s.bus.mEvents e).length := (List.getElem?_eq_some_iff.mp hj).1
      refine ⟨j, hbus ▸ hj, by rw [hact]; exact nofun, fun _ => ?_⟩
      rw [timesCalled_congr hcalls, hcount, if_pos (by omega)]
  | @leave f _ hf hcalling hbus _ hact hcalls =>
      refine ⟨j, hbus ▸ hj, ?_, by rw [hact]; exact nofun⟩
      intro g hg
      obtain rfl := Option.some.inj (hact.symm.trans hg)
      rw [timesCalled_congr hcalls, hactive f hf, Firing.visited_of_calling hcalling,
        Firing.visited_of_testing rfl]

/-- **Missed stays missed.**  A subscription that the cursor has passed is behind it for the rest of
this call, for nothing moves the cursor back; only its destruction ends that. -/
theorem Missed.step (h : s.Missed k e x) (hs : s.Sound) (ht : s.Told k e p)
    (hstep : Step s a t) (ha : a ≠ .destroy x) : t.Missed k e x := by
  have hseen := hs.seen ht.begun hstep
  have halive := hseen.alive h.alive ha
  cases hseen with
  | @subscribe sub _ _ _ hfresh hbus _ hact hcalls =>
      refine ⟨halive, by rw [timesCalled_congr hcalls, h.uncalled], ?_⟩
      rw [hact, hbus]
      intro f hf j hj
      -- the new entry is not `x`, which is alive
      have hne : x ≠ sub := by
        rintro rfl
        rw [h.alive] at hfresh
        cases hfresh
      exact h.behind f hf j (EventBus.getElem?_of_addSubscriber hj hne)
  | destroy _ hbus _ hact hcalls =>
      refine ⟨halive, by rw [timesCalled_congr hcalls, h.uncalled], ?_⟩
      rw [hact, hbus]
      intro f hf j hj
      obtain ⟨j', hle, hj'⟩ := EventBus.getElem?_of_removeSubscriber hj
      exact lt_of_le_of_lt hle (h.behind f hf j' hj')
  | elsewhere _ hbus _ hact hcalls =>
      refine ⟨halive, by rw [timesCalled_congr hcalls, h.uncalled], ?_⟩
      rw [hact, hbus]
      exact h.behind
  | @call f sub _ hf hcalling hsub hbus _ hact hcalls =>
      have hbehind := h.behind f hf
      rw [Firing.visited_of_testing hcalling] at hbehind
      rw [(ht.active f hf).1] at hsub
      refine ⟨halive, ?_, ?_⟩
      · have hne : sub ≠ x := by
          rintro rfl
          exact lt_irrefl _ (hbehind f.i hsub)
        rw [timesCalled_call hcalls, h.uncalled, if_neg hne]
      · rw [hbus]
        intro g hg j hj
        obtain rfl := Option.some.inj (hact.symm.trans hg)
        rw [Firing.visited_of_calling rfl]
        exact Nat.lt_succ_of_lt (hbehind j hj)
  | finish _ _ _ _ _ hact hcalls =>
      refine ⟨halive, by rw [timesCalled_congr hcalls, h.uncalled], ?_⟩
      rw [hact]
      exact nofun
  | @leave f _ hf hcalling hbus _ hact hcalls =>
      refine ⟨halive, by rw [timesCalled_congr hcalls, h.uncalled], ?_⟩
      rw [hbus]
      intro g hg j hj
      obtain rfl := Option.some.inj (hact.symm.trans hg)
      have hlt := h.behind f hf j hj
      rw [Firing.visited_of_calling hcalling] at hlt
      rwa [Firing.visited_of_testing rfl]

theorem sound_of_run {actions : List (BusAction eventCount Sub Param)}
    (hrun : Run Step start actions s) : s.Sound :=
  hrun.invariant (I := Sound) (fun _ _ _ hs hstep => (hs.step hstep).1) sound_start

/-- Runs that do not destroy `x` and do not carry it over the cursor. -/
theorem Reached.run {actions : List (BusAction eventCount Sub Param)}
    (h : s.Reached k e x) (hs : s.Sound) (ht : s.Told k e p)
    (hrun : Run (Guarded Step fun m a => ¬ Carries k x m a) s actions u)
    (hlive : .destroy x ∉ actions) : u.Reached k e x := by
  induction hrun with
  | nil => exact h
  | cons hstep _ ih =>
      obtain ⟨hcarry, hstep⟩ := hstep
      rw [List.mem_cons, not_or] at hlive
      exact ih (h.step hs ht hstep (Ne.symm hlive.1) hcarry) (hs.step hstep).1
        (ht.step hs hstep).1 hlive.2

theorem Missed.run {actions : List (BusAction eventCount Sub Param)}
    (h : s.Missed k e x) (hs : s.Sound) (ht : s.Told k e p) (hrun : Run Step s actions u)
    (hlive : .destroy x ∉ actions) : u.Missed k e x := by
  induction hrun with
  | nil => exact h
  | cons hstep _ ih =>
      rw [List.mem_cons, not_or] at hlive
      exact ih (h.step hs ht hstep (Ne.symm hlive.1)) (hs.step hstep).1
        (ht.step hs hstep).1 hlive.2

/-- The step that carries `x` over the cursor turns it from reached to missed. -/
theorem Reached.missed (h : s.Reached k e x) (hs : s.Sound) (ht : s.Told k e p)
    (hstep : Step s a t) (ha : a ≠ .destroy x) (hcarry : Carries k x s a) :
    t.Missed k e x := by
  have hseen := hs.seen ht.begun hstep
  have halive := hseen.alive h.alive ha
  obtain ⟨sub, f, i, rfl, hf, hi, hvisited, hlen, hlast⟩ := hcarry
  rw [(ht.active f hf).1] at hi hlen hlast
  obtain ⟨j, hj, hactive, -⟩ := h.place
  -- `x` is the last entry, beyond the cursor
  have hjlt : j < (s.bus.mEvents e).length := (List.getElem?_eq_some_iff.mp hj).1
  have hjlast : j = (s.bus.mEvents e).length - 1 := by
    rw [List.getLast?_eq_getElem?] at hlast
    exact (List.getElem?_inj hjlt (hs.nodup e)).mp (hj.trans hlast.symm)
  have huncalled : s.timesCalled k x = 0 := by
    rw [hactive f hf, if_neg (by omega)]
  have hsubAlive : s.subscription sub = some e := hs.listed e sub (List.mem_of_getElem? hi)
  -- it fills the gap
  have hnew : t.bus.mEvents e = BufferState.swapRemove (s.bus.mEvents e) i ∧
      t.active k = s.active k ∧ t.callsOf k = s.callsOf k := by
    cases hseen with
    | @destroy _ e' _ hsub hbus _ hact hcalls =>
        obtain rfl : e = e' := Option.some.inj (hsubAlive.symm.trans hsub)
        refine ⟨?_, hact, hcalls⟩
        rw [hbus]
        rw [EventBus.mEvents_removeSubscriber_self]
        obtain ⟨i', hi', hremove⟩ :=
          Subscriptions.exists_remove_eq (List.mem_of_getElem? hi)
        have hilt := (List.getElem?_eq_some_iff.mp hi).1
        obtain rfl : i = i' := (List.getElem?_inj hilt (hs.nodup e)).mp (hi.trans hi'.symm)
        exact hremove
    | elsewhere hother => exact absurd rfl (hother sub)
  obtain ⟨hlist, hact, hcalls⟩ := hnew
  refine ⟨halive, by rw [timesCalled_congr hcalls, huncalled], ?_⟩
  rw [hact, hlist]
  intro g hg j' hj'
  obtain rfl := Option.some.inj (hf.symm.trans hg)
  have hilt : i < (s.bus.mEvents e).length := (List.getElem?_eq_some_iff.mp hi).1
  have hfill := Subscriptions.getElem?_swapRemove hilt hj (by omega)
  rw [if_pos (by omega)] at hfill
  have hnodup : (BufferState.swapRemove (s.bus.mEvents e) i).Nodup :=
    hlist ▸ (hs.step hstep).1.nodup e
  have hfilllt := (List.getElem?_eq_some_iff.mp hfill).1
  rw [← (List.getElem?_inj hfilllt hnodup).mp (hfill.trans hj'.symm)]
  exact hvisited

/-! ### One call of `fireEvent` -/

/-- What the call of `fireEvent` does at once: it takes a number, and is over or in
front of its first test. -/
theorem Sound.fireEvent (hs : s.Sound) (hfire : Step s (.fireEvent e p) t) :
    t.Sound ∧ t.Told s.fired e p ∧ t.bus = s.bus ∧ t.subscription = s.subscription ∧
      t.callsOf s.fired = [] ∧ (t.active s.fired = none → s.bus.mEvents e = []) ∧
      ∀ f, t.active s.fired = some f → f.visited = 0 := by
  have hsound := (hs.step hfire).1
  have hnone : s.active s.fired = none := by
    rw [active, List.find?_eq_none]
    intro f hf
    simpa using (hs.number_lt f hf).ne
  have hcalls : s.callsOf s.fired = [] := by
    rw [callsOf, List.filter_eq_nil_iff]
    intro c hc
    simpa using (hs.call_lt c hc).ne
  cases took_of_step hfire with
  | unheard _ hnobody =>
      refine ⟨hsound, ⟨Nat.lt_succ_self _, ?_, ?_⟩, rfl, rfl, hcalls, fun _ => hnobody, ?_⟩
      · intro c hc
        exact absurd (hcalls ▸ hc : c ∈ []) List.not_mem_nil
      · intro f hf
        cases hnone.symm.trans hf
      · intro f hf
        cases hnone.symm.trans hf
  | fire _ _ =>
      have hactive := (active_cons { s with
        fired := s.fired + 1
        firings := ⟨s.fired, e, p, 0, false⟩ :: s.firings } _ s.firings rfl s.fired).trans
        (if_pos rfl)
      refine ⟨hsound, ⟨Nat.lt_succ_self _, ?_, ?_⟩, rfl, rfl, hcalls, ?_, ?_⟩
      · intro c hc
        exact absurd (hcalls ▸ hc : c ∈ []) List.not_mem_nil
      · intro f hf
        obtain rfl := Option.some.inj (hactive.symm.trans hf)
        exact ⟨rfl, rfl, congrArg List.length hcalls⟩
      · intro hover
        cases hactive.symm.trans hover
      · intro f hf
        obtain rfl := Option.some.inj (hactive.symm.trans hf)
        rfl

/-- The firing `k` is about to test its loop condition.  Here the cursor is at an entry that was not
visited yet, or at the end of the list. -/
def Testing (k : ℕ) (s : BusSession eventCount Sub Param) : Prop :=
  ∃ f rest, s.firings = f :: rest ∧ f.number = k ∧ f.calling = false

/-- A firing that tests its condition calls or is over. -/
theorem Sound.progress (hs : s.Sound) (htest : Testing k s) (hstep : Step s a t) :
    t.active k = none ∨ (t.callsOf k).length = (s.callsOf k).length + 1 := by
  obtain ⟨f, rest, hf, rfl, hcalling⟩ := htest
  have huser : s.userCode = false := by
    rw [userCode, hf]
    exact hcalling
  cases took_of_step hstep with
  | subscribe hrunning _ => cases huser.symm.trans hrunning
  | destroy hrunning _ => cases huser.symm.trans hrunning
  | unheard hrunning _ => cases huser.symm.trans hrunning
  | fire hrunning _ => cases huser.symm.trans hrunning
  | @call g _ _ hg _ _ =>
      obtain ⟨rfl, rfl⟩ := List.cons.inj (hf.symm.trans hg)
      right
      simp [callsOf]
  | @finish g _ hg _ _ =>
      obtain ⟨rfl, rfl⟩ := List.cons.inj (hf.symm.trans hg)
      exact Or.inl (hs.find?_rest hf)
  | @leave g _ hg hcalled =>
      obtain ⟨rfl, rfl⟩ := List.cons.inj (hf.symm.trans hg)
      cases hcalling.symm.trans hcalled

theorem Seen.calls_le (h : Seen k s a t) : (s.callsOf k).length ≤ (t.callsOf k).length := by
  cases h with
  | subscribe _ _ _ _ hcalls => rw [hcalls]
  | destroy _ _ _ _ hcalls => rw [hcalls]
  | elsewhere _ _ _ _ hcalls => rw [hcalls]
  | call _ _ _ _ _ _ hcalls =>
      rw [hcalls, List.length_append]
      exact Nat.le_add_right _ _
  | finish _ _ _ _ _ _ hcalls => rw [hcalls]
  | leave _ _ _ _ _ hcalls => rw [hcalls]

/-- **Termination.**  In every execution in which finitely many subscriptions to
`e` are created and every callback the firing calls returns, the firing ends. -/
def Terminates (s : BusSession eventCount Sub Param) (k : ℕ) (e : Fin eventCount) : Prop :=
  ∀ (σ : ℕ → BusSession eventCount Sub Param) (l : ℕ → BusAction eventCount Sub Param),
    σ 0 = s → (∀ n, Step (σ n) (l n) (σ (n + 1))) →
    (∃ bound, ∀ n, created e ((List.range n).map l) ≤ bound) →
    (∀ n, ∃ m, n ≤ m ∧ (Testing k (σ m) ∨ (σ m).active k = none)) →
    ∃ n, (σ n).active k = none

theorem Told.terminates (h : s.Told k e p) (hs : s.Sound) : Terminates s k e := by
  intro σ l hzero hstep hcreated hreturn
  obtain ⟨bound, hbound⟩ := hcreated
  by_contra hnever
  push Not at hnever
  subst hzero
  have hat : ∀ n, (σ n).Sound ∧ (σ n).Told k e p ∧ ((σ n).callsOf k).length ≤
      max ((σ 0).callsOf k).length (((σ 0).bus.mEvents e).length + bound) := by
    intro n
    obtain ⟨hsound, htold, hle⟩ := h.run hs (Run.of_execution hstep n)
    have := hbound n
    exact ⟨hsound, htold, by omega⟩
  have hmono : Monotone fun n => ((σ n).callsOf k).length :=
    monotone_nat_of_le_succ fun n => ((hat n).1.seen (hat n).2.1.begun (hstep n)).calls_le
  -- every test leads to one more call
  have hmany : ∀ count, ∃ n, count ≤ ((σ n).callsOf k).length := by
    intro count
    induction count with
    | zero => exact ⟨0, Nat.zero_le _⟩
    | succ count ih =>
        obtain ⟨n, hn⟩ := ih
        obtain ⟨m, hnm, htest⟩ := hreturn n
        have htest := htest.resolve_right (hnever m)
        have hmore := ((hat m).1.progress htest (hstep m)).resolve_left (hnever (m + 1))
        have hle : ((σ n).callsOf k).length ≤ ((σ m).callsOf k).length := hmono hnm
        exact ⟨m + 1, by omega⟩
  obtain ⟨n, hn⟩ := hmany
    (max ((σ 0).callsOf k).length (((σ 0).bus.mEvents e).length + bound) + 1)
  have := (hat n).2.2
  omega

/-- **What a call `fireEvent(e, p)` in state `s` is meant to do**, for the run
`actions` that follows it and ends in `u`: it makes no more calls than there were
subscriptions and were created; it calls only subscriptions that exist and belong to
`e`, with `p`; once it is over it has called every subscription to `e` that was alive
all the time exactly once. -/
structure Delivered (s : BusSession eventCount Sub Param) (e : Fin eventCount) (p : Param)
    (actions : List (BusAction eventCount Sub Param)) (u : BusSession eventCount Sub Param) :
    Prop where
  bounded : (u.callsOf s.fired).length ≤ (s.bus.mEvents e).length + created e actions
  live : ∀ c ∈ u.callsOf s.fired, c.target = some e ∧ c.param = p
  once : u.active s.fired = none → ∀ x, s.subscription x = some e →
    .destroy x ∉ actions → u.timesCalled s.fired x = 1

/-- **Whom `fireEvent` reaches.**  A call of `fireEvent` always terminates and only
calls living subscriptions to its event; it does what it is meant to do if and only
if every subscription alive from its start to its end found memory for its entry and
is never carried over the cursor by a removal. -/
theorem fireEvent_delivers_iff {before actions : List (BusAction eventCount Sub Param)}
    (hbefore : Run Step start before s) (hfire : Step s (.fireEvent e p) t)
    (hrun : Run Step t actions u) :
    Terminates t s.fired e ∧
      (Delivered s e p actions u ↔
        (u.active s.fired = none → ∀ x, s.subscription x = some e → .destroy x ∉ actions →
          x ∈ s.bus.mEvents e ∧
            Run (Guarded Step fun m a => ¬ Carries s.fired x m a) t actions u)) := by
  have hs := sound_of_run hbefore
  obtain ⟨ht, htold, hbus, hsub, hcalls, hempty, hvisited⟩ := hs.fireEvent hfire
  obtain ⟨-, htoldu, hbounded⟩ := htold.run ht hrun
  rw [hcalls, List.length_nil, Nat.max_eq_right (Nat.zero_le _), hbus] at hbounded
  have huncalled : ∀ x, t.timesCalled s.fired x = 0 := fun x => by
    rw [timesCalled, hcalls]
    rfl
  have hreached : ∀ x ∈ s.bus.mEvents e, t.Reached s.fired e x := by
    intro x hx
    obtain ⟨j, hj⟩ := List.getElem?_of_mem hx
    refine ⟨by rw [hsub]; exact hs.listed e x hx, j, hbus ▸ hj, ?_, ?_⟩
    · intro f hf
      rw [huncalled, hvisited f hf, if_neg (Nat.not_lt_zero j)]
    · intro hover
      rw [hempty hover] at hx
      exact absurd hx List.not_mem_nil
  refine ⟨htold.terminates ht, ?_, ?_⟩
  · intro h hover x hx hlive
    have honce := h.once hover x hx hlive
    have hmissed : ∀ {m : BusSession eventCount Sub Param} {after}, m.Missed s.fired e x →
        m.Sound → m.Told s.fired e p → Run Step m after u → .destroy x ∉ after → False := by
      intro m after hm hms hmt hafter hnot
      have := (hm.run hms hmt hafter hnot).uncalled
      omega
    have hmem : x ∈ s.bus.mEvents e := by
      by_contra hmem
      refine hmissed ⟨by rw [hsub, hx], huncalled x, ?_⟩ ht htold hrun hlive
      intro f _ j hj
      exact absurd (hbus ▸ List.mem_of_getElem? hj) hmem
    refine ⟨hmem, ?_⟩
    rcases hrun.guarded_or_exists (fun m a => ¬ Carries s.fired x m a) with hall | hex
    · exact hall
    · obtain ⟨front, a, rest, m, m', rfl, hfront, hbad, hone, hafter⟩ := hex
      rw [List.mem_append, List.mem_cons, not_or, not_or] at hlive
      obtain ⟨hms, hmt, -⟩ := htold.run ht hfront.of_guarded
      have hmr := (hreached x hmem).run ht htold hfront hlive.1
      have hm' := hmr.missed hms hmt hone (Ne.symm hlive.2.1) (not_not.mp hbad)
      exact (hmissed hm' (hms.step hone).1 (hmt.step hms hone).1 hafter hlive.2.2).elim
  · intro h
    refine ⟨hbounded, htoldu.calls, fun hover x hx hlive => ?_⟩
    obtain ⟨hmem, hall⟩ := h hover x hx hlive
    obtain ⟨j, -, -, honce⟩ := ((hreached x hmem).run ht htold hall hlive).place
    exact honce hover

/-- Three subscriptions; the callback of the first destroys the second, whose gap is
beyond the cursor.  The first and the third are called once each. -/
theorem fireEvent_delivers_two_of_three :
    ∃ s t u : BusSession 1 ℕ Unit,
      Run Step start [.subscribe 0 0 true, .subscribe 1 0 true, .subscribe 2 0 true] s ∧
      Step s (.fireEvent 0 ()) t ∧
      Run Step t [.turn, .destroy 1, .leave, .turn, .leave, .turn] u ∧
      u.active s.fired = none ∧ Terminates t s.fired 0 ∧
      Delivered s 0 () [.turn, .destroy 1, .leave, .turn, .leave, .turn] u := by
  obtain ⟨s, t, u, hs, ht, hu, hover, hlisted⟩ : ∃ s t u : BusSession 1 ℕ Unit,
      Run Step start [.subscribe 0 0 true, .subscribe 1 0 true, .subscribe 2 0 true] s ∧
      Step s (.fireEvent 0 ()) t ∧
      (∀ x, Run (Guarded Step fun m a => ¬ Carries s.fired x m a) t
        [.turn, .destroy 1, .leave, .turn, .leave, .turn] u) ∧
      u.active s.fired = none ∧ ∀ x, s.subscription x = some 0 → x ∈ s.bus.mEvents 0 := by
    refine ⟨_, _, _, Run.of_foldlM rfl, rfl, fun x =>
      Run.cons ⟨not_carries nofun, rfl⟩ (Run.cons ⟨not_carries_beyond rfl (by decide), rfl⟩
        (Run.cons ⟨not_carries nofun, rfl⟩ (Run.cons ⟨not_carries nofun, rfl⟩
        (Run.cons ⟨not_carries nofun, rfl⟩ (Run.cons ⟨not_carries nofun, rfl⟩
        (Run.nil _)))))), rfl, fun x hx => ?_⟩
    by_contra hmem
    have hne : x ≠ 0 ∧ x ≠ 1 ∧ x ≠ 2 := by simpa [EventBus.addSubscriber, start] using hmem
    have hnone : Function.update (Function.update (Function.update (fun _ => none) 0 (some 0))
        1 (some 0)) 2 (some 0) x = some (0 : Fin 1) := hx
    rw [Function.update_of_ne hne.2.2, Function.update_of_ne hne.2.1,
      Function.update_of_ne hne.1] at hnone
    cases hnone
  have hrun := (hu 0).of_guarded
  obtain ⟨hterm, hiff⟩ := fireEvent_delivers_iff hs ht hrun
  exact ⟨s, t, u, hs, ht, hrun, hover, hterm,
    hiff.mpr fun _ x hx _ => ⟨hlisted x hx, hu x⟩⟩

/-- Two subscriptions; the callback of the first destroys its own subscription.  The
second moves to the place the loop has passed and is never called. -/
theorem not_delivered_after_self_destruction :
    ∃ s t u : BusSession 1 ℕ Unit,
      Run Step start [.subscribe 0 0 true, .subscribe 1 0 true] s ∧
      Step s (.fireEvent 0 ()) t ∧ Run Step t [.turn, .destroy 0, .leave, .turn] u ∧
      u.active s.fired = none ∧ s.subscription 1 = some 0 ∧ u.subscription 1 = some 0 ∧
      u.timesCalled s.fired 1 = 0 ∧
      ¬ Delivered s 0 () [.turn, .destroy 0, .leave, .turn] u := by
  refine ⟨_, _, _, Run.of_foldlM rfl, rfl, Run.of_foldlM rfl, rfl, rfl, rfl, rfl, ?_⟩
  intro h
  have honce := h.once rfl 1 rfl (by simp)
  exact absurd honce (by decide)

end BusSession

end Tklb
