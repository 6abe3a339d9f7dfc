import Tklb.Foundation.Runs
import Tklb.HeapBuffer.Contents
import Mathlib.Logic.Function.Basic

/-!
# `EventBus`

For every event id the bus keeps the list of the subscriptions to it.  A
`Subscription` enters the list in its constructor and leaves it in its
destructor; `fireEvent` walks the list by index and calls the callback of each
entry.  With `MutexDummy` nothing keeps a callback from destroying subscriptions,
creating new ones or firing events itself, so a call of `fireEvent` is not one
step: several calls may be under way, each inside a callback of the one before.

The model is that machine.  `BusSession.firings` is the stack of the calls under
way, innermost first, each with its loop counter; the code outside the loop (the
program, or the callback of the innermost call) may subscribe, destroy and fire,
in any order and as often as it likes.  A callback that returns is the step
`leave`, a turn of the loop is the step `turn`.

The lists are `HeapBuffer`s of pointers.  A buffer of values is a list
(`BufferState.refines_list`), so the model keeps the list; `remove_eq_listExec`
says that `Subscriptions.remove` is what that list does on `remove(const T&)`.

### How the model is laid out

* `EventBus` is the class: for each event a list of addresses.  `addSubscriber` ignores whether
  there was memory for the entry, as the source does, so a subscription may exist without being
  listed.
* `BusSession` adds what a program has: which subscriptions exist, under which event, and the
  calls of `fireEvent` that are under way.
* `BusAction` are the things that can happen next, and `exec` performs one, or says that it
  cannot happen now.  A callback is whatever the program does between two turns of a loop, so no
  order of actions is excluded.
* Every call of a callback is recorded with the number of the firing that made it (`callsOf`),
  because what a firing reaches is a statement about these records.

The result about the bus is in `EventBus.Firing`; it is about every run of this machine and
every firing in it.
-/

namespace Tklb

open Foundation

/-! ### The lists of subscribers -/

/-- `HeapBuffer::remove(const T&)`: the first entry that equals `sub` is removed,
and the last entry fills the gap. -/
def Subscriptions.remove {Sub : Type} [DecidableEq Sub] (l : List Sub) (sub : Sub) :
    List Sub :=
  match l.findIdx? (· == sub) with
  | some index => BufferState.swapRemove l index
  | none => l

/-- The lists are those of `HeapBuffer`: removing a subscriber is the meaning of
`remove(const T&)` for the elements of a buffer. -/
theorem Subscriptions.remove_eq_listExec {Sub : Type} [DecidableEq Sub] [Inhabited Sub]
    (l : List Sub) (sub : Sub) :
    ∃ ok, BufferState.listExec l (.removeValue sub) =
      some (.flag ok, Subscriptions.remove l sub) := by
  simp only [BufferState.listExec, Subscriptions.remove]
  cases l.findIdx? (· == sub) with
  | none => exact ⟨false, rfl⟩
  | some index => exact ⟨true, rfl⟩

/-- `EventBus<EVENT_COUNT, EventId, MutexDummy>`; a subscription is known by its
address. -/
structure EventBus (eventCount : ℕ) (Sub : Type) where
  mEvents : Fin eventCount → List Sub

namespace EventBus

variable {eventCount : ℕ} {Sub : Type}

/-- `addSubscriber`; `stored` tells whether `push` found memory for the entry.
Its result is not looked at. -/
def addSubscriber (bus : EventBus eventCount Sub) (sub : Sub) (eventId : Fin eventCount)
    (stored : Bool) : EventBus eventCount Sub :=
  if stored then
    ⟨Function.update bus.mEvents eventId (bus.mEvents eventId ++ [sub])⟩
  else bus

/-- `removeSubscriber` -/
def removeSubscriber [DecidableEq Sub] (bus : EventBus eventCount Sub) (sub : Sub)
    (eventId : Fin eventCount) : EventBus eventCount Sub :=
  ⟨Function.update bus.mEvents eventId (Subscriptions.remove (bus.mEvents eventId) sub)⟩

end EventBus

/-! ### Calls of `fireEvent` under way -/

/-- A call of `fireEvent`.  A callback may fire events itself, so there may be several at a time, of
the same event or of different ones; each has its own cursor `i`. -/
structure Firing (eventCount : ℕ) (Param : Type) where
  /-- The calls of `fireEvent` are numbered in the order in which they begin. -/
  number : ℕ
  eventId : Fin eventCount
  param : Param
  /-- The loop counter. -/
  i : ℕ
  /-- Whether the callback of entry `i` is running; otherwise the loop is about to
  test `i < mEvents[eventId].size()`. -/
  calling : Bool

/-- The number of entries the loop is done with or busy with. -/
def Firing.visited {eventCount : ℕ} {Param : Type} (f : Firing eventCount Param) : ℕ :=
  if f.calling then f.i + 1 else f.i

theorem Firing.visited_of_testing {eventCount : ℕ} {Param : Type}
    {f : Firing eventCount Param} (h : f.calling = false) : f.visited = f.i := by
  rw [visited, h, if_neg Bool.false_ne_true]

theorem Firing.visited_of_calling {eventCount : ℕ} {Param : Type}
    {f : Firing eventCount Param} (h : f.calling = true) : f.visited = f.i + 1 := by
  rw [visited, h, if_pos rfl]

/-- One call of a callback.  A call is recorded with whom it reaches, so that a call of a
subscription that is gone can be told from one that is not. -/
structure CallbackCall (eventCount : ℕ) (Sub Param : Type) where
  /-- The number of the firing that makes the call. -/
  firing : ℕ
  sub : Sub
  param : Param
  /-- The event id of the subscription at the time of the call: `none` if there is
  no subscription at that address any more. -/
  target : Option (Fin eventCount)

/-- A bus in use: the subscriptions that exist with their `mEventId`, the calls of
`fireEvent` under way (innermost first), how many calls of `fireEvent` there were,
and all calls of callbacks so far. -/
structure BusSession (eventCount : ℕ) (Sub Param : Type) where
  bus : EventBus eventCount Sub
  subscription : Sub → Option (Fin eventCount)
  firings : List (Firing eventCount Param)
  fired : ℕ
  calls : List (CallbackCall eventCount Sub Param)

/-- What can happen next. -/
inductive BusAction (eventCount : ℕ) (Sub Param : Type)
  /-- The constructor of a `Subscription`. -/
  | subscribe (sub : Sub) (eventId : Fin eventCount) (stored : Bool)
  /-- The destructor of a `Subscription`. -/
  | destroy (sub : Sub)
  /-- `fireEvent` is called. -/
  | fireEvent (eventId : Fin eventCount) (param : Param)
  /-- The innermost loop tests its condition, and calls or ends. -/
  | turn
  /-- The running callback returns to its loop, which increments `i`. -/
  | leave

namespace BusSession

variable {eventCount : ℕ} {Sub Param : Type}

/-- A new bus. -/
def start : BusSession eventCount Sub Param :=
  ⟨⟨fun _ => []⟩, fun _ => none, [], 0, []⟩

/-- Whether code outside of the loop of `fireEvent` is running. -/
def userCode (s : BusSession eventCount Sub Param) : Bool :=
  match s.firings with
  | [] => true
  | f :: _ => f.calling

/-- One step. -/
def exec [DecidableEq Sub] (s : BusSession eventCount Sub Param) :
    BusAction eventCount Sub Param → Option (BusSession eventCount Sub Param)
  | .subscribe sub eventId stored =>
      -- the object is built at an address where no subscription lives
      if s.userCode ∧ s.subscription sub = none then
        some { s with
          bus := s.bus.addSubscriber sub eventId stored
          subscription := Function.update s.subscription sub (some eventId) }
      else none
  | .destroy sub =>
      if s.userCode then
        (s.subscription sub).map fun eventId =>
          { s with
            bus := s.bus.removeSubscriber sub eventId
            subscription := Function.update s.subscription sub none }
      else none
  | .fireEvent eventId param =>
      if s.userCode then
        if (s.bus.mEvents eventId).length = 0 then
          -- "don't even wait for lock"
          some { s with fired := s.fired + 1 }
        else
          some { s with
            fired := s.fired + 1
            firings := ⟨s.fired, eventId, param, 0, false⟩ :: s.firings }
      else none
  | .turn =>
      match s.firings with
      | [] => none
      | f :: rest =>
          if f.calling then none
          else
            match (s.bus.mEvents f.eventId)[f.i]? with
            | some sub =>
                some { s with
                  firings := { f with calling := true } :: rest
                  calls := s.calls ++ [⟨f.number, sub, f.param, s.subscription sub⟩] }
            | none => some { s with firings := rest }
  | .leave =>
      match s.firings with
      | [] => none
      | f :: rest =>
          if f.calling then
            some { s with firings := { f with i := f.i + 1, calling := false } :: rest }
          else none

/-- The call of `fireEvent` with the given number, while it is under way. -/
def active (s : BusSession eventCount Sub Param) (number : ℕ) :
    Option (Firing eventCount Param) :=
  s.firings.find? (·.number == number)

/-- The calls of callbacks made by the firing with the given number. -/
def callsOf (s : BusSession eventCount Sub Param) (number : ℕ) :
    List (CallbackCall eventCount Sub Param) :=
  s.calls.filter (·.firing == number)

end BusSession

end Tklb
