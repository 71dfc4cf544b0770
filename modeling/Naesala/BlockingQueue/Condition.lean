import Naesala.BlockingQueue.Threads
import Naesala.Library.Machine
import Naesala.Library.Population

/-!
# The condition queues, step by step

`ConditionBoundedBlockingQueue` and `CplusConditionBoundedBlockingQueue` under any number of
threads. Locking, testing the predicate, the atomic release-and-wait, the access to `_queue`,
unlocking and the notification are one step each of the machine `conditionQueue`.

A blocked thread wakes up by a notification or spuriously. It then locks the mutex again, in
competition with every other thread, and tests the predicate again. A notification wakes one
blocked thread, whichever, and none only if there is none.

The first class, and the second one over each of its `Type`s, differ in what becomes of `_mutex`
when the copy of a `Task` throws: `pthread_mutex_t` stays locked, a `MutexGuard` unlocks.
-/

namespace Naesala

open BlockingQueue

namespace ConditionQueue

/-- Where a thread is in `put` or `take`; `woken` says that it has blocked in this call. -/
inductive Pc (δ : Type) where
  | idle
  | lock (c : Call δ) (woken : Bool)
  /-- With the mutex, before the test of the predicate. -/
  | check (c : Call δ) (woken : Bool)
  /-- With the mutex, before the release-and-wait. -/
  | wait (c : Call δ)
  /-- Blocked on `_not_full` or `_not_empty`. -/
  | blocked (c : Call δ)
  /-- With the mutex, before the assertion and the push or the pop. -/
  | act (c : Call δ) (woken : Bool)
  | unlock (done : Done δ)
  /-- Before the notification of the other side. -/
  | notify (done : Done δ)

/-- The call is one of `d` that is blocked on its condition variable. -/
def Pc.blockedOn (d : Side) : Pc δ → Bool
  | .blocked c => c.side = d
  | _ => false

abbrev State {δ : Type} (B : CircularBuffer δ) (τ : Type) := Threads B (Pc δ) τ

inductive Event (τ : Type) where
  /-- The notification of thread `t`, and the thread that it wakes. -/
  | notify (t : τ) (target : Option τ)
  /-- Thread `t` wakes up spuriously. -/
  | spurious (t : τ)

abbrev Action (δ τ : Type) := QueueAction (Event τ) δ τ

variable {δ τ : Type} {B : CircularBuffer δ} [DecidableEq τ]

/-- The next step of thread `t`, other than its notification. -/
def State.advance (s : State B τ) (t : τ) : Option (State B τ) :=
  match s.pc t with
  | .idle | .blocked _ | .notify _ => none
  | .lock c woken =>
    if s.holder = none then some ({ s with holder := some t }.goto t (.check c woken)) else none
  | .check c woken =>
    if s.contents.ready c.side then some (s.goto t (.act c woken)) else some (s.goto t (.wait c))
  | .wait c => some ({ s with holder := none }.goto t (.blocked c))
  | .act c _ => (s.contents.perform c).map fun (contents, done) =>
      { s with contents := contents }.goto t (.unlock done)
  | .unlock done => some ({ s with holder := none }.goto t (.notify done))

/-- Thread `t`, if it is blocked on the condition variable of `d`, goes on to lock the mutex. -/
def State.wake (s : State B τ) (d : Side) (t : τ) : Option (State B τ) :=
  match s.pc t with
  | .blocked c => if c.side = d then some (s.goto t (.lock c true)) else none
  | _ => none

/-- `notify_one` or `pthread_cond_signal` on the condition variable of `d`. -/
def State.notifyOne [Fintype τ] (s : State B τ) (d : Side) : Option τ → Option (State B τ)
  | none => if population (Pc.blockedOn d) s.pc = 0 then some s else none
  | some u => s.wake d u

/-- `guarded`: an exception unlocks the mutex on its way out. -/
def State.step [Fintype τ] (guarded : Bool) (s : State B τ) : Action δ τ → Option (State B τ)
  | .call t c =>
    match s.pc t with
    | .idle => some (s.goto t (.lock c false))
    | _ => none
  | .step t => s.advance t
  | .event (.notify t target) =>
    match s.pc t with
    | .notify done => State.notifyOne (s.goto t .idle) done.side.other target
    | _ => none
  | .event (.spurious t) =>
    match s.pc t with
    | .blocked c => s.wake c.side t
    | _ => none
  | .throw t =>
    match s.pc t with
    | .act _ _ => some ({ s with holder := if guarded then none else s.holder }.goto t .idle)
    | _ => none

end ConditionQueue

open ConditionQueue

variable {δ : Type}

/-- The machine of one queue. -/
def conditionQueue (B : CircularBuffer δ) (τ : Type) [DecidableEq τ] [Fintype τ] (guarded : Bool)
    (maxSize : ℕ) : Machine (State B τ) (Action δ τ) where
  init := ⟨none, Contents.construct B maxSize, fun _ => .idle⟩
  step := State.step guarded

/-- `ConditionBoundedBlockingQueue`. -/
def conditionBoundedBlockingQueue (B : CircularBuffer δ) (τ : Type) [DecidableEq τ] [Fintype τ]
    (maxSize : ℕ) : Machine (State B τ) (Action δ τ) :=
  conditionQueue B τ false maxSize

/-- `CplusConditionBoundedBlockingQueue`, over `STDTypes` or `BoostTypes`. -/
def cplusConditionBoundedBlockingQueue (B : CircularBuffer δ) (τ : Type) [DecidableEq τ]
    [Fintype τ] (maxSize : ℕ) : Machine (State B τ) (Action δ τ) :=
  conditionQueue B τ true maxSize

end Naesala
