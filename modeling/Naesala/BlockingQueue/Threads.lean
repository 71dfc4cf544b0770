import Naesala.BlockingQueue.Buffer
import Naesala.Library.Mutex

/-!
# The threads of a bounded blocking queue

The queues differ in what their calls wait on. That there is one mutex, that the items are behind
it, and that each thread is at one place of its call is the same for all of them (`Threads`), and so
are the actions, but for the events `ε` that only one kind of queue has (`QueueAction`).

`Threads.without` leaves out the call of a thread: what the others see is the same, and they can
have the mutex where the call had it. What the other threads do commutes with that.
-/

namespace Naesala

namespace BlockingQueue

/-- What the places of a call have in common in all queues. -/
class Place (π : Type) where
  /-- Between calls. -/
  idle : π
  /-- The thread has locked the mutex. -/
  inside : π → Bool

/-- The mutex, the items, and where each thread is. -/
structure Threads {δ : Type} (B : CircularBuffer δ) (π τ : Type) where
  /-- The thread that has locked `_mutex`. -/
  holder : Option τ
  contents : Contents B
  pc : τ → π

/-- What can happen in a queue. -/
inductive QueueAction (ε δ τ : Type) where
  | call (t : τ) (c : Call δ)
  /-- The next step of a call. -/
  | step (t : τ)
  /-- The copy of the `Task` throws, and the exception leaves the call. -/
  | throw (t : τ)
  | event (e : ε)

/-- No copy throws. -/
def QueueAction.noThrow {ε δ τ : Type} : QueueAction ε δ τ → Bool
  | .throw _ => false
  | _ => true

variable {δ π τ : Type} {B : CircularBuffer δ}

/-- All calls of the scripts have been made, and have returned. -/
def Returned [Place π] (script : τ → List (Call δ)) (pc : τ → π) : Prop :=
  ∀ t, script t = [] ∧ pc t = Place.idle

namespace Threads

variable [DecidableEq τ] {t u : τ}

/-- Thread `t` is now at `pc`. -/
def goto (s : Threads B π τ) (t : τ) (pc : π) : Threads B π τ :=
  { s with pc := Function.update s.pc t pc }

@[simp] theorem holder_goto (s : Threads B π τ) (t : τ) (pc : π) :
    (s.goto t pc).holder = s.holder := rfl

@[simp] theorem contents_goto (s : Threads B π τ) (t : τ) (pc : π) :
    (s.goto t pc).contents = s.contents := rfl

@[simp] theorem pc_goto (s : Threads B π τ) (t : τ) (pc : π) :
    (s.goto t pc).pc = Function.update s.pc t pc := rfl

theorem pc_goto_of_ne (s : Threads B π τ) (hu : u ≠ t) (pc : π) : (s.goto t pc).pc u = s.pc u :=
  Function.update_of_ne hu _ _

/-! ## Without one call -/

variable [Place π]

/-- The queue if thread `t` did not have the call that it has. -/
def without (s : Threads B π τ) (t : τ) : Threads B π τ where
  holder := if Place.inside (s.pc t) then none else s.holder
  contents := s.contents
  pc := Function.update s.pc t Place.idle

theorem pc_without (s : Threads B π τ) (hu : u ≠ t) : (s.without t).pc u = s.pc u :=
  Function.update_of_ne hu _ _

/-- Another thread moves. -/
theorem without_goto (s : Threads B π τ) (hu : u ≠ t) (pc : π) :
    (s.goto u pc).without t = (s.without t).goto u pc := by
  simp only [without, pc_goto_of_ne s hu.symm]
  simp only [goto, Function.update_comm hu]

/-- Another thread locks, or unlocks, the mutex that thread `t` does not have. -/
theorem without_holder (s : Threads B π τ) (hu : u ≠ t) (ht : Place.inside (s.pc t) = false)
    (holder : Option τ) (pc : π) :
    ({ s with holder := holder }.goto u pc).without t =
      { s.without t with holder := holder }.goto u pc := by
  rw [without_goto _ hu]
  simp [without, ht]

theorem without_self (s : Threads B π τ) {pc : π}
    (ht : Place.inside (s.pc t) = Place.inside pc) : (s.goto t pc).without t = s.without t := by
  simp [without, goto, ht]

theorem without_begun (s : Threads B π τ) (ht : s.pc t = Place.idle) {pc : π}
    (hout : Place.inside pc = false) : (s.goto t pc).without t = s := by
  have hidle : Function.update s.pc t Place.idle = s.pc := by rw [← ht, Function.update_eq_self]
  simp [without, goto, hout, hidle]

end Threads

end BlockingQueue

end Naesala
