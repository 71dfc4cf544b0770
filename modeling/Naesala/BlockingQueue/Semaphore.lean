import Mathlib.Algebra.Group.Nat.Defs
import Naesala.BlockingQueue.Threads
import Naesala.Library.Machine

/-!
# The semaphore queues, step by step

`SemaphoreBoundedBlockingQueue` and `CplusSemaphoreBoundedBlockingQueue` under any number of
threads. Waiting on a semaphore, locking, the access to `_queue`, unlocking and posting are one
step each of the machine `semaphoreQueue`. The two classes differ in their semaphore and in what
becomes of `_mutex` when the copy of a `Task` throws.

* `SemaphoreBoundedBlockingQueue` uses `sem_t` and drops every result: a `sem_wait` that a
  signal interrupts returns like one that has decremented, and a `sem_init` that refuses its
  value leaves the semaphore unusable. Its mutex stays locked when a copy throws.
* `CplusSemaphoreBoundedBlockingQueue` uses `boost::interprocess::interprocess_semaphore`, and a
  `boost::unique_lock`, which unlocks when an exception leaves the call.

The assertions are in `Asserts`; the program goes on when one fails, as it does without them.
-/

namespace Naesala

open BlockingQueue

/-- A counting semaphore, with what its documentation promises for counts up to `max`. -/
structure Semaphore where
  max : ℕ
  /-- The count of a semaphore that is made with this value, where that succeeds. -/
  make : ℕ → Option ℕ
  /-- The count after `post`. -/
  post : ℕ → ℕ
  /-- Whether a signal can end `wait` before it has decremented. -/
  interruptible : Bool
  make_of_le (n : ℕ) : n ≤ max → make n = some n
  le_of_make (n v : ℕ) : make n = some v → v ≤ n ∧ v ≤ max
  post_of_lt (v : ℕ) : v < max → post v = v + 1

/-- `sem_t`, whose values are `unsigned` and at most `semValueMax`. -/
def posixSemaphore (semValueMax : ℕ) : Semaphore where
  max := min semValueMax (2 ^ 32 - 1)
  make n := if n % 2 ^ 32 ≤ semValueMax then some (n % 2 ^ 32) else none
  post v := if v < semValueMax then v + 1 else v
  interruptible := true
  make_of_le n h := by
    have hn : n % 2 ^ 32 = n := Nat.mod_eq_of_lt (by omega)
    rw [hn]
    exact if_pos (Nat.le_trans h (Nat.min_le_left _ _))
  le_of_make n v h := by
    split at h
    · cases h
      exact ⟨Nat.mod_le _ _, by omega⟩
    · cases h
  post_of_lt v h := if_pos (Nat.lt_of_lt_of_le h (Nat.min_le_left _ _))

/-- A semaphore that counts in an `unsigned`, and whose `wait` is not interrupted. -/
def unsignedSemaphore : Semaphore where
  max := 2 ^ 32 - 1
  make n := some (n % 2 ^ 32)
  post v := (v + 1) % 2 ^ 32
  interruptible := false
  make_of_le n h := by rw [Nat.mod_eq_of_lt (by omega)]
  le_of_make n v h := by
    cases h
    exact ⟨Nat.mod_le _ _, by omega⟩
  post_of_lt v h := Nat.mod_eq_of_lt (by omega)

namespace SemaphoreQueue

/-- Where a thread is in `put` or `take`. -/
inductive Pc (δ : Type) where
  | idle
  /-- Before, or blocked in, the `wait` on `_not_full` or `_not_empty`. -/
  | wait (c : Call δ)
  | lock (c : Call δ)
  /-- With the mutex, before the assertion and the push or the pop. -/
  | act (c : Call δ)
  | unlock (done : Done δ)
  /-- Before the `post` of the other semaphore. -/
  | post (done : Done δ)

structure State {δ : Type} (B : CircularBuffer δ) (τ : Type) extends Threads B (Pc δ) τ where
  notFull : ℕ
  notEmpty : ℕ

inductive Event (τ : Type) where
  /-- A signal ends the `wait` of thread `t`. -/
  | interrupt (t : τ)

abbrev Action (δ τ : Type) := QueueAction (Event τ) δ τ

variable {δ τ : Type} {B : CircularBuffer δ}

/-- The members of a queue whose `_not_full` is made with the count `notFull`. -/
def State.fresh (B : CircularBuffer δ) (τ : Type) (maxSize notFull : ℕ) : State B τ where
  notFull := notFull
  notEmpty := 0
  holder := none
  contents := Contents.construct B maxSize
  pc := fun _ => .idle

/-- The constructor; `none` if `_not_full` cannot be made. -/
def construct (B : CircularBuffer δ) (τ : Type) (S : Semaphore) (maxSize : ℕ) :
    Option (State B τ) :=
  (S.make maxSize).map (State.fresh B τ maxSize)

/-- The count of the semaphore that a `put` or a `take` waits on. -/
def State.sem (s : State B τ) : Side → ℕ
  | .put => s.notFull
  | .take => s.notEmpty

def State.setSem (s : State B τ) (d : Side) (v : ℕ) : State B τ :=
  match d with
  | .put => { s with notFull := v }
  | .take => { s with notEmpty := v }

theorem State.sem_setSem_self (s : State B τ) (d : Side) (v : ℕ) : (s.setSem d v).sem d = v := by
  cases d <;> rfl

theorem State.sem_setSem_other (s : State B τ) (d : Side) (v : ℕ) :
    (s.setSem d v).sem d.other = s.sem d.other := by
  cases d <;> rfl

@[simp] theorem State.toThreads_setSem (s : State B τ) (d : Side) (v : ℕ) :
    (s.setSem d v).toThreads = s.toThreads := by
  cases d <;> rfl

variable [DecidableEq τ]

/-- Thread `t` is now at `pc`. -/
def State.goto (s : State B τ) (t : τ) (pc : Pc δ) : State B τ :=
  { s with toThreads := s.toThreads.goto t pc }

/-- The next step of thread `t`. -/
def State.advance (S : Semaphore) (s : State B τ) (t : τ) : Option (State B τ) :=
  match s.pc t with
  | .idle => none
  | .wait c =>
    if 0 < s.sem c.side then some ((s.setSem c.side (s.sem c.side - 1)).goto t (.lock c)) else none
  | .lock c => if s.holder = none then some ({ s with holder := some t }.goto t (.act c)) else none
  | .act c => (s.contents.perform c).map fun (contents, done) =>
      { s with contents := contents }.goto t (.unlock done)
  | .unlock done => some ({ s with holder := none }.goto t (.post done))
  | .post done =>
    some ((s.setSem done.side.other (S.post (s.sem done.side.other))).goto t .idle)

/-- `guarded`: an exception unlocks the mutex on its way out. -/
def State.step (S : Semaphore) (guarded : Bool) (s : State B τ) :
    Action δ τ → Option (State B τ)
  | .call t c =>
    match s.pc t with
    | .idle => some (s.goto t (.wait c))
    | _ => none
  | .step t => s.advance S t
  | .event (.interrupt t) =>
    match s.pc t with
    | .wait c => if S.interruptible then some (s.goto t (.lock c)) else none
    | _ => none
  | .throw t =>
    match s.pc t with
    | .act _ => some ({ s with holder := if guarded then none else s.holder }.goto t .idle)
    | _ => none

end SemaphoreQueue

open SemaphoreQueue

variable {δ τ : Type} [DecidableEq τ] {B : CircularBuffer δ}

/-- The machine of one queue, from the state `s₀` that its constructor has left. -/
def semaphoreQueue (S : Semaphore) (guarded : Bool) (s₀ : State B τ) :
    Machine (State B τ) (Action δ τ) where
  init := s₀
  step := State.step S guarded

/-- `SemaphoreBoundedBlockingQueue`. -/
def semaphoreBoundedBlockingQueue (semValueMax : ℕ) (s₀ : State B τ) :
    Machine (State B τ) (Action δ τ) :=
  semaphoreQueue (posixSemaphore semValueMax) false s₀

/-- `CplusSemaphoreBoundedBlockingQueue`; `S` is `interprocess_semaphore`. -/
def cplusSemaphoreBoundedBlockingQueue (S : Semaphore) (s₀ : State B τ) :
    Machine (State B τ) (Action δ τ) :=
  semaphoreQueue S true s₀

end Naesala
