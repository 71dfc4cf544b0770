import Mathlib.Logic.Function.Basic
import Naesala.Library.Machine

/-!
# `Barrier`, step by step

The barrier of `common/barrier.h` under any number of threads. Locking, the decrement, the test,
`notify_all`, each evaluation of the predicate of `wait`, the atomic release-and-wait, the
assertion and the unlock at the end of `await` are one step each of the machine `barrier`. A
blocked thread wakes up by the notification or spuriously, and then locks the mutex again.

The fields `rank`, `arrived` and `returned` are observations.
-/

namespace Naesala

namespace Barrier

/-- Where a thread is in `await`. -/
inductive Pc where
  | idle
  | lock
  /-- With the mutex, before `--_parties`. -/
  | decrement
  /-- With the mutex, before `if (!_parties)`. -/
  | test
  /-- With the mutex, before `notify_all`. -/
  | notify
  /-- With the mutex, before the predicate of `wait`. -/
  | check
  /-- With the mutex, before the release-and-wait. -/
  | wait
  | blocked
  /-- Before locking the mutex again. -/
  | woken
  /-- With the mutex, before `assert(!_parties)`. -/
  | assertion
  | unlock
  deriving DecidableEq

structure State (τ : Type) where
  /-- The thread that has locked `_mutex`. -/
  holder : Option τ
  parties : BitVec 32
  pc : τ → Pc
  /-- `some k`: the call the thread is in was number `k` to decrement, from `0`. -/
  rank : τ → Option ℕ
  /-- The number of decrements. -/
  arrived : ℕ
  /-- The number of calls that have returned. -/
  returned : ℕ

inductive Action (τ : Type) where
  | call (t : τ)
  /-- The next step of a call. -/
  | step (t : τ)
  /-- Thread `t` wakes up spuriously. -/
  | spurious (t : τ)

variable {τ : Type} [DecidableEq τ]

/-- Thread `t` is now at `pc`. -/
def State.goto (s : State τ) (t : τ) (pc : Pc) : State τ :=
  { s with pc := Function.update s.pc t pc }

/-- `notify_all`. -/
def State.notifyAll (s : State τ) : State τ :=
  { s with pc := fun u => if s.pc u = .blocked then .woken else s.pc u }

/-- The next step of thread `t`. -/
def State.advance (s : State τ) (t : τ) : Option (State τ) :=
  match s.pc t with
  | .idle | .blocked => none
  | .lock =>
    if s.holder = none then some ({ s with holder := some t }.goto t .decrement) else none
  | .decrement =>
    some ({ s with
      parties := s.parties - 1
      rank := Function.update s.rank t (some s.arrived)
      arrived := s.arrived + 1 }.goto t .test)
  | .test => if s.parties = 0 then some (s.goto t .notify) else some (s.goto t .check)
  | .notify => some (s.notifyAll.goto t .unlock)
  | .check => if s.parties = 0 then some (s.goto t .assertion) else some (s.goto t .wait)
  | .wait => some ({ s with holder := none }.goto t .blocked)
  | .woken => if s.holder = none then some ({ s with holder := some t }.goto t .check) else none
  | .assertion => if s.parties = 0 then some (s.goto t .unlock) else none
  | .unlock =>
    some ({ s with
      holder := none
      rank := Function.update s.rank t none
      returned := s.returned + 1 }.goto t .idle)

def State.step (s : State τ) : Action τ → Option (State τ)
  | .call t => if s.pc t = .idle then some (s.goto t .lock) else none
  | .step t => s.advance t
  | .spurious t => if s.pc t = .blocked then some (s.goto t .woken) else none

/-- The call of the thread is one of the first `parties` to decrement, and has not returned. -/
def State.Early (parties : ℕ) (s : State τ) (t : τ) : Prop := ∃ k < parties, s.rank t = some k

/-- The thread is in `await` and neither blocked, nor about to be, nor woken. -/
def Pc.running : Pc → Bool
  | .test | .notify | .check | .assertion | .unlock => true
  | _ => false

/-- After decrement number `parties`, the calls up to it are running, or woken and about to find
the predicate true. -/
def State.Released (parties : ℕ) (s : State τ) : Prop :=
  parties ≤ s.arrived → ∀ t, s.Early parties t →
    (s.pc t).running = true ∨ s.pc t = .woken ∧ s.parties = 0

/-- No call decrements once `parties` have, while one of these has not returned. -/
def Timely (parties : ℕ) (s : State τ) : Action τ → Prop
  | .step t => s.pc t = .decrement → parties ≤ s.arrived → ∀ u, ¬ s.Early parties u
  | _ => True

end Barrier

open Barrier

/-- The machine of one barrier. -/
def barrier (τ : Type) [DecidableEq τ] (parties : ℕ) : Machine (State τ) (Action τ) where
  init := ⟨none, BitVec.ofNat 32 parties, fun _ => .idle, fun _ => none, 0, 0⟩
  step := State.step

end Naesala
