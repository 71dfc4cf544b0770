import Mathlib.Algebra.Group.Int.Defs
import Mathlib.Data.Fintype.Basic
import Mathlib.Data.List.Basic
import Mathlib.Logic.Function.Basic
import Naesala.Library.Machine

/-!
# `LockfreeSlabPool`, step by step

The reference counts of `lockfree_pool/lockfree_slab_pool.h` under any number of threads, for any
number of blocks. Each load and compare-exchange of `incr_ref` and `decr_ref` is one step of the
machine `lockfreeSlabPool`, and so is the assertion. `get` and `back` of the pool are one step
each on a set of free blocks: `get` takes any of them, and makes a new block if there is none.

A failed strong compare-exchange writes the value it found to `last`; one that succeeds does
not. A weak one may fail spuriously, and its `last` is loaded again. Arithmetic that leaves the
range of `int32_t` is undefined.

The fields from `incrs` on are observations.
-/

namespace Naesala

namespace LockfreeSlabPool

/-- `BACKING`. -/
abbrev backing : ℤ := -1

/-- Where a thread is in `incr_ref` or `decr_ref` of a block, with its local variable `last`. -/
inductive Pc (β : Type) where
  | idle
  /-- `incr_ref`: before `_user_count.load`. -/
  | incrLoad (b : β)
  /-- Before `compare_exchange_strong(last, 0)`, where `last` is `BACKING`. -/
  | incrHelp (b : β)
  /-- Before `compare_exchange_weak(last, last + 1)`. -/
  | incrCas (b : β) (last : ℤ)
  /-- `decr_ref`: before `_user_count.load`. -/
  | decrLoad (b : β)
  /-- Before `assert(last != BACKING)`. -/
  | decrAssert (b : β) (last : ℤ)
  /-- Before `compare_exchange_weak(last, BACKING)`, where `last` is `1`. -/
  | decrMark (b : β)
  /-- Before `_pool->back(this)`. -/
  | decrBack (b : β)
  /-- Before `compare_exchange_strong(backing, 0)`. -/
  | decrReset (b : β)
  /-- Before `compare_exchange_weak(last, last - 1)`. -/
  | decrCas (b : β) (last : ℤ)
  deriving DecidableEq

structure State (τ β : Type) where
  userCount : β → ℤ
  /-- The free blocks. -/
  pool : List β
  allocated : β → Bool
  pc : τ → Pc β
  /-- The calls of `incr_ref` whose last compare-exchange has succeeded; they have returned. -/
  incrs : β → ℕ
  /-- The calls of `decr_ref` whose decrementing compare-exchange has succeeded. -/
  decrs : β → ℕ
  /-- The calls of `decr_ref` that have begun. -/
  begun : β → ℕ
  /-- How often the last reference has been given up. -/
  falls : β → ℕ
  /-- How often the block has been pushed into the pool. -/
  pushes : β → ℕ
  /-- The thread that has the block from `get` and has no reference to it yet. -/
  got : β → Option τ

inductive Action (τ β : Type) where
  /-- `get` returns the block. -/
  | get (t : τ) (b : β)
  | incrRef (t : τ) (b : β)
  | decrRef (t : τ) (b : β)
  /-- The next step of a call; a weak compare-exchange fails if `spurious`. -/
  | step (t : τ) (spurious : Bool)

variable {τ β : Type} [DecidableEq τ] [DecidableEq β]

/-- One more at `b`. -/
def tick (f : β → ℕ) (b : β) : β → ℕ := Function.update f b (f b + 1)

/-- Thread `t` is now at `pc`. -/
def State.goto (s : State τ β) (t : τ) (pc : Pc β) : State τ β :=
  { s with pc := Function.update s.pc t pc }

/-- Write `_user_count` of block `b`. -/
def State.setCount (s : State τ β) (b : β) (count : ℤ) : State τ β :=
  { s with userCount := Function.update s.userCount b count }

/-- The block is referenced once more, and shared from now on. -/
def State.acquire (s : State τ β) (b : β) : State τ β :=
  { s with incrs := tick s.incrs b, got := Function.update s.got b none }

/-- A reference is given up. -/
def State.release (s : State τ β) (b : β) : State τ β := { s with decrs := tick s.decrs b }

/-- The last reference is given up. -/
def State.fall (s : State τ β) (b : β) : State τ β := { s.release b with falls := tick s.falls b }

/-- `_pool->back(this)`. -/
def State.back (s : State τ β) (b : β) : State τ β :=
  { s with pool := b :: s.pool, pushes := tick s.pushes b }

/-- The next step of thread `t`. -/
def State.advance (s : State τ β) (t : τ) (spurious : Bool) : Option (State τ β) :=
  match s.pc t with
  | .idle => none
  | .incrLoad b =>
    if s.userCount b = backing then some (s.goto t (.incrHelp b))
    else some (s.goto t (.incrCas b (s.userCount b)))
  | .incrHelp b =>
    if s.userCount b = backing then some ((s.setCount b 0).goto t (.incrCas b backing))
    else some (s.goto t (.incrCas b (s.userCount b)))
  | .incrCas b last =>
    if last + 1 ≥ 2 ^ 31 then none
    else if s.userCount b = last ∧ spurious = false then
      some (((s.setCount b (last + 1)).acquire b).goto t .idle)
    else some (s.goto t (.incrLoad b))
  | .decrLoad b => some (s.goto t (.decrAssert b (s.userCount b)))
  | .decrAssert b last =>
    if last = backing then none
    else if last = 1 then some (s.goto t (.decrMark b))
    else some (s.goto t (.decrCas b last))
  | .decrMark b =>
    if s.userCount b = 1 ∧ spurious = false then
      some (((s.setCount b backing).fall b).goto t (.decrBack b))
    else some (s.goto t (.decrLoad b))
  | .decrBack b => some ((s.back b).goto t (.decrReset b))
  | .decrReset b =>
    if s.userCount b = backing then some ((s.setCount b 0).goto t .idle)
    else some (s.goto t .idle)
  | .decrCas b last =>
    if last - 1 < -2 ^ 31 then none
    else if s.userCount b = last ∧ spurious = false then
      some (((s.setCount b (last - 1)).release b).goto t .idle)
    else some (s.goto t (.decrLoad b))

/-- `get`, where it may return block `b`: a free one, or a new one with a count of `0`. -/
def State.get (s : State τ β) (t : τ) (b : β) : Option (State τ β) :=
  if b ∈ s.pool then
    some { s with pool := s.pool.erase b, got := Function.update s.got b (some t) }
  else if s.pool = [] ∧ s.allocated b = false then
    some { s.setCount b 0 with
      allocated := Function.update s.allocated b true
      got := Function.update s.got b (some t) }
  else none

def State.step (s : State τ β) : Action τ β → Option (State τ β)
  | .get t b => if s.pc t = .idle then s.get t b else none
  | .incrRef t b =>
    if s.pc t = .idle ∧ s.allocated b = true then some (s.goto t (.incrLoad b)) else none
  | .decrRef t b =>
    if s.pc t = .idle then some ({ s with begun := tick s.begun b }.goto t (.decrLoad b)) else none
  | .step t spurious => s.advance t spurious

/-- The thread is in `incr_ref` of `b`. -/
def Pc.raising (b : β) : Pc β → Bool
  | .incrLoad c | .incrHelp c | .incrCas c _ => c = b
  | _ => false

/-- `decr_ref` is called once for each completed `incr_ref`, at most. -/
def Paired (s : State τ β) : Action τ β → Prop
  | .decrRef _ b => s.begun b < s.incrs b
  | _ => True

/-- The action is the last compare-exchange of an `incr_ref`, and it succeeds with the value
`BACKING` that the call has loaded before it helped to reset the counter. -/
def Stale (s : State τ β) : Action τ β → Prop
  | .step t spurious => ∃ b, s.pc t = .incrCas b backing ∧ s.userCount b = backing ∧ spurious = false
  | _ => False

/-- The discipline of the owners: `incr_ref` is called by the thread that has just obtained the
block, or while there is a completed `incr_ref` whose `decr_ref` has not begun, and then one such
is left throughout the call; `decr_ref` is called once for each completed `incr_ref`. -/
def Disciplined (s : State τ β) : Action τ β → Prop
  | .incrRef t b => s.got b = some t ∨ s.begun b < s.incrs b
  | .decrRef _ b => s.begun b < s.incrs b ∧
      (s.begun b + 1 < s.incrs b ∨ ∀ u, (s.pc u).raising b = false)
  | _ => True

end LockfreeSlabPool

open LockfreeSlabPool

/-- The machine of one pool. -/
def lockfreeSlabPool (τ β : Type) [DecidableEq τ] [DecidableEq β] :
    Machine (State τ β) (Action τ β) where
  init := ⟨fun _ => 0, [], fun _ => false, fun _ => .idle, fun _ => 0, fun _ => 0, fun _ => 0,
    fun _ => 0, fun _ => 0, fun _ => none⟩
  step := State.step

end Naesala
