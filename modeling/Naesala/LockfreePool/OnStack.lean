import Naesala.Lockfree.Stack
import Naesala.LockfreePool.LockfreeSlabPool

/-!
# `LockfreeSlabPool` on its `LockfreeStack`

The whole pool: the reference counts of `Shared`, and `get` and `back` as the calls of `_stack.pop`
and `_stack.push` that they are, step by step. `pooledStack` runs the machine of the stack beside
that of the counts. A thread is in one of them at a time: while it is in a call of the stack, the
rest of it waits.

`get` makes a new block where `pop` returns null, which may be long after the stack was empty.
`back` is called by `decr_ref` when the last reference is gone, and may be called on a block that
`get` has returned and nobody has shared.

The stack's threads are the threads of the pool and `none`, which owns the blocks that are in use.
What it owns, the fields `pool` and `got` of the counts and the observations of both machines are
read by no step.
-/

namespace Naesala

namespace PooledStack

structure State (τ : Type) where
  slab : LockfreeSlabPool.State τ Ptr
  stack : LockfreeStack.State (Option τ)
  /-- The thread is in `get`, where `pop` has returned null. -/
  making : τ → Bool

inductive Action (τ : Type) where
  /-- The call of `get`, and of `_stack.pop` in it. -/
  | get (t : τ)
  /-- `new T(this)` in `get` returns `block`. -/
  | make (t : τ) (block : Ptr)
  /-- The call of `back`, and of `_stack.push` in it. -/
  | back (t : τ) (block : Ptr)
  | incrRef (t : τ) (block : Ptr)
  | decrRef (t : τ) (block : Ptr)
  /-- The next step of a call; a weak compare-exchange fails if `spurious`. -/
  | step (t : τ) (spurious : Bool)

variable {τ : Type} [DecidableEq τ]

/-- The thread is in no call. -/
def State.atRest (s : State τ) (t : τ) : Prop :=
  s.slab.pc t = .idle ∧ s.stack.pc (some t) = .idle ∧ s.making t = false

instance (s : State τ) (t : τ) : Decidable (s.atRest t) := inferInstanceAs (Decidable (_ ∧ _))

/-- `node` changes hands. -/
def passOn (stack : LockfreeStack.State (Option τ)) (t u : Option τ) (node : Ptr) :
    LockfreeStack.State (Option τ) :=
  (stack.setOwns t node false).setOwns u node true

/-- Thread `t` is about to push `node`, which was in use. -/
def enterPush (stack : LockfreeStack.State (Option τ)) (t : τ) (node : Ptr) :
    LockfreeStack.State (Option τ) :=
  (passOn stack none (some t) node).goto (some t) (.pushCombine node)

/-- A block that was free is with thread `t`. -/
def take (slab : LockfreeSlabPool.State τ Ptr) (t : τ) (block : Ptr) :
    LockfreeSlabPool.State τ Ptr :=
  { slab with pool := slab.pool.erase block, got := Function.update slab.got block (some t) }

/-- A new block, with a count of `0`, is with thread `t`. -/
def create (slab : LockfreeSlabPool.State τ Ptr) (t : τ) (block : Ptr) :
    LockfreeSlabPool.State τ Ptr :=
  { slab.setCount block 0 with
    allocated := Function.update slab.allocated block true
    got := Function.update slab.got block (some t) }

/-- A block that nobody has shared is free again. -/
def giveUp (slab : LockfreeSlabPool.State τ Ptr) (block : Ptr) : LockfreeSlabPool.State τ Ptr :=
  { slab with pool := block :: slab.pool, got := Function.update slab.got block none }

/-- `push` has returned, to `decr_ref` or to the caller of `back`. -/
def pushed (slab : LockfreeSlabPool.State τ Ptr) (t : τ) (node : Ptr) :
    LockfreeSlabPool.State τ Ptr :=
  match slab.pc t with
  | .decrBack _ => (slab.back node).goto t (.decrReset node)
  | _ => giveUp slab node

/-- Thread `t` has taken a step of a call of the stack, which is now `stack`. If the call has
returned, it is the last one of the history. -/
def State.resume (s : State τ) (t : τ) (stack : LockfreeStack.State (Option τ)) : State τ :=
  match stack.pc (some t), stack.history.getLast? with
  | .idle, some (.push _ node) => { s with slab := pushed s.slab t node, stack := stack }
  | .idle, some (.pop _ node) =>
    { s with slab := take s.slab t node, stack := passOn stack (some t) none node }
  | .idle, some (.popNull _) =>
    { s with stack := stack, making := Function.update s.making t true }
  | _, _ => { s with stack := stack }

/-- The next step of thread `t`. -/
def State.advance (s : State τ) (t : τ) (spurious : Bool) : Option (State τ) :=
  if s.stack.pc (some t) = .idle then
    match s.slab.pc t with
    | .decrBack block => some { s with stack := enterPush s.stack t block }
    | _ => (s.slab.advance t spurious).map fun slab => { s with slab := slab }
  else (s.stack.advance (some t) spurious).map (s.resume t)

def State.step (s : State τ) : Action τ → Option (State τ)
  | .get t =>
    if s.atRest t then some { s with stack := s.stack.goto (some t) .popLoad } else none
  | .make t block =>
    if s.making t = true ∧ block ≠ 0 ∧ s.slab.allocated block = false then
      some
        { slab := create s.slab t block
          stack := { s.stack with
            allocated := Function.update s.stack.allocated block true }.setOwns none block true
          making := Function.update s.making t false }
    else none
  | .back t block =>
    if s.atRest t then some { s with stack := enterPush s.stack t block } else none
  | .incrRef t block =>
    if s.atRest t then
      (s.slab.step (.incrRef t block)).map fun slab => { s with slab := slab }
    else none
  | .decrRef t block =>
    if s.atRest t then
      (s.slab.step (.decrRef t block)).map fun slab => { s with slab := slab }
    else none
  | .step t spurious => s.advance t spurious

/-- The discipline of the owners. `incr_ref` and `decr_ref` are called as `LockfreeSlabPool` asks
for it, and `back` by the thread that has just obtained the block. -/
def Disciplined (s : State τ) : Action τ → Prop
  | .incrRef t block => LockfreeSlabPool.Disciplined s.slab (.incrRef t block)
  | .decrRef t block => LockfreeSlabPool.Disciplined s.slab (.decrRef t block)
  | .back t block => s.slab.got block = some t
  | _ => True

end PooledStack

open PooledStack

/-- The machine of one pool with its stack. -/
def pooledStack (τ : Type) [DecidableEq τ] : Machine (State τ) (Action τ) where
  init := ⟨(lockfreeSlabPool τ Ptr).init, (lockfreeStack (Option τ)).init, fun _ => false⟩
  step := State.step

end Naesala
