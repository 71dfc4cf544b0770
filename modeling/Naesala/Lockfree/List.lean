import Naesala.Library.Machine
import Naesala.Library.Ownership
import Naesala.Lockfree.Util

/-!
# `LockfreeList`, step by step

The Michael-Scott queue of `lockfree/lockfree_list.h` under any number of threads. Every load,
store and compare-exchange, every `combine` call and every `memcpy` is one step of the machine
`lockfreeList`. The first node of the list is a dummy. `take` copies the payload of the second
node out, makes that node the dummy, and returns the old dummy with the payload in it.

Nodes are never deallocated. Between calls a thread may obtain a new node, whose `next` is `0`,
write a payload to a node it owns, or hand one to another thread; it puts only nodes it owns. The
node that a `take` has removed belongs to its thread from the compare-exchange on, and can be put
again once the call has returned.

The fields `owns`, `allocated`, `words` and `history` are observations, as for the stack.
-/

namespace Naesala

namespace LockfreeList

/-- Where a thread is in `put` or `take`, with its local variables. -/
inductive Pc (δ : Type) where
  | idle
  /-- `put`: before `_tail.load`. -/
  | putTail (node : Ptr)
  /-- Before `tail->next.load`. -/
  | putNext (node : Ptr) (tailCombine : Word)
  /-- The tail has a next node: before `combine(tail_next)`, and before `_tail` is swung to it. -/
  | putAdvance (node : Ptr) (tailCombine tailNextCombine : Word)
  | putAdvanceCas (node : Ptr) (tailCombine newTail : Word)
  /-- The tail is last: before `combine(node)`, and before `node` is linked to it. -/
  | putCombine (node : Ptr) (tailCombine tailNextCombine : Word)
  | putLink (node : Ptr) (tailCombine tailNextCombine newNext : Word)
  /-- Linked: before `combine(node)`, and before `_tail` is swung to the node. -/
  | putSwing (node : Ptr) (tailCombine : Word)
  | putSwingCas (tailCombine newTail : Word)
  /-- `take`: before `_head.load`. -/
  | takeHead
  /-- Before `_tail.load`. -/
  | takeTail (headCombine : Word)
  /-- Before `head->next.load`. -/
  | takeNext (headCombine tailCombine : Word)
  /-- Before the second `_head.load`, and the tests after it. -/
  | takeCheck (headCombine tailCombine headNextCombine : Word)
  /-- The tail falls behind: before `combine(head_next)`, and before `_tail` is swung to it. -/
  | takeAdvance (tailCombine headNextCombine : Word)
  | takeAdvanceCas (tailCombine newTail : Word)
  /-- Before the payload of `head_next` is copied out. -/
  | takeCopy (headCombine headNextCombine : Word)
  /-- Before `combine(head_next)`. -/
  | takeCombine (headCombine headNextCombine : Word) (bytes : δ)
  /-- Before the compare-exchange on `_head`. -/
  | takeCas (headCombine headNextCombine : Word) (bytes : δ) (newHead : Word)
  /-- Removed: before the payload is copied into `head`, and before `head->next.store(0)`. -/
  | takeWrite (head : Ptr) (bytes : δ)
  | takeReset (head : Ptr)

def Pc.isIdle {δ : Type} : Pc δ → Bool
  | .idle => true
  | _ => false

/-- What a call did to the queue: linking its node, claiming a payload, or finding it empty. -/
inductive Event (τ δ : Type) where
  | link (t : τ) (payload : δ)
  | claim (t : τ) (payload : δ)
  | empty (t : τ)
  deriving DecidableEq

structure State (τ δ : Type) where
  head : Word
  tail : Word
  next : Ptr → Word
  data : Ptr → δ
  /-- `version` of `combine<T>`. -/
  version : BitVec 16
  pc : τ → Pc δ
  owns : τ → Ptr → Bool
  allocated : Ptr → Bool
  /-- What the `combine` calls have returned, the last first. -/
  words : List Word
  history : List (Event τ δ)

inductive Action (τ δ : Type) where
  | new (t : τ) (node : Ptr) (payload : δ)
  | write (t : τ) (node : Ptr) (payload : δ)
  | give (t u : τ) (node : Ptr)
  | put (t : τ) (node : Ptr)
  | take (t : τ)
  /-- The next step of a call; a weak compare-exchange may fail spuriously. -/
  | step (t : τ) (spurious : Bool)

variable {τ δ : Type} [DecidableEq τ]

/-- Thread `t` is now at `pc`. -/
def State.goto (s : State τ δ) (t : τ) (pc : Pc δ) : State τ δ :=
  { s with pc := Function.update s.pc t pc }

/-- Whether thread `t` owns `node` is now `b`. -/
def State.setOwns (s : State τ δ) (t : τ) (node : Ptr) (b : Bool) : State τ δ :=
  { s with owns := updateOwns s.owns t node b }

/-- `node->next = w`. -/
def State.setNext (s : State τ δ) (node : Ptr) (w : Word) : State τ δ :=
  { s with next := Function.update s.next node w }

/-- The payload of `node` is now `payload`. -/
def State.setData (s : State τ δ) (node : Ptr) (payload : δ) : State τ δ :=
  { s with data := Function.update s.data node payload }

/-- `combine`, which moves the version on. -/
def State.combined (s : State τ δ) (p : Ptr) : State τ δ × Word :=
  let w := combine p s.version
  ({ s with version := s.version + 1, words := w :: s.words }, w)

/-- Record what a call has done. -/
def State.record (s : State τ δ) (e : Event τ δ) : State τ δ :=
  { s with history := s.history ++ [e] }

/-- `_tail.compare_exchange_strong(expected, w)`. -/
def State.casTail (s : State τ δ) (expected w : Word) : State τ δ :=
  if s.tail = expected then { s with tail := w } else s

@[simp] theorem State.goto_pc_self (s : State τ δ) (t : τ) (pc : Pc δ) :
    (s.goto t pc).pc t = pc := by
  simp [State.goto]

theorem State.goto_pc_ne (s : State τ δ) {t u : τ} (hu : u ≠ t) (pc : Pc δ) :
    (s.goto t pc).pc u = s.pc u := by
  simp [State.goto, hu]

section CasTail

variable (s : State τ δ) (expected w : Word)

omit [DecidableEq τ]

@[simp] theorem State.casTail_pc : (s.casTail expected w).pc = s.pc := by
  unfold State.casTail
  split_ifs <;> rfl

@[simp] theorem State.casTail_owns : (s.casTail expected w).owns = s.owns := by
  unfold State.casTail
  split_ifs <;> rfl

@[simp] theorem State.casTail_next : (s.casTail expected w).next = s.next := by
  unfold State.casTail
  split_ifs <;> rfl

end CasTail

/-- The next step of thread `t`. -/
def State.advance (s : State τ δ) (t : τ) (spurious : Bool) : Option (State τ δ) :=
  match s.pc t with
  | .idle => none
  | .putTail node => some (s.goto t (.putNext node s.tail))
  | .putNext node tailCombine =>
    let tailNextCombine := s.next (pointer tailCombine)
    if pointer tailNextCombine ≠ 0 then
      some (s.goto t (.putAdvance node tailCombine tailNextCombine))
    else some (s.goto t (.putCombine node tailCombine tailNextCombine))
  | .putAdvance node tailCombine tailNextCombine =>
    let (s, w) := s.combined (pointer tailNextCombine)
    some (s.goto t (.putAdvanceCas node tailCombine w))
  | .putAdvanceCas node tailCombine newTail =>
    some ((s.casTail tailCombine newTail).goto t (.putTail node))
  | .putCombine node tailCombine tailNextCombine =>
    let (s, w) := s.combined node
    some (s.goto t (.putLink node tailCombine tailNextCombine w))
  | .putLink node tailCombine tailNextCombine newNext =>
    if s.next (pointer tailCombine) = tailNextCombine ∧ spurious = false then
      some ((((s.setNext (pointer tailCombine) newNext).record (.link t (s.data node))).setOwns t
        node false).goto t (.putSwing node tailCombine))
    else some (s.goto t (.putTail node))
  | .putSwing node tailCombine =>
    let (s, w) := s.combined node
    some (s.goto t (.putSwingCas tailCombine w))
  | .putSwingCas tailCombine newTail => some ((s.casTail tailCombine newTail).goto t .idle)
  | .takeHead => some (s.goto t (.takeTail s.head))
  | .takeTail headCombine => some (s.goto t (.takeNext headCombine s.tail))
  | .takeNext headCombine tailCombine =>
    some (s.goto t (.takeCheck headCombine tailCombine (s.next (pointer headCombine))))
  | .takeCheck headCombine tailCombine headNextCombine =>
    if headCombine ≠ s.head then some (s.goto t .takeHead)
    else if pointer headCombine = pointer tailCombine then
      if pointer headNextCombine = 0 then some ((s.record (.empty t)).goto t .idle)
      else some (s.goto t (.takeAdvance tailCombine headNextCombine))
    else if pointer headNextCombine = 0 then some (s.goto t .takeHead)
    else some (s.goto t (.takeCopy headCombine headNextCombine))
  | .takeAdvance tailCombine headNextCombine =>
    let (s, w) := s.combined (pointer headNextCombine)
    some (s.goto t (.takeAdvanceCas tailCombine w))
  | .takeAdvanceCas tailCombine newTail => some ((s.casTail tailCombine newTail).goto t .takeHead)
  | .takeCopy headCombine headNextCombine =>
    some (s.goto t (.takeCombine headCombine headNextCombine (s.data (pointer headNextCombine))))
  | .takeCombine headCombine headNextCombine bytes =>
    let (s, w) := s.combined (pointer headNextCombine)
    some (s.goto t (.takeCas headCombine headNextCombine bytes w))
  | .takeCas headCombine _ bytes newHead =>
    if s.head = headCombine ∧ spurious = false then
      some ((({ s with head := newHead }.record (.claim t bytes)).setOwns t (pointer headCombine)
        true).goto t (.takeWrite (pointer headCombine) bytes))
    else some (s.goto t .takeHead)
  | .takeWrite head bytes => some ((s.setData head bytes).goto t (.takeReset head))
  | .takeReset head => some ((s.setNext head 0).goto t .idle)

/-- The thread is between calls and owns the node. -/
def State.mayUse (s : State τ δ) (t : τ) (node : Ptr) : Bool :=
  (s.pc t).isIdle && s.owns t node

def State.step (s : State τ δ) : Action τ δ → Option (State τ δ)
  | .new t node payload =>
    if (s.pc t).isIdle ∧ node ≠ 0 ∧ s.allocated node = false then
      some (((({ s with allocated := Function.update s.allocated node true }.setNext node
        0).setData node payload)).setOwns t node true)
    else none
  | .write t node payload => if s.mayUse t node then some (s.setData node payload) else none
  | .give t u node =>
    if s.mayUse t node then some ((s.setOwns t node false).setOwns u node true) else none
  | .put t node => if s.mayUse t node then some (s.goto t (.putTail node)) else none
  | .take t => if (s.pc t).isIdle then some (s.goto t .takeHead) else none
  | .step t spurious => s.advance t spurious

end LockfreeList

open LockfreeList

/-- The machine of one list and the threads `τ`, from the constructor on, which makes `dummy` its
first node. -/
def lockfreeList (τ : Type) {δ : Type} [DecidableEq τ] (dummy : Ptr) (payload : δ) :
    Machine (State τ δ) (Action τ δ) where
  init :=
    { head := combine dummy 0
      tail := combine dummy 0
      next := fun _ => 0
      data := fun _ => payload
      version := 1
      pc := fun _ => .idle
      owns := fun _ _ => false
      allocated := fun p => p = dummy
      words := [combine dummy 0]
      history := [] }
  step := State.step

end Naesala
