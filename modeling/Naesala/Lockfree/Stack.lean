import Naesala.Library.Machine
import Naesala.Library.Ownership
import Naesala.Lockfree.Util

/-!
# `LockfreeStack`, step by step

The Treiber stack of `lockfree/lockfree_stack.h` under any number of threads. Every load,
compare-exchange, `combine` call and access to `node->next` is one step of the machine
`lockfreeStack`, and a thread's place in `push` or `pop` is its `Pc`. Nodes are never
deallocated. Between calls a thread may obtain a new node, write to a node it owns, or hand one
to another thread; it pushes only nodes that it owns.

`combine` is a template, and its version counter a static of each instance: `push` calls it on
`T *` and `pop` on the `IStackNode *` in `next`, so there are two counters.

The fields `owns`, `allocated`, `words` and `history` are observations. No step of the program
reads them, but for the rule that a thread pushes what it owns.
-/

namespace Naesala

namespace LockfreeStack

/-- Where a thread is in `push` or `pop`, with its local variables. -/
inductive Pc where
  | idle
  /-- `push`: before `combine(node)`. -/
  | pushCombine (node : Ptr)
  /-- Before `_top.load`. -/
  | pushLoad (node : Ptr) (nodeCombine : Word)
  /-- Before `node->next = pointer<T>(last_top_combine)`. -/
  | pushNext (node : Ptr) (nodeCombine lastTopCombine : Word)
  /-- Before the compare-exchange. -/
  | pushCas (node : Ptr) (nodeCombine lastTopCombine : Word)
  /-- `pop`: before `_top.load`. -/
  | popLoad
  /-- Before the read of `top->next`. -/
  | popNext (topCombine : Word)
  /-- Before `combine(top->next)`. -/
  | popCombine (topCombine : Word) (next : Ptr)
  /-- Before the compare-exchange. -/
  | popCas (topCombine newTopCombine : Word)
  deriving DecidableEq

/-- What a call did to the stack: its successful compare-exchange, or the load of a null top. -/
inductive Event (τ : Type) where
  | push (t : τ) (node : Ptr)
  | pop (t : τ) (node : Ptr)
  | popNull (t : τ)
  deriving DecidableEq

structure State (τ : Type) where
  top : Word
  next : Ptr → Ptr
  /-- `version` of `combine<T>`. -/
  pushVersion : BitVec 16
  /-- `version` of `combine<IStackNode>`. -/
  popVersion : BitVec 16
  pc : τ → Pc
  owns : τ → Ptr → Bool
  allocated : Ptr → Bool
  /-- What the `combine` calls on pointers other than null have returned, the last first. -/
  words : List Word
  history : List (Event τ)

inductive Action (τ : Type) where
  | new (t : τ) (node : Ptr)
  | write (t : τ) (node next : Ptr)
  | give (t u : τ) (node : Ptr)
  | push (t : τ) (node : Ptr)
  | pop (t : τ)
  /-- The next step of a call; a weak compare-exchange may fail spuriously. -/
  | step (t : τ) (spurious : Bool)

variable {τ : Type} [DecidableEq τ]

/-- Thread `t` is now at `pc`. -/
def State.goto (s : State τ) (t : τ) (pc : Pc) : State τ :=
  { s with pc := Function.update s.pc t pc }

/-- Whether thread `t` owns `node` is now `b`. -/
def State.setOwns (s : State τ) (t : τ) (node : Ptr) (b : Bool) : State τ :=
  { s with owns := updateOwns s.owns t node b }

/-- `node->next = next`. -/
def State.setNext (s : State τ) (node next : Ptr) : State τ :=
  { s with next := Function.update s.next node next }

/-- Record what `combine` on `p` has returned. -/
def State.issue (s : State τ) (p : Ptr) (w : Word) : State τ :=
  { s with words := if p ≠ 0 then w :: s.words else s.words }

/-- Record what a call has done. -/
def State.record (s : State τ) (e : Event τ) : State τ := { s with history := s.history ++ [e] }

@[simp] theorem State.goto_pc_self (s : State τ) (t : τ) (pc : Pc) : (s.goto t pc).pc t = pc := by
  simp [State.goto]

theorem State.goto_pc_ne (s : State τ) {t u : τ} (hu : u ≠ t) (pc : Pc) :
    (s.goto t pc).pc u = s.pc u := by
  simp [State.goto, hu]

omit [DecidableEq τ] in
@[simp] theorem State.setNext_next_self (s : State τ) (node v : Ptr) :
    (s.setNext node v).next node = v := by
  simp [State.setNext]

omit [DecidableEq τ] in
theorem State.setNext_next_ne (s : State τ) {node n : Ptr} (hn : n ≠ node) (v : Ptr) :
    (s.setNext node v).next n = s.next n := by
  simp [State.setNext, hn]

/-- The next step of thread `t`. -/
def State.advance (s : State τ) (t : τ) (spurious : Bool) : Option (State τ) :=
  match s.pc t with
  | .idle => none
  | .pushCombine node =>
    let w := combine node s.pushVersion
    some (({ s with pushVersion := s.pushVersion + 1 }.issue node w).goto t (.pushLoad node w))
  | .pushLoad node nodeCombine => some (s.goto t (.pushNext node nodeCombine s.top))
  | .pushNext node nodeCombine lastTopCombine =>
    some ((s.setNext node (pointer lastTopCombine)).goto t
      (.pushCas node nodeCombine lastTopCombine))
  | .pushCas node nodeCombine lastTopCombine =>
    if s.top = lastTopCombine ∧ spurious = false then
      some ((({ s with top := nodeCombine }.record (.push t node)).setOwns t node false).goto t
        .idle)
    else some (s.goto t (.pushLoad node nodeCombine))
  | .popLoad =>
    if pointer s.top = 0 then some ((s.record (.popNull t)).goto t .idle)
    else some (s.goto t (.popNext s.top))
  | .popNext topCombine => some (s.goto t (.popCombine topCombine (s.next (pointer topCombine))))
  | .popCombine topCombine next =>
    let w := combine next s.popVersion
    some (({ s with popVersion := s.popVersion + 1 }.issue next w).goto t (.popCas topCombine w))
  | .popCas topCombine newTopCombine =>
    if s.top = topCombine ∧ spurious = false then
      some ((({ s with top := newTopCombine }.record (.pop t (pointer topCombine))).setOwns t
        (pointer topCombine) true).goto t .idle)
    else some (s.goto t .popLoad)

/-- Between calls, a thread may do something to a node that it owns. -/
def State.mayUse (s : State τ) (t : τ) (node : Ptr) : Bool := s.pc t = .idle && s.owns t node

def State.step (s : State τ) : Action τ → Option (State τ)
  | .new t node =>
    if s.pc t = .idle ∧ node ≠ 0 ∧ s.allocated node = false then
      some ({ s with allocated := Function.update s.allocated node true }.setOwns t node true)
    else none
  | .write t node next => if s.mayUse t node then some (s.setNext node next) else none
  | .give t u node =>
    if s.mayUse t node then some ((s.setOwns t node false).setOwns u node true) else none
  | .push t node => if s.mayUse t node then some (s.goto t (.pushCombine node)) else none
  | .pop t => if s.pc t = .idle then some (s.goto t .popLoad) else none
  | .step t spurious => s.advance t spurious

end LockfreeStack

open LockfreeStack

/-- The machine of one stack and the threads `τ`, from an empty stack on. -/
def lockfreeStack (τ : Type) [DecidableEq τ] : Machine (State τ) (Action τ) where
  init := ⟨0, fun _ => 0, 0, 0, fun _ => .idle, fun _ _ => false, fun _ => false, [], []⟩
  step := State.step

end Naesala
