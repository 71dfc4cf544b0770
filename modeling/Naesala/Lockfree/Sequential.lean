import Naesala.Library.Attempts
import Naesala.Lockfree.List

/-!
# `LockfreeList` in one thread

The calls of a program with a single thread. Each runs on the machine of `LockfreeList` from its
first step to its last one; what is left open is which weak compare-exchanges fail spuriously, so
a call is given a list of choices, one for each step, and is `none` if they are not enough.

The client holds nodes: new ones, and those that `take` has returned, until they are put. It may
write to the payload of a node that it holds. `Outcome`s record what was put and what `take`
returned, the last call in front, and `Fifo` says which queue of payloads they leave.
-/

namespace Naesala

namespace LockfreeList

variable {δ : Type}

/-- What a call at `pc` returns if its next step is the last one. -/
def Pc.result : Pc δ → Ptr
  | .takeReset head => head
  | _ => 0

/-- A step of the only thread, and what it returns if it ends the call. -/
def State.alone (s : State Unit δ) (spurious : Bool) : Option (State Unit δ × Option Ptr) :=
  (s.advance () spurious).map fun s' =>
    (s', if (s'.pc ()).isIdle then some (s.pc ()).result else none)

/-- A call of `put`. -/
def State.put (s : State Unit δ) (node : Ptr) (choices : List Bool) : Option (State Unit δ) :=
  (s.step (.put () node)).bind fun s => (attempt State.alone choices s).map Prod.fst

/-- A call of `take`, and the node that it returns. -/
def State.take (s : State Unit δ) (choices : List Bool) : Option (State Unit δ × Ptr) :=
  (s.step (.take ())).bind (attempt State.alone choices)

/-- The destructor, with choices for each `take` in it: the nodes that it deletes, in order. -/
def State.destruct : List (List Bool) → State Unit δ → Option (List Ptr)
  | [], _ => none
  | choices :: rest, s =>
    (s.take choices).bind fun (s, node) =>
      if node ≠ 0 then (State.destruct rest s).map fun deleted => node :: deleted
      else some [pointer s.tail]

/-- What a call did: the payload that was put, or the one in the node that `take` returned, if it
did not return null. -/
inductive Outcome (δ : Type) where
  | put (payload : δ)
  | take (payload : Option δ)
  deriving DecidableEq

/-- The outcomes are those of a FIFO queue, in which they leave the payloads `q`. -/
inductive Fifo : List (Outcome δ) → List δ → Prop
  | nil : Fifo [] []
  | put {h : List (Outcome δ)} {q : List δ} (payload : δ) :
      Fifo h q → Fifo (.put payload :: h) (q ++ [payload])
  | takeNull {h : List (Outcome δ)} : Fifo h [] → Fifo (.take none :: h) []
  | take {h : List (Outcome δ)} {q : List δ} {payload : δ} :
      Fifo h (payload :: q) → Fifo (.take (some payload) :: h) q

/-- The list, the nodes that the client holds, and the outcomes of its calls. -/
structure Client (δ : Type) where
  list : State Unit δ
  held : List Ptr
  log : List (Outcome δ)

/-- What the client may do. -/
inductive Call (δ : Type) where
  | new (node : Ptr) (payload : δ)
  | write (node : Ptr) (payload : δ)
  | put (node : Ptr) (choices : List Bool)
  | take (choices : List Bool)

def Client.call (o : Client δ) : Call δ → Option (Client δ)
  | .new node payload =>
    (o.list.step (.new () node payload)).map fun s => ⟨s, node :: o.held, o.log⟩
  | .write node payload =>
    (o.list.step (.write () node payload)).map fun s => ⟨s, o.held, o.log⟩
  | .put node choices =>
    (o.list.put node choices).map fun s =>
      ⟨s, o.held.erase node, .put (o.list.data node) :: o.log⟩
  | .take choices =>
    (o.list.take choices).map fun (s, node) =>
      if node ≠ 0 then ⟨s, node :: o.held, .take (some (s.data node)) :: o.log⟩
      else ⟨s, o.held, .take none :: o.log⟩

/-- The client puts only nodes that it holds, and writes to no others. -/
def Client.Allowed (o : Client δ) : Call δ → Prop
  | .write node _ => node ∈ o.held
  | .put node _ => node ∈ o.held
  | _ => True

instance (o : Client δ) : ∀ a, Decidable (o.Allowed a)
  | .new _ _ => inferInstanceAs (Decidable True)
  | .write node _ => inferInstanceAs (Decidable (node ∈ o.held))
  | .put node _ => inferInstanceAs (Decidable (node ∈ o.held))
  | .take _ => inferInstanceAs (Decidable True)

end LockfreeList

open LockfreeList

/-- The machine of one list and one thread. -/
def sequentialList {δ : Type} (dummy : Ptr) (payload : δ) : Machine (Client δ) (Call δ) where
  init := ⟨(lockfreeList Unit dummy payload).init, [], []⟩
  step := Client.call

end Naesala
