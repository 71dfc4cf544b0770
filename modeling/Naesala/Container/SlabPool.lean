import Mathlib.Data.List.Basic
import Mathlib.Logic.Function.Basic
import Naesala.Library.Linked
import Naesala.Library.Machine

/-!
# `SlabPool`

The pool of `container/slab_pool.h`. Nodes are numbers, `0` is the null pointer, and
`new T()` makes the next number; nothing is deallocated before the destructor runs. `_free` is
declared as a `T`, and read as the node pointer that its uses take it for.

The fields `out` and `history` are observations: which nodes are handed out, and the calls so
far, the last one in front.
-/

namespace Naesala

/-- What a call did: the node that `get` returned, or the node given to `back`. -/
inductive SlabPool.Event where
  | get (node : ℕ)
  | back (node : ℕ)
  deriving DecidableEq

structure SlabPool where
  next : ℕ → ℕ
  live : ℕ
  free : ℕ
  /-- The nodes made so far are `1` to `made`. -/
  made : ℕ
  out : ℕ → Bool
  history : List SlabPool.Event

namespace SlabPool

/-- A pool without nodes. -/
def construct : SlabPool := ⟨fun _ => 0, 0, 0, 0, fun _ => false, []⟩

/-- The first lines of `get`: take a free node, or make a new one. -/
def take (s : SlabPool) : SlabPool × ℕ :=
  if s.free ≠ 0 then ({ s with free := s.next s.free }, s.free)
  else ({ s with next := Function.update s.next (s.made + 1) 0, made := s.made + 1 }, s.made + 1)

/-- `get`: the pool after it, and the node it returns. -/
def get (s : SlabPool) : SlabPool × ℕ :=
  let (s, ret) := s.take
  ({ s with next := Function.update s.next ret s.live, live := ret }, ret)

/-- `back`: the pool after it, and the caller's pointer. -/
def back (s : SlabPool) (node : ℕ) : SlabPool × ℕ :=
  if s.free = 0 then
    ({ s with next := Function.update s.next node 0, free := node }, node)
  else
    ({ s with next := Function.update s.next node s.free, free := node }, 0)

/-- One loop of the destructor from `node`, where `destroyed` are the nodes that are gone. It is
`none` where the program reads or destroys such a node, and where `fuel` is not enough. -/
def destroyLoop (next : ℕ → ℕ) : ℕ → ℕ → List ℕ → Option (List ℕ)
  | _, 0, destroyed => some destroyed
  | 0, _ + 1, _ => none
  | fuel + 1, node + 1, destroyed =>
    if node + 1 ∈ destroyed then none
    else destroyLoop next fuel (next (node + 1)) ((node + 1) :: destroyed)

/-- The destructor: the nodes it destroys. -/
def destruct (s : SlabPool) (fuel : ℕ) : Option (List ℕ) := do
  let destroyed ← destroyLoop s.next fuel s.live []
  destroyLoop s.next fuel s.free destroyed

/-- A call by a client. -/
inductive Call where
  | get
  | back (node : ℕ)
  deriving DecidableEq

/-- Perform a call and observe it. -/
def call (s : SlabPool) : Call → SlabPool
  | .get =>
    let (s, ret) := s.get
    { s with out := Function.update s.out ret true, history := .get ret :: s.history }
  | .back node =>
    let (s, _) := s.back node
    { s with out := Function.update s.out node false, history := .back node :: s.history }

/-- `back` is given a node that is handed out. -/
def Allowed (s : SlabPool) : Call → Prop
  | .get => True
  | .back node => s.out node = true

instance (s : SlabPool) : ∀ a, Decidable (s.Allowed a)
  | .get => inferInstanceAs (Decidable True)
  | .back node => inferInstanceAs (Decidable (s.out node = true))

/-- The nodes that are made and not handed out. -/
def Returned (s : SlabPool) (n : ℕ) : Prop := n ≠ 0 ∧ n ≤ s.made ∧ s.out n = false

/-- The two chains are the handed-out nodes and the returned ones, each once, and the destructor
destroys every node once. -/
structure Apart (s : SlabPool) : Prop where
  live_chain : ∃ l, Linked s.next 0 s.live l ∧ l.Nodup ∧ ∀ n, n ∈ l ↔ s.out n = true
  free_chain : ∃ l, Linked s.next 0 s.free l ∧ l.Nodup ∧ ∀ n, n ∈ l ↔ s.Returned n
  disjoint : ∀ n, Linked.Reaches s.next 0 s.live n → ¬ Linked.Reaches s.next 0 s.free n
  destruct : ∃ fuel l, s.destruct fuel = some l ∧ l.Nodup ∧ ∀ n, n ∈ l ↔ n ≠ 0 ∧ n ≤ s.made

end SlabPool

open SlabPool

/-- The machine of one pool. -/
def slabPool : Machine SlabPool Call where
  init := construct
  step s a := some (s.call a)

end Naesala
