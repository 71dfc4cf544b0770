import Mathlib.Logic.Function.Basic
import Naesala.Library.Linked
import Naesala.Library.Machine

/-!
# `List`

Any number of lists of `container/list.h`, whose nodes share one heap of `next` links. The
members are read as node pointers, which is what their uses take them for (`_end` is declared as
a `T`). A node that is in no list may have any link; nothing allocates or frees one here.

An operation is `none` where the program writes to `next` of a null pointer.
-/

namespace Naesala

/-- The links of all nodes, and `_start` and `_end` of every list. -/
structure Lists (ι ν : Type) where
  next : ν → ν
  start : ι → ν
  «end» : ι → ν

namespace Lists

variable {ι ν : Type} [DecidableEq ι] [DecidableEq ν] (null : ν)

/-- No list has a node yet. -/
def construct : Lists ι ν := ⟨fun _ => null, fun _ => null, fun _ => null⟩

/-- `empty`. -/
def empty (s : Lists ι ν) (l : ι) : Bool := decide (null = s.start l)

/-- `front`. -/
def front (s : Lists ι ν) (l : ι) : ν := s.start l

/-- `node->next = link`. -/
def setNext (s : Lists ι ν) (node link : ν) : Option (Lists ι ν) :=
  if node = null then none else some { s with next := Function.update s.next node link }

/-- `_start = node` of list `l`. -/
def setStart (s : Lists ι ν) (l : ι) (node : ν) : Lists ι ν :=
  { s with start := Function.update s.start l node }

/-- `_end = node` of list `l`. -/
def setEnd (s : Lists ι ν) (l : ι) (node : ν) : Lists ι ν :=
  { s with «end» := Function.update s.end l node }

/-- `push`. -/
def push (s : Lists ι ν) (l : ι) (node : ν) : Option (Lists ι ν) := do
  let s ← s.setNext null node null
  if !s.empty null l then do
    let s ← s.setNext null (s.end l) node
    some (s.setEnd l node)
  else
    some ((s.setStart l node).setEnd l node)

/-- `append` of list `m` to list `l`. -/
def append (s : Lists ι ν) (l m : ι) : Option (Lists ι ν) :=
  if s.empty null m then some s
  else do
    let s ←
      if s.empty null l then some (s.setStart l (s.start m))
      else s.setNext null (s.end l) (s.start m)
    let s := s.setEnd l (s.end m)
    some ((s.setStart m null).setEnd m null)

/-- `pop`: the lists after it, and the node it returns. -/
def pop (s : Lists ι ν) (l : ι) : Option (Lists ι ν × ν) :=
  let node := s.start l
  if !s.empty null l then do
    let s := s.setStart l (s.next (s.start l))
    let s := if null = s.start l then s.setEnd l null else s
    let s ← s.setNext null node null
    some (s, node)
  else
    some (s, node)

/-- The destructor of list `l`: the nodes given to `_destory`, in order. It is `none` where `fuel`
is not enough. -/
def destruct (l : ι) : ℕ → Lists ι ν → Option (List ν)
  | 0, _ => none
  | fuel + 1, s =>
    if s.start l ≠ s.end l then do
      let (s, node) ← s.pop null l
      let rest ← destruct l fuel s
      some (node :: rest)
    else
      some []

/-- A call on one of the lists. -/
inductive Call (ι ν : Type) where
  | push (l : ι) (node : ν)
  | append (l m : ι)
  | pop (l : ι)
  deriving DecidableEq

/-- Perform a call. Only `pop` returns something. -/
def call (s : Lists ι ν) : Call ι ν → Option (Lists ι ν × Option ν)
  | .push l node => (s.push null l node).map fun s => (s, none)
  | .append l m => (s.append null l m).map fun s => (s, none)
  | .pop l => (s.pop null l).map fun (s, node) => (s, some node)

/-! ## What the lists stand for -/

/-- The same call on sequences of nodes. -/
def Call.onSequences (c : ι → List ν) : Call ι ν → (ι → List ν) × Option ν
  | .push l node => (Function.update c l (c l ++ [node]), none)
  | .append l m => (Function.update (Function.update c l (c l ++ c m)) m [], none)
  | .pop l => (Function.update c l (c l).tail, some ((c l).headD null))

/-- The sequences after the calls, the last one in front, and what the calls returned. -/
def replay : List (Call ι ν) → (ι → List ν) × List (Option ν)
  | [] => (fun _ => [], [])
  | a :: as =>
    let (c, results) := replay as
    let (c, result) := a.onSequences null c
    (c, result :: results)

/-- The lists, with the calls so far and their results, the last ones in front. -/
structure Observed (ι ν : Type) where
  lists : Lists ι ν
  calls : List (Call ι ν)
  results : List (Option ν)

/-- The calls a client may make: a node that is pushed is in no list, and no list is appended to
itself. -/
def Allowed (o : Observed ι ν) : Call ι ν → Prop
  | .push _ node => node ≠ null ∧ ∀ k, ¬ Linked.Reaches o.lists.next null (o.lists.start k) node
  | .append l m => l ≠ m
  | .pop _ => True

/-- The destructor of list `l` comes to its end, and destroys each node of the list once and no
other node. -/
def FreesAll (s : Lists ι ν) (l : ι) : Prop :=
  ∃ fuel d, destruct null l fuel s = some d ∧ d.Nodup ∧
    ∀ n, n ∈ d ↔ Linked.Reaches s.next null (s.start l) n

end Lists

open Naesala.Lists

/-- The machine of all lists. -/
def lists (ι ν : Type) [DecidableEq ι] [DecidableEq ν] (null : ν) :
    Machine (Observed ι ν) (Call ι ν) where
  init := ⟨construct null, [], []⟩
  step o a := (o.lists.call null a).map fun (s, result) => ⟨s, a :: o.calls, result :: o.results⟩

end Naesala
