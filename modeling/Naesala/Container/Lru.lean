import Mathlib.Data.Finmap
import Naesala.Library.Machine

/-!
# `LRU`

The cache of `container/lru.h`. `cache_` is a `std::list` with the key used last in front, and
`index_` maps each key to its node there; an iterator is modelled as the node's identity, which
it keeps while the list around it is spliced. `Get` and `Set` move a node to the front by moving
the nodes before it to behind it.

`kNotExist_` is a reference: the cache keeps the address of the object that the constructor was
given, not its value. What `Get` returns is a reference too, to a node or to that object. What it
reads depends on the object, which belongs to the program around the cache (`Client`).

An operation is `none` where the program is undefined: an iterator to no node, or `back` and
`pop_back` of an empty list. So is reading a reference to an object whose lifetime is over.
-/

namespace Naesala

/-- A node of `cache_`; `id` stands for its address. -/
structure LruNode (K V : Type) where
  id : ℕ
  first : K
  second : V
  deriving DecidableEq

/-- The members of `LRU`, and the address of the next node. -/
structure Lru (K V : Type) where
  capacity : ℕ
  kNotExist : ℕ
  cache : List (LruNode K V)
  index : Finmap fun _ : K => ℕ
  nextId : ℕ

namespace Lru

variable {K V : Type} [DecidableEq K]

/-- The constructor. `notExist` is the address of its second argument. -/
def construct (capacity notExist : ℕ) : Lru K V := ⟨capacity, notExist, [], ∅, 0⟩

/-- What a `Value&` refers to: the value in a node of `cache_`, or an object outside the cache. -/
inductive Ref where
  | node (id : ℕ)
  | object (addr : ℕ)
  deriving DecidableEq

/-- Read a reference. `objects` has the values of the objects that are alive. -/
def Ref.read (objects : ℕ → Option V) (s : Lru K V) : Ref → Option V
  | .node id => (s.cache.find? fun n => n.id = id).map LruNode.second
  | .object addr => objects addr

/-- `cache.splice(std::next(ite, 1), cache, cache.begin(), ite)`: the nodes before `ite` go
behind it. -/
def spliceFront (cache : List (LruNode K V)) (ite : ℕ) : Option (List (LruNode K V)) :=
  match cache.span fun n => n.id ≠ ite with
  | (_, []) => none
  | (before, n :: after) => some (n :: (before ++ after))

/-- `Get`: the cache after it, and the reference that it returns. -/
def get (s : Lru K V) (key : K) : Option (Lru K V × Ref) :=
  match s.index.lookup key with
  | none => some (s, .object s.kNotExist)
  | some ite => do
    let cache ← spliceFront s.cache ite
    some ({ s with cache := cache }, .node ite)

/-- `ite->second = value`. -/
def assign (cache : List (LruNode K V)) (ite : ℕ) (value : V) : List (LruNode K V) :=
  cache.map fun n => if n.id = ite then { n with second := value } else n

/-- Make room: at capacity, drop the last node and its index entry. -/
def evict (s : Lru K V) : Option (Lru K V) :=
  if Multiset.card s.index.entries = s.capacity then do
    let back ← s.cache.getLast?
    some { s with index := s.index.erase back.first, cache := s.cache.dropLast }
  else some s

/-- `cache_.emplace_front(key, value)` and `index_.emplace(key, cache_.begin())`. -/
def emplaceFront (s : Lru K V) (key : K) (value : V) : Lru K V :=
  { s with
    cache := ⟨s.nextId, key, value⟩ :: s.cache
    index := if key ∈ s.index then s.index else s.index.insert key s.nextId
    nextId := s.nextId + 1 }

/-- `Set`. -/
def set (s : Lru K V) (key : K) (value : V) : Option (Lru K V) :=
  match s.index.lookup key with
  | some ite => do
    let cache ← spliceFront s.cache ite
    some { s with cache := assign cache ite value }
  | none => s.evict.map fun s => s.emplaceFront key value

/-- A call on the cache. -/
inductive Call (K V : Type) where
  | get (key : K)
  | set (key : K) (value : V)
  deriving DecidableEq

/-- A cache, and what its calls so far have done: the touches, the last first, and the value of
the last `Set` of each key. -/
structure Observed (K V : Type) where
  lru : Lru K V
  touches : List K
  lastSet : K → Option V

/-- Perform a call. A key is touched by a `Set` of it and by a `Get` that hits. -/
def Observed.step (s : Observed K V) : Call K V → Option (Observed K V)
  | .get key => (s.lru.get key).map fun (lru, _) =>
    { s with lru := lru, touches := if key ∈ s.lru.index then key :: s.touches else s.touches }
  | .set key value => (s.lru.set key value).map fun lru =>
    { lru := lru
      touches := key :: s.touches
      lastSet := Function.update s.lastSet key (some value) }

/-- The program around a cache: the objects of `Value` that are alive, with their values. -/
structure Client (K V : Type) where
  observed : Observed K V
  objects : ℕ → Option V

/-- A step of the program: a call, or a step in the life of one of its objects. -/
inductive Client.Action (K V : Type) where
  | call (a : Call K V)
  | create (addr : ℕ) (value : V)
  | write (addr : ℕ) (value : V)
  | finish (addr : ℕ)
  deriving DecidableEq

/-- The object whose life a step goes on with. -/
def Client.Action.object? : Client.Action K V → Option ℕ
  | .call _ => none
  | .create addr _ | .write addr _ | .finish addr => some addr

/-- Perform a step. -/
def Client.step (p : Client K V) : Client.Action K V → Option (Client K V)
  | .call a => (p.observed.step a).map fun o => { p with observed := o }
  | .create addr value =>
    if (p.objects addr).isNone then
      some { p with objects := Function.update p.objects addr (some value) }
    else none
  | .write addr value =>
    if (p.objects addr).isSome then
      some { p with objects := Function.update p.objects addr (some value) }
    else none
  | .finish addr =>
    if (p.objects addr).isSome then
      some { p with objects := Function.update p.objects addr none }
    else none

end Lru

open Lru

/-- The machine of one cache. -/
def lru (K V : Type) [DecidableEq K] (capacity notExist : ℕ) :
    Machine (Observed K V) (Call K V) where
  init := ⟨construct capacity notExist, [], fun _ => none⟩
  step := Observed.step

/-- The machine of a program that has just called the constructor, when `objects` were alive. A
temporary argument, the default `Value()` among them, is finished right after that. -/
def program (K V : Type) [DecidableEq K] (capacity notExist : ℕ) (objects : ℕ → Option V) :
    Machine (Client K V) (Client.Action K V) where
  init := ⟨(lru K V capacity notExist).init, objects⟩
  step := Client.step

end Naesala
