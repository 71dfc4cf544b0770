import Mathlib.Data.List.Basic
import Mathlib.Data.Nat.Bitwise
import Mathlib.Logic.Function.Basic
import Mathlib.Order.Lattice

/-!
# `chain_hash_map`

The hash map of `third/ulib/hash_chain.h` and of the C code that `third/ulib/hash_chain_prot.h`
declares for it (`ismap` is `1`). Each bucket is a chain of entries, linked by `next`. A snapshot is
a second list through the entries, linked by `snap`, which iteration follows once it is taken;
`sort` sorts it.

An entry is the number of its address, and `0` is the null pointer. `live` are the entries that are
allocated. Each call that allocates gets what `malloc` returns in it. An operation is `none` where
it reads an entry that is not allocated, or a loop does not end: `fuel` is one more than the number
of entries.

`equalfn` is the equality of keys, and `cmpfn` compares them by their order.
-/

namespace Naesala

/-- The members of the table, and the memory of its entries. -/
structure ChainHash (K V : Type) where
  mask : ℕ
  tbl : List ℕ
  snap : ℕ
  next : ℕ → ℕ
  /-- The member `snap` of an entry. -/
  link : ℕ → ℕ
  key : ℕ → K
  val : ℕ → V
  live : List ℕ

namespace ChainHash

/-- `chainhash_itr`. -/
structure Itr where
  entry : ℕ
  parent : ℕ
  index : ℕ
  deriving DecidableEq

/-- What `chainhash_init` makes of the least number of chains, as a `size_t`. -/
def maskOf (min : ℕ) : ℕ :=
  let min := (min + (2 ^ 64 - 1)) % 2 ^ 64
  let min := min ||| min >>> 1
  let min := min ||| min >>> 2
  let min := min ||| min >>> 4
  let min := min ||| min >>> 8
  let min := min ||| min >>> 16
  min ||| min >>> 32

/-- `chainhash_init`. Entries hold anything before they are allocated. -/
def construct (K V : Type) [Inhabited K] [Inhabited V] (min : ℕ) : ChainHash K V where
  mask := maskOf min
  tbl := List.replicate ((maskOf min + 1) % 2 ^ 64) 0
  snap := 0
  next := fun _ => 0
  link := fun _ => 0
  key := fun _ => default
  val := fun _ => default
  live := []

variable {K V : Type}

/-- `chainhash_nbucket`. -/
def nbucket (h : ChainHash K V) : ℕ := h.mask + 1

/-- `tbl[i]`. -/
def head (h : ChainHash K V) (i : ℕ) : ℕ := h.tbl.getD i 0

/-- As many turns as a loop over entries can take. -/
def turns (h : ChainHash K V) : ℕ := h.live.length + 1

section

variable [DecidableEq K] (hashfn : K → ℕ)

/-- The index of the chain of a key. -/
def indexOf (h : ChainHash K V) (key : K) : ℕ := hashfn key &&& h.mask

/-! ## Lookup -/

/-- The loop of `chainhash_get`: the entry it stops at, and the one before it. -/
def getLoop (h : ChainHash K V) (key : K) : ℕ → ℕ → ℕ → Option (ℕ × ℕ)
  | 0, _, _ => none
  | fuel + 1, p, e =>
    if e = 0 then some (e, p)
    else if e ∉ h.live then none
    else if key = h.key e then some (e, p)
    else getLoop h key fuel e (h.next e)

/-- `chainhash_get`. -/
def get (h : ChainHash K V) (key : K) : Option Itr :=
  let i := h.indexOf hashfn key
  (h.getLoop key h.turns 0 (h.head i)).map fun (e, p) => ⟨e, p, i⟩

/-! ## Updates -/

/-- The new entry `addr`. -/
def alloc (h : ChainHash K V) (addr next : ℕ) (key : K) : ChainHash K V :=
  { h with
    next := Function.update h.next addr next
    link := Function.update h.link addr 0
    key := Function.update h.key addr key
    live := addr :: h.live }

/-- `chainhash_value(itr) = val`. -/
def setVal (h : ChainHash K V) (e : ℕ) (val : V) : ChainHash K V :=
  { h with val := Function.update h.val e val }

/-- `chainhash_set`: a new entry at the head of the chain. -/
def set (h : ChainHash K V) (addr : ℕ) (key : K) : ChainHash K V × Itr :=
  let i := h.indexOf hashfn key
  if addr = 0 then (h, ⟨0, 0, i⟩)
  else ({ h.alloc addr (h.head i) key with tbl := h.tbl.set i addr }, ⟨addr, 0, i⟩)

/-- `chainhash_set_uniq`: a new entry at the end of the chain, if there is none with the key; and
`*exist`. -/
def setUniq (h : ChainHash K V) (addr : ℕ) (key : K) : Option (ChainHash K V × Itr × Bool) :=
  (h.get hashfn key).map fun itr =>
    if itr.entry = 0 then
      if addr = 0 then (h, itr, false)
      else
        let h' := h.alloc addr 0 key
        (if itr.parent ≠ 0 then { h' with next := Function.update h'.next itr.parent addr }
          else { h' with tbl := h'.tbl.set itr.index addr },
          { itr with entry := addr }, false)
    else (h, itr, true)

/-- `chainhash_del`. -/
def del (h : ChainHash K V) (itr : Itr) : Option (ChainHash K V) :=
  if itr.entry = 0 then some h
  else if itr.entry ∉ h.live then none
  else if itr.parent = 0 then
    some { h with
      tbl := h.tbl.set itr.index (h.next itr.entry)
      live := h.live.erase itr.entry }
  else if itr.parent ∉ h.live then none
  else
    some { h with
      next := Function.update h.next itr.parent (h.next itr.entry)
      live := h.live.erase itr.entry }

/-- The inner loop of `chainhash_clear`: the entries that are still allocated after it. -/
def freeLoop (h : ChainHash K V) : ℕ → ℕ → List ℕ → Option (List ℕ)
  | 0, _, _ => none
  | fuel + 1, e, live =>
    if e = 0 then some live
    else if e ∉ live then none
    else freeLoop h fuel (h.next e) (live.erase e)

/-- `chainhash_clear`. -/
def clear (h : ChainHash K V) : Option (ChainHash K V) :=
  (h.tbl.foldlM (fun live e => h.freeLoop h.turns e live) h.live).map fun live =>
    { h with snap := 0, tbl := h.tbl.map fun _ => 0, live }

/-! ## Iteration -/

/-- The first of `n` buckets from `i` on that has a chain, or the one after them. -/
def skip (h : ChainHash K V) : ℕ → ℕ → ℕ
  | 0, i => i
  | n + 1, i => if h.head i ≠ 0 then i else skip h n (i + 1)

/-- The entry before the first one with the key in a chain that has one. -/
def parentLoop (h : ChainHash K V) (key : K) : ℕ → ℕ → ℕ → Option ℕ
  | 0, _, _ => none
  | fuel + 1, p, e =>
    if e ∉ h.live then none
    else if key = h.key e then some p
    else parentLoop h key fuel e (h.next e)

/-- The iterator at entry `e` of the snapshot. -/
def itrAt (h : ChainHash K V) (e : ℕ) : Option Itr :=
  if e ∉ h.live then none
  else
    let i := h.indexOf hashfn (h.key e)
    (h.parentLoop (h.key e) h.turns 0 (h.head i)).map fun p => ⟨e, p, i⟩

/-- `chainhash_iterator`. -/
def iterator (h : ChainHash K V) : Option Itr :=
  if h.snap ≠ 0 then h.itrAt hashfn h.snap
  else
    let i := h.skip (h.mask + 1) 0
    some ⟨if i ≤ h.mask then h.head i else 0, 0, i⟩

/-- `chainhash_advance`, and whether it returns `0`. -/
def advance (h : ChainHash K V) (itr : Itr) : Option (Itr × Bool) :=
  if itr.entry = 0 then some (itr, false)
  else if itr.entry ∉ h.live then none
  else if h.snap ≠ 0 then
    if h.link itr.entry = 0 then some ({ itr with entry := 0 }, true)
    else (h.itrAt hashfn (h.link itr.entry)).map fun itr => (itr, true)
  else if h.next itr.entry ≠ 0 then
    some ({ itr with parent := itr.entry, entry := h.next itr.entry }, true)
  else if itr.index < h.mask then
    let i := h.skip (h.mask - itr.index) (itr.index + 1)
    if i ≤ h.mask then some (⟨h.head i, 0, i⟩, true) else some (itr, false)
  else some (itr, false)

/-- `operator++` of an iterator. -/
def increment (h : ChainHash K V) (itr : Itr) : Option Itr :=
  (h.advance hashfn itr).map fun (itr, ok) => if ok then itr else { itr with entry := 0 }

/-- The entries from an iterator to `end`, with `fuel` tests for `end`. -/
def visit (h : ChainHash K V) : ℕ → Itr → Option (List ℕ)
  | 0, _ => none
  | fuel + 1, itr =>
    if itr.entry = 0 then some []
    else do
      let itr' ← h.increment hashfn itr
      let rest ← visit h fuel itr'
      some (itr.entry :: rest)

/-- The entries that `for (it = begin(); it != end(); ++it)` visits. -/
def traverse (h : ChainHash K V) : Option (List ℕ) :=
  (h.iterator hashfn).bind fun itr => h.visit hashfn h.turns itr

/-- `key` and `value` of an iterator at the entry. -/
def pair (h : ChainHash K V) (e : ℕ) : K × V := (h.key e, h.val e)

end

/-! ## Snapshots -/

/-- The loop of `chainhash_snap`: the links after it. -/
def snapLoop (h : ChainHash K V) : ℕ → (ℕ → ℕ) → ℕ → ℕ → ℕ → Option (ℕ → ℕ)
  | 0, _, _, _, _ => none
  | fuel + 1, link, last, cur, i =>
    if cur ∉ h.live then none
    else
      let link := Function.update link last cur
      if h.next cur ≠ 0 then snapLoop h fuel link cur (h.next cur) i
      else
        let j := h.skip (h.mask - i) (i + 1)
        if i < h.mask ∧ j ≤ h.mask then snapLoop h fuel link cur (h.head j) j
        else some (Function.update link cur 0)

/-- `chainhash_snap`. -/
def snapshot (h : ChainHash K V) : Option (ChainHash K V) :=
  let i := h.skip (h.mask + 1) 0
  if i ≤ h.mask then
    (h.snapLoop h.turns h.link (h.head i) (h.head i) i).map fun link =>
      { h with snap := h.head i, link }
  else some h

section

variable [LinearOrder K]

/-- `cmpfn(a->key, b->key) <= 0`. -/
def le (h : ChainHash K V) (a b : ℕ) : Bool := h.key a ≤ h.key b

/-- `tail->snap = e`, where `tail` may be the variable `head`, for which `0` stands. -/
def attach (link : ℕ → ℕ) (head tail e : ℕ) : (ℕ → ℕ) × ℕ :=
  if tail = 0 then (link, e) else (Function.update link tail e, head)

/-- The loop of `__chainhash_merge`, and what follows it: the links, and `head`. -/
def mergeLoop (h : ChainHash K V) :
    ℕ → (ℕ → ℕ) → ℕ → ℕ → ℕ → ℕ → Option ((ℕ → ℕ) × ℕ)
  | 0, _, _, _, _, _ => none
  | fuel + 1, link, head, tail, a, b =>
    if a ≠ 0 ∧ b ≠ 0 then
      if a ∉ h.live ∨ b ∉ h.live then none
      else if h.le a b then
        let (link, head) := attach link head tail a
        mergeLoop h fuel link head a (link a) b
      else
        let (link, head) := attach link head tail b
        mergeLoop h fuel link head b a (link b)
    else some (attach link head tail (if a ≠ 0 then a else b))

/-- `__chainhash_merge`. -/
def merge (h : ChainHash K V) (link : ℕ → ℕ) (a b : ℕ) : Option ((ℕ → ℕ) × ℕ) :=
  h.mergeLoop h.turns link 0 0 a b

/-- The inner loop of `chainhash_sort` from level `lev` on, where `part` are the lists from there:
the links, the lists, and the level it stops at. It is `none` behind the array. -/
def carry (h : ChainHash K V) :
    (ℕ → ℕ) → ℕ → ℕ → List ℕ → Option ((ℕ → ℕ) × List ℕ × ℕ)
  | _, _, _, [] => none
  | link, cur, lev, p :: part =>
    if p = 0 then some (link, cur :: part, lev)
    else
      (h.merge link p cur).bind fun (link, cur) =>
        (carry h link cur (lev + 1) part).map fun (link, part, lev) => (link, 0 :: part, lev)

/-- The outer loop of `chainhash_sort`: the links, `part` and `max_lev`. -/
def sortLoop (h : ChainHash K V) :
    ℕ → (ℕ → ℕ) → List ℕ → ℕ → ℕ → Option ((ℕ → ℕ) × List ℕ × ℕ)
  | 0, _, _, _, _ => none
  | fuel + 1, link, part, maxLev, list =>
    if list = 0 then some (link, part, maxLev)
    else if list ∉ h.live then none
    else
      (h.carry (Function.update link list 0) list 0 part).bind fun (link', part, lev) =>
        sortLoop h fuel link' part (if lev > maxLev then lev else maxLev) (link list)

/-- The last loop of `chainhash_sort`, over the levels up to `max_lev`. -/
def collect (h : ChainHash K V) : (ℕ → ℕ) → List ℕ → ℕ → Option ((ℕ → ℕ) × ℕ)
  | link, [], list => some (link, list)
  | link, p :: part, list =>
    if p ≠ 0 then (h.merge link p list).bind fun (link, list) => collect h link part list
    else collect h link part list

/-- `chainhash_sort`. -/
def sort (h : ChainHash K V) : Option (ChainHash K V) :=
  if h.snap = 0 then some h
  else
    (h.sortLoop h.turns h.link (List.replicate 65 0) 0 h.snap).bind fun (link, part, maxLev) =>
      (h.collect link (part.take (maxLev + 1)) 0).map fun (link, list) =>
        { h with snap := list, link }

end

/-! ## The class -/

section

variable [DecidableEq K] (hashfn : K → ℕ)

/-- `find`, and the value it refers to, if it is not `end`. -/
def find (h : ChainHash K V) (key : K) : Option (Option V) :=
  (h.get hashfn key).map fun itr => if itr.entry = 0 then none else some (h.val itr.entry)

/-- `contain`. -/
def contain (h : ChainHash K V) (key : K) : Option Bool :=
  (h.get hashfn key).map fun itr => itr.entry ≠ 0

/-- `insert`: the table, and the entry of the iterator, unless it throws. -/
def insert (h : ChainHash K V) (addr : ℕ) (key : K) (val : V) : ChainHash K V × Option ℕ :=
  let (h, itr) := h.set hashfn addr key
  if itr.entry = 0 then (h, none) else (h.setVal itr.entry val, some itr.entry)

/-- `find_or_insert`. -/
def findOrInsert (h : ChainHash K V) (addr : ℕ) (key : K) (val : V) :
    Option (ChainHash K V × Option ℕ) :=
  (h.setUniq hashfn addr key).map fun (h, itr, exist) =>
    if itr.entry = 0 then (h, none)
    else if exist then (h, some itr.entry)
    else (h.setVal itr.entry val, some itr.entry)

/-- `map[key] = val`. -/
def indexAssign [Inhabited V] (h : ChainHash K V) (addr : ℕ) (key : K) (val : V) :
    Option (ChainHash K V × Option ℕ) :=
  (h.findOrInsert hashfn addr key default).map fun (h, itr) =>
    match itr with
    | some e => (h.setVal e val, some e)
    | none => (h, none)

/-- `erase`. -/
def erase (h : ChainHash K V) (key : K) : Option (ChainHash K V) :=
  (h.get hashfn key).bind h.del

/-- `size`. -/
def size (h : ChainHash K V) : Option ℕ := (h.traverse hashfn).map List.length

/-- The insertions of the copy constructor and of `operator=`. The calls of `malloc` return `addrs`.
It is `none` where one of them throws. -/
def insertEach (h : ChainHash K V) : List (K × V) → List ℕ → Option (ChainHash K V)
  | [], _ => some h
  | _ :: _, [] => none
  | kv :: kvs, addr :: addrs =>
    match h.insert hashfn addr kv.1 kv.2 with
    | (_, none) => none
    | (h, some _) => insertEach h kvs addrs

/-- The copy constructor. -/
def copyConstruct [Inhabited K] [Inhabited V] (other : ChainHash K V) (addrs : List ℕ) :
    Option (ChainHash K V) :=
  (other.traverse hashfn).bind fun es =>
    (construct K V other.nbucket).insertEach hashfn (es.map other.pair) addrs

/-- `operator=` from another object. -/
def copyAssign (h other : ChainHash K V) (addrs : List ℕ) : Option (ChainHash K V) :=
  h.clear.bind fun h =>
    (other.traverse hashfn).bind fun es => h.insertEach hashfn (es.map other.pair) addrs

end

end ChainHash

end Naesala
