import Naesala.Library.Probing

/-!
# `align_hash_map`

The hash map of `third/alignhash.h` and of the C code that `third/alignhash_tpl.h` declares for it
(`_ismap` is `1`). Buckets are probed with a step, two bits of a packed array say of each whether it
has data, is deleted or is empty, and `resize` moves the elements about in the arrays they are in.
It loses the elements that it meets there: `AH_SWAP` does not swap.

`Probing` is what `AH_TIER_PROBING` selects. Arrays are lists, in which `none` is memory that has
not been written; what the program reads there is undefined. Numbers of buckets are natural numbers:
no table is so large that they leave 64 bits. Each call gets what `malloc` and `realloc` will return
in it. An operation is `none` where a loop does not end, or a key that is not there is hashed.
-/

namespace Naesala

namespace AlignHash

/-! ## Flags -/

/-- Two bits for each bucket, 32 buckets to a word: `0` has data, `1` is deleted, `2` is empty. -/
abbrev Flags := List (BitVec 64)

namespace Flags

variable (flag : Flags) (i : ℕ)

/-- `flag[i >> 5]`. -/
def word : BitVec 64 := flag.getD (i >>> 5) 0

/-- `(i & 0x1fU) << 1`. -/
def shift : ℕ := (i &&& 0x1f) <<< 1

/-- `AH_ISDEL`. -/
def isDel : Bool := (flag.word i >>> shift i) &&& 1#64 ≠ 0

/-- `AH_ISEMPTY`. -/
def isEmpty : Bool := (flag.word i >>> shift i) &&& 2#64 ≠ 0

/-- `AH_ISEITHER`. -/
def isEither : Bool := (flag.word i >>> shift i) &&& 3#64 ≠ 0

/-- `AH_CLEAR_EMPTY`. -/
def clearEmpty : Flags := flag.set (i >>> 5) (flag.word i &&& ~~~(2#64 <<< shift i))

/-- `AH_CLEAR_BOTH`. -/
def clearBoth : Flags := flag.set (i >>> 5) (flag.word i &&& ~~~(3#64 <<< shift i))

/-- `AH_SET_DEL`. -/
def setDel : Flags := flag.set (i >>> 5) (flag.word i ||| 1#64 <<< shift i)

/-- `AH_FLAGS_BYTE`. -/
def bytes (nbucket : ℕ) : ℕ := if nbucket < 32 then 8 else nbucket >>> 2

/-- `memset(flags, 0xaa, AH_FLAGS_BYTE(nbucket))`. -/
def allEmpty (nbucket : ℕ) : Flags := List.replicate (bytes nbucket / 8) 0xaaaaaaaaaaaaaaaa#64

end Flags

/-! ## Probing -/

/-- `AH_PROBE_STEP`, and the upper bound `(ah_size_t)(n * AH_LOAD_FACTOR + 0.5)` for `n` buckets. -/
structure Probing where
  probeStep : ℕ → ℕ
  upperBound : ℕ → ℕ
  odd_probeStep : ∀ h, probeStep h % 2 = 1
  upperBound_two : 0 < upperBound 2
  upperBound_le : ∀ e, upperBound (2 ^ (e + 1)) ≤ 2 ^ (e + 1)
  upperBound_lt : ∀ e, upperBound (2 ^ (e + 1)) < upperBound (2 ^ (e + 2))

/-- Linear probing, with a load factor of `0.5`. -/
def linear : Probing where
  probeStep _ := 1
  upperBound n := (n + 1) / 2
  odd_probeStep _ := rfl
  upperBound_two := by decide
  upperBound_le e := by
    have hpos := Nat.one_le_two_pow (n := e + 1)
    omega
  upperBound_lt e := by
    have hpos := Nat.one_le_two_pow (n := e)
    have hone : 2 ^ (e + 1) = 2 * 2 ^ e := Nat.pow_succ'
    have htwo : 2 ^ (e + 2) = 2 * 2 ^ (e + 1) := Nat.pow_succ'
    rw [htwo, hone]
    omega

/-- Tier probing, with a load factor of `0.8`, which is `3602879701896397 / 2 ^ 52` as a `double`.
-/
def tier : Probing where
  probeStep h := h &&& 7 ||| 1
  upperBound n := (n * 3602879701896397 + 2 ^ 51) / 2 ^ 52
  odd_probeStep h := by
    rw [← Nat.and_one_is_mod, Nat.and_or_distrib_right, Nat.and_one_is_mod]
    rcases Nat.mod_two_eq_zero_or_one (h &&& 7) with hmod | hmod <;> rw [hmod] <;> rfl
  upperBound_two := by decide
  upperBound_le e := by
    have hpos := Nat.one_le_two_pow (n := e + 1)
    omega
  upperBound_lt e := by
    have hpos := Nat.one_le_two_pow (n := e)
    have hone : 2 ^ (e + 1) = 2 * 2 ^ e := Nat.pow_succ'
    have htwo : 2 ^ (e + 2) = 2 * 2 ^ (e + 1) := Nat.pow_succ'
    rw [htwo, hone]
    omega

/-! ## The table -/

/-- What the calls of `malloc` and `realloc` for the flags, the keys and the values will return. -/
structure Memory where
  flags : Bool
  keys : Bool
  vals : Bool
  deriving DecidableEq

/-- Enough memory. -/
def Memory.ample : Memory := ⟨true, true, true⟩

/-- What a call of `alignhash_set` has done. -/
inductive Ret where
  | err
  | new
  | del
  deriving DecidableEq

end AlignHash

open AlignHash

/-- `alignhash_inclass_t`. Besides its members, `lost` has the keys that `alignhash_resize` has lost
so far; no function reads it. -/
structure AlignHash (K V : Type) where
  nbucket : ℕ
  size : ℕ
  nused : ℕ
  sup : ℕ
  flags : Flags
  keys : List (Option K)
  vals : List (Option V)
  lost : List K

namespace AlignHash

variable {K V : Type} [DecidableEq K] (P : Probing) (hashfn : K → ℕ)

/-- `alignhash_init`. -/
def construct (K V : Type) : AlignHash K V := ⟨0, 0, 0, 0, [], [], [], []⟩

/-- The key in bucket `i`. -/
def keyAt (keys : List (Option K)) (i : ℕ) : Option K := keys.getD i none

/-- `alignhash_clear`. -/
def clear (h : AlignHash K V) : AlignHash K V :=
  if h.flags = [] then h
  else { h with flags := Flags.allEmpty h.nbucket, size := 0, nused := 0 }

/-- The loop condition of `alignhash_get` and `alignhash_set`. -/
def probing (h : AlignHash K V) (key : K) (i : ℕ) : Bool :=
  !h.flags.isEmpty i && (h.flags.isDel i || keyAt h.keys i ≠ some key)

/-- `alignhash_get`. -/
def get (h : AlignHash K V) (key : K) : Option ℕ :=
  if h.nbucket ≠ 0 then
    let mask := h.nbucket - 1
    let k := hashfn key
    let i := k &&& mask
    let step := P.probeStep k
    let last := i
    (turn (h.probing key) (fun i => (i + step) &&& mask) (fun u _ => u) last h.nbucket i ()).map
      fun (i, _, wrapped) =>
        if wrapped then h.nbucket else if h.flags.isEmpty i then h.nbucket else i
  else some 0

/-! ## `alignhash_resize` -/

/-- `realloc` of an array to `n` elements. -/
def resized {α : Type} (array : List (Option α)) (n : ℕ) : List (Option α) :=
  (array ++ List.replicate (n - array.length) none).take n

/-- What the loops of `alignhash_resize` work on, and the keys that have been lost. -/
structure Rehash (K V : Type) where
  flags : Flags
  newFlags : Flags
  keys : List (Option K)
  vals : List (Option V)
  lost : List K

/-- The bucket that `key` goes to: the first one of its probe that is empty in `new_flags`. -/
def Rehash.place (r : Rehash K V) (newNbucket : ℕ) (key : K) : Option ℕ :=
  let newMask := newNbucket - 1
  let k := hashfn key
  scan (fun i => !r.newFlags.isEmpty i) (fun i => (i + P.probeStep k) &&& newMask) newNbucket
    (k &&& newMask)

/-- The loop `for (;;)`: place an element, and where another one was, place it once more.

`AH_SWAP(h->keys[i], key)` is meant to go on with the element that was there. Its `__tmp` has the
type `decltype(h->keys[i])`, a reference to the bucket: after the bucket has become `key`, `key`
becomes what is in the bucket. So `key` stays as it is, and the other element is lost. -/
def Rehash.kickOut (nbucket newNbucket : ℕ) :
    ℕ → Rehash K V → K → Option V → Option (Rehash K V)
  | 0, _, _, _ => none
  | fuel + 1, r, key, val => do
    let i ← r.place P hashfn newNbucket key
    let newFlags := r.newFlags.clearEmpty i
    let keys := r.keys.set i (some key)
    let vals := r.vals.set i val
    if i < nbucket ∧ r.flags.isEither i = false then
      let lost := (keyAt r.keys i).toList ++ r.lost
      Rehash.kickOut nbucket newNbucket fuel ⟨r.flags.setDel i, newFlags, keys, vals, lost⟩ key val
    else some ⟨r.flags, newFlags, keys, vals, r.lost⟩

/-- One turn of the loop over the old buckets. -/
def Rehash.bucket (nbucket newNbucket : ℕ) (r : Rehash K V) (j : ℕ) : Option (Rehash K V) :=
  if r.flags.isEither j = false then do
    let key ← keyAt r.keys j
    Rehash.kickOut P hashfn nbucket newNbucket (nbucket + 1) { r with flags := r.flags.setDel j } key
      (r.vals.getD j none)
  else some r

/-- The end of `alignhash_resize`: the loop over the old buckets, and what follows. -/
def rehash (h : AlignHash K V) (newNbucket : ℕ) (mem : Memory) : Option (AlignHash K V) := do
  let r ← (List.range h.nbucket).foldlM
    (Rehash.bucket P hashfn h.nbucket newNbucket)
    ⟨h.flags, Flags.allEmpty newNbucket, h.keys, h.vals, h.lost⟩
  let shrinks := decide (newNbucket < h.nbucket)
  some
    { nbucket := newNbucket
      size := h.size
      nused := h.size
      sup := P.upperBound newNbucket
      flags := r.newFlags
      keys := if shrinks && mem.keys then resized r.keys newNbucket else r.keys
      vals := if shrinks && mem.vals then resized r.vals newNbucket else r.vals
      lost := r.lost }

/-- `alignhash_resize`: the table, and whether the result is `0`. -/
def resize (h : AlignHash K V) (newNbucket : ℕ) (mem : Memory) : Option (AlignHash K V × Bool) :=
  if h.size ≥ P.upperBound newNbucket then some (h, false)
  else if mem.flags = false then some (h, false)
  else if h.nbucket < newNbucket then
    if mem.keys = false then some (h, false)
    else
      let h := { h with keys := resized h.keys newNbucket }
      if mem.vals = false then some (h, false)
      else
        let h := { h with vals := resized h.vals newNbucket }
        (h.rehash P hashfn newNbucket mem).map fun h => (h, true)
  else (h.rehash P hashfn newNbucket mem).map fun h => (h, true)

/-! ## `alignhash_set` and `alignhash_del` -/

/-- The beginning of `alignhash_set`: the table, and whether it goes on. -/
def room (h : AlignHash K V) (mem : Memory) : Option (AlignHash K V × Bool) :=
  if h.nused ≥ h.sup then
    h.resize P hashfn (if h.nbucket ≠ 0 then h.nbucket * 2 else 2) mem
  else some (h, true)

/-- The bucket `x` of `alignhash_set`. -/
def site (h : AlignHash K V) (key : K) : Option ℕ :=
  let mask := h.nbucket - 1
  let k := hashfn key
  let i := k &&& mask
  if h.flags.isEmpty i then some i
  else
    let step := P.probeStep k
    let last := i
    (turn (h.probing key) (fun i => (i + step) &&& mask)
      (fun site i => if h.flags.isDel i then i else site) last h.nbucket i h.nbucket).map
        fun (i, site, wrapped) =>
          let x := if wrapped then site else h.nbucket
          if x = h.nbucket then if h.flags.isEmpty i ∧ site ≠ h.nbucket then site else i else x

/-- The end of `alignhash_set`. -/
def occupy (h : AlignHash K V) (key : K) (x : ℕ) : AlignHash K V × Ret :=
  if h.flags.isEmpty x then
    ({ h with
      keys := h.keys.set x (some key)
      flags := h.flags.clearBoth x
      size := h.size + 1
      nused := h.nused + 1 }, .new)
  else if h.flags.isDel x then
    ({ h with
      keys := h.keys.set x (some key)
      flags := h.flags.clearBoth x
      size := h.size + 1 }, .del)
  else (h, .err)

/-- `alignhash_set`: the table, the iterator, and `*ret`. -/
def set (h : AlignHash K V) (key : K) (mem : Memory) : Option (AlignHash K V × ℕ × Ret) := do
  let (h, ok) ← h.room P hashfn mem
  if ok then
    let x ← h.site P hashfn key
    let (h, ret) := h.occupy key x
    some (h, x, ret)
  else some (h, h.nbucket, .err)

/-- `alignhash_del`. -/
def del (h : AlignHash K V) (x : ℕ) : AlignHash K V :=
  if x ≠ h.nbucket ∧ h.flags.isEither x = false then
    { h with flags := h.flags.setDel x, size := h.size - 1 }
  else h

/-! ## The class -/

/-- `insert`: the table and the iterator, or no iterator where it throws. -/
def insert (h : AlignHash K V) (key : K) (val : V) (displace : Bool) (mem : Memory) :
    Option (AlignHash K V × Option ℕ) := do
  let (h, itr, ret) ← h.set P hashfn key mem
  if itr = h.nbucket then some (h, none)
  else if ret ≠ .err ∨ displace then some ({ h with vals := h.vals.set itr (some val) }, some itr)
  else some (h, some itr)

/-- `find_or_insert`. -/
def findOrInsert (h : AlignHash K V) (key : K) (val : V) (mem : Memory) :
    Option (AlignHash K V × Option ℕ) := do
  let (h, itr, ret) ← h.set P hashfn key mem
  if itr = h.nbucket then some (h, none)
  else if ret ≠ .err then some ({ h with vals := h.vals.set itr (some val) }, some itr)
  else some (h, some itr)

/-- `map[key] = val`. -/
def indexAssign [Inhabited V] (h : AlignHash K V) (key : K) (val : V) (mem : Memory) :
    Option (AlignHash K V × Option ℕ) := do
  let (h, itr) ← h.findOrInsert P hashfn key default mem
  match itr with
  | some itr => some ({ h with vals := h.vals.set itr (some val) }, some itr)
  | none => some (h, none)

/-- `find`, and the value it refers to, if it is not `end`. -/
def find (h : AlignHash K V) (key : K) : Option (Option V) :=
  (h.get P hashfn key).map fun itr => if itr = h.nbucket then none else h.vals.getD itr none

/-- `contain`. -/
def contain (h : AlignHash K V) (key : K) : Option Bool :=
  (h.get P hashfn key).map fun itr => itr ≠ h.nbucket

/-- `erase`. -/
def erase (h : AlignHash K V) (key : K) : Option (AlignHash K V) :=
  (h.get P hashfn key).map h.del

/-! ## Iterators -/

/-- `alignhash_exist`. An iterator is tested at `end` too, where a table with 32 buckets or more has
no flags: `beyond` is the word in memory after them. -/
def exist (beyond : BitVec 64) (h : AlignHash K V) (x : ℕ) : Bool :=
  !Flags.isEither (h.flags ++ [beyond]) x

/-- `begin`. -/
def begin (beyond : BitVec 64) (h : AlignHash K V) : Option ℕ :=
  scan (fun itr => itr ≠ h.nbucket && !h.exist beyond itr) (· + 1) (h.nbucket + 1) 0

/-- `operator++` of an iterator. -/
def increment (beyond : BitVec 64) (h : AlignHash K V) (cur : ℕ) : Option ℕ :=
  scan (fun cur => !h.exist beyond cur && cur ≠ h.nbucket) (· + 1) (h.nbucket + 1)
    (if cur ≠ h.nbucket then cur + 1 else cur)

/-- The iterators from `cur` to `end`, with `fuel` tests for `end`. -/
def visit (beyond : BitVec 64) (h : AlignHash K V) : ℕ → ℕ → Option (List ℕ)
  | 0, _ => none
  | fuel + 1, cur =>
    if cur = h.nbucket then some []
    else do
      let next ← h.increment beyond cur
      let rest ← visit beyond h fuel next
      some (cur :: rest)

/-- `for (it = begin(); it != end(); ++it)`, and what `key` and `value` give in it. -/
def traverse (beyond : BitVec 64) (h : AlignHash K V) : Option (List (Option K × Option V)) := do
  let first ← h.begin beyond
  let itrs ← h.visit beyond (h.nbucket + 1) first
  some (itrs.map fun itr => (keyAt h.keys itr, h.vals.getD itr none))

end AlignHash

end Naesala
