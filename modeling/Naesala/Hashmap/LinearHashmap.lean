import Mathlib.Data.Nat.Log
import Naesala.Library.Cyclic

/-!
# `LinearHashmap`: the table and its operations

The open-addressing table of `hashmap/linear_hashmap.h`, function by function. A bucket is
empty, deleted or existing according to its key alone: `empty_key_` and `erased_key_` are two
keys set aside at construction. `Get` walks over deleted buckets, `Set` stops at the first
bucket that does not exist, and `Set` and `Delete` rebuild the table through `Resize`.

Operations return `none` where the program does not return: a failed `assert`, a read of raw
storage, or a probe loop that has gone once round the table without an exit and so never ends.
Allocation succeeds. Nothing here says what the table is for; `Hashmap/Lookup.lean` and
`Hashmap/FiniteMap.lean` do.
-/

namespace Naesala

/-! ## Numbers -/

/-- The value of a 64-bit `size_t`. -/
def sizeT (n : ℕ) : ℕ := n % 2 ^ 64

/-- An `int` holding the low 32 bits of `n`, read back as `size_t`. -/
def intToSizeT (n : ℕ) : ℕ :=
  if n % 2 ^ 32 < 2 ^ 31 then n % 2 ^ 32 else n % 2 ^ 32 + (2 ^ 64 - 2 ^ 32)

/-- A `float`: `mantissa / 2 ^ exponent`. -/
structure FloatLit where
  mantissa : ℕ
  exponent : ℕ

/-- The `float` nearest to `0.85`. -/
def kLoadFactor : FloatLit := ⟨14260634, 24⟩

/-- The `float` nearest to `0.2`. -/
def kShrinkFactor : FloatLit := ⟨13421773, 26⟩

/-- `FindLastSet` of an `unsigned`: the number of bits up to the highest one set. -/
def findLastSet (x : ℕ) : ℕ := if x ≠ 0 then Nat.log2 x + 1 else 0

/-- `NextPowTwo`, called with a `size_t`: the argument becomes a 32-bit `unsigned`, the result
an `int`, and its caller reads that as `size_t` again. -/
def nextPowTwo (n : ℕ) : ℕ :=
  let x := n % 2 ^ 32
  intToSizeT (if x ≠ 0 then 1 <<< findLastSet (x - 1) else 1)

/-- `std::floor(n * factor)`. The product is exact where `n` is a power of two. -/
def FloatLit.floorMul (n : ℕ) (factor : FloatLit) : ℕ := n * factor.mantissa / 2 ^ factor.exponent

/-- `ResizeCount`. -/
def resizeCountOf (bucketCount : ℕ) (factor : FloatLit) : ℕ :=
  if bucketCount = 0 then 0
  else if factor.floorMul bucketCount < bucketCount then factor.floorMul bucketCount
  else bucketCount - 1

/-! ## The table -/

/-- A bucket, `std::pair<const Key, Value>`. The mapped object is `none` while its storage is
raw. -/
structure Bucket (K V : Type) where
  first : K
  second : Option V
  deriving DecidableEq

/-- The template arguments `Hash` and `Pred`. -/
structure Functors (K : Type) where
  hasher : K → ℕ
  keyEqual : K → K → Bool

/-- The members of `LinearHashmap`, and whether `buckets_` is null. -/
structure LinearHashmap (K V : Type) where
  emptyKey : K
  erasedKey : K
  bucketCount : ℕ
  resizeCount : ℕ
  shrinkCount : ℕ
  mask : ℕ
  size : ℕ
  used : ℕ
  isNull : Bool
  buckets : List (Bucket K V)
  deriving DecidableEq

namespace LinearHashmap

variable {K V : Type} [DecidableEq K] (F : Functors K)

/-- A hash function, with `std::equal_to` as `Pred`. -/
def equalTo (hash : K → ℕ) : Functors K := ⟨hash, fun a b => a = b⟩

/-- `buckets_[index].first`. No operation reads past the array. -/
def keyAt (h : LinearHashmap K V) (index : ℕ) : K :=
  (h.buckets[index]?.map Bucket.first).getD h.emptyKey

/-- `buckets_[index].second`. -/
def valueAt (h : LinearHashmap K V) (index : ℕ) : Option V :=
  h.buckets[index]?.bind Bucket.second

/-- Overwrite the bucket `index`. -/
def setBucket (h : LinearHashmap K V) (index : ℕ) (b : Bucket K V) : LinearHashmap K V :=
  { h with buckets := h.buckets.set index b }

/-- The key is one of the two that mark buckets. -/
def isSentinel (h : LinearHashmap K V) (key : K) : Bool := key = h.erasedKey || key = h.emptyKey

/-- `Deleted`. -/
def deletedAt (h : LinearHashmap K V) (index : ℕ) : Bool := h.keyAt index = h.erasedKey

/-- `Empty`. -/
def emptyAt (h : LinearHashmap K V) (index : ℕ) : Bool := h.keyAt index = h.emptyKey

/-- `DeletedOrEmpty`. -/
def deletedOrEmptyAt (h : LinearHashmap K V) (index : ℕ) : Bool :=
  h.deletedAt index || h.emptyAt index

/-- `Exists`. -/
def existsAt (h : LinearHashmap K V) (index : ℕ) : Bool := !h.deletedOrEmptyAt index

/-! ## Construction -/

/-- `Resize` of a table without buckets: allocate, and construct every key as `empty_key_`. -/
def firstResize (h : LinearHashmap K V) (newBucketCount : ℕ) : LinearHashmap K V :=
  { h with
    buckets := List.replicate newBucketCount ⟨h.emptyKey, none⟩
    isNull := false
    bucketCount := newBucketCount
    resizeCount := resizeCountOf newBucketCount kLoadFactor
    shrinkCount := resizeCountOf newBucketCount kShrinkFactor
    mask := sizeT (newBucketCount + (2 ^ 64 - 1)) }

/-- The members before the body of a constructor runs. -/
def blank (emptyKey erasedKey : K) : LinearHashmap K V :=
  ⟨emptyKey, erasedKey, 0, 0, 0, 0, 0, 0, true, []⟩

/-- The constructors from a bucket count and the two sentinels. -/
def construct (initBucketCount : ℕ) (emptyKey erasedKey : K) : Option (LinearHashmap K V) :=
  if emptyKey = erasedKey then none
  else if initBucketCount ≠ 0 then
    some ((blank emptyKey erasedKey).firstResize (nextPowTwo initBucketCount))
  else some (blank emptyKey erasedKey)

/-- `swap`. The sentinels are `const` and stay; they must agree. -/
def swap (h other : LinearHashmap K V) : Option (LinearHashmap K V × LinearHashmap K V) :=
  if h.emptyKey = other.emptyKey ∧ h.erasedKey = other.erasedKey then some (other, h) else none

/-! ## `Get`, `Set`, `Delete` and `Resize` -/

/-- The bucket a probe looks at after `index`. -/
def next (h : LinearHashmap K V) (index : ℕ) : ℕ := (index + 1) &&& h.mask

/-- The loop condition of `Get`. -/
def getCont (h : LinearHashmap K V) (key : K) (index : ℕ) : Bool :=
  h.deletedAt index || (h.existsAt index && !F.keyEqual (h.keyAt index) key)

/-- The loop condition of `Set`. -/
def setCont (h : LinearHashmap K V) (key : K) (index : ℕ) : Bool :=
  h.existsAt index && !F.keyEqual (h.keyAt index) key

/-- `Get`: the bucket of `key`, or `bucket_count_`. -/
def get (h : LinearHashmap K V) (key : K) : Option ℕ :=
  if h.bucketCount = 0 then some h.bucketCount
  else
    (scan (h.getCont F key) h.next h.bucketCount (F.hasher key &&& h.mask)).map fun index =>
      if h.emptyAt index then h.bucketCount else index

/-- The end of `Set`, once the probe has stopped at `index`. -/
def place (h : LinearHashmap K V) (index : ℕ) (key : K) (value : V) (displace : Bool) :
    LinearHashmap K V :=
  if h.existsAt index then
    if displace then h.setBucket index ⟨key, some value⟩ else h
  else
    { h.setBucket index ⟨key, some value⟩ with
      size := h.size + 1
      used := if h.emptyAt index then h.used + 1 else h.used }

/-- One turn of the loop of `Resize`: move an existing bucket into the new table. -/
def moveInto (set : LinearHashmap K V → K → V → Bool → Option (LinearHashmap K V × ℕ))
    (h newLh : LinearHashmap K V) (b : Bucket K V) : Option (LinearHashmap K V) :=
  if h.isSentinel b.first then some newLh
  else b.second.bind fun value => (set newLh b.first value false).map Prod.fst

/-- `Resize`, given the `Set` its loop calls. -/
def resizeWith (set : LinearHashmap K V → K → V → Bool → Option (LinearHashmap K V × ℕ))
    (h : LinearHashmap K V) (newBucketCount : ℕ) : Option (LinearHashmap K V) :=
  if h.bucketCount = 0 then some (h.firstResize newBucketCount)
  else do
    let newLh ← construct newBucketCount h.emptyKey h.erasedKey
    let newLh ← h.buckets.foldlM (moveInto set h) newLh
    let (h', _) ← swap h newLh
    some h'

/-- The bucket count that `Set` asks `Resize` for. -/
def growCount (h : LinearHashmap K V) : ℕ :=
  if h.bucketCount ≠ 0 then sizeT (h.bucketCount <<< 1) else 8

/-- The head of `Set`: make room first when the table is full up to its threshold. -/
def expandWith (set : LinearHashmap K V → K → V → Bool → Option (LinearHashmap K V × ℕ))
    (h : LinearHashmap K V) : Option (LinearHashmap K V) :=
  if h.used ≥ h.resizeCount then resizeWith set h h.growCount else some h

/-- `Set`, with at most `depth` calls of it nested through `Resize`; the result is the table
and the bucket the key went to. -/
def setNested : ℕ → LinearHashmap K V → K → V → Bool → Option (LinearHashmap K V × ℕ)
  | 0, _, _, _, _ => none
  | depth + 1, h, key, value, displace => do
    let h ← expandWith (setNested depth) h
    let index ← scan (h.setCont F key) h.next h.bucketCount (F.hasher key &&& h.mask)
    some (h.place index key value displace, index)

/-- Each nested `Set` that resizes again doubles a `size_t` bucket count, so the nesting is
never deeper. -/
def maxNesting : ℕ := 64

/-- `Set`. -/
def set (h : LinearHashmap K V) (key : K) (value : V) (displace : Bool) :
    Option (LinearHashmap K V × ℕ) :=
  setNested F maxNesting h key value displace

/-- `Resize`. -/
def resize (h : LinearHashmap K V) (newBucketCount : ℕ) : Option (LinearHashmap K V) :=
  resizeWith (set F) h newBucketCount

/-- `SetDeleted`: the key becomes `erased_key_` and the mapped object is destroyed. -/
def setDeleted (h : LinearHashmap K V) (index : ℕ) : LinearHashmap K V :=
  h.setBucket index ⟨h.erasedKey, none⟩

/-- `Delete`. -/
def delete (h : LinearHashmap K V) (index : ℕ) : Option (LinearHashmap K V) :=
  if index ≥ h.bucketCount || h.deletedOrEmptyAt index then some h
  else
    let h := { h.setDeleted index with size := h.size - 1 }
    if h.size < h.shrinkCount ∧ h.bucketCount > 8 then h.resize F (h.bucketCount >>> 1) else some h

/-! ## The public operations -/

/-- `insert` and `emplace`. -/
def insert (h : LinearHashmap K V) (key : K) (value : V) : Option (LinearHashmap K V × ℕ) :=
  h.set F key value false

/-- `insert_or_assign`. -/
def insertOrAssign (h : LinearHashmap K V) (key : K) (value : V) :
    Option (LinearHashmap K V × ℕ) :=
  h.set F key value true

/-- `operator[]`, which inserts `DummyValue()` for a new key; the result refers to the bucket. -/
def index [Inhabited V] (h : LinearHashmap K V) (key : K) : Option (LinearHashmap K V × ℕ) :=
  h.set F key default false

/-- `h[key] = value`: an assignment through the reference that `operator[]` returns. -/
def indexAssign [Inhabited V] (h : LinearHashmap K V) (key : K) (value : V) :
    Option (LinearHashmap K V) :=
  (h.index F key).map fun (h, index) => h.setBucket index ⟨h.keyAt index, some value⟩

/-- `erase` by key. -/
def erase (h : LinearHashmap K V) (key : K) : Option (LinearHashmap K V) :=
  (h.get F key).bind fun index => h.delete F index

/-- `Clear` of one bucket. -/
def clearBucket (h : LinearHashmap K V) (b : Bucket K V) : Bucket K V :=
  if b.first = h.emptyKey then b
  else ⟨h.emptyKey, if b.first ≠ h.erasedKey then none else b.second⟩

/-- `clear`. -/
def clear (h : LinearHashmap K V) : LinearHashmap K V :=
  { h with buckets := h.buckets.map h.clearBucket, size := 0, used := 0 }

/-- `count`. -/
def count (h : LinearHashmap K V) (key : K) : Option ℕ :=
  (h.get F key).map fun index => if index ≠ h.bucketCount then 1 else 0

/-- `find`, dereferenced: the pair it points to, or `none` at `end()`. -/
def find (h : LinearHashmap K V) (key : K) : Option (Option (K × Option V)) :=
  (h.get F key).map fun index =>
    if index = h.bucketCount then none else some (h.keyAt index, h.valueAt index)

/-- `Destory`. -/
def destory (h : LinearHashmap K V) : LinearHashmap K V :=
  if h.bucketCount = 0 then h else blank h.emptyKey h.erasedKey

/-- The bucket that `UninitializedCopy` constructs from `b`. -/
def copyBucket (h : LinearHashmap K V) (b : Bucket K V) : Bucket K V :=
  ⟨b.first, if h.isSentinel b.first then none else b.second⟩

/-- `UninitializedCopy`. -/
def uninitializedCopy (h source : LinearHashmap K V) : Option (LinearHashmap K V) :=
  if h.bucketCount ≠ 0 ∨ !h.isNull then none
  else
    some { h with
      buckets := source.buckets.map h.copyBucket
      isNull := false
      bucketCount := source.bucketCount
      resizeCount := source.resizeCount
      shrinkCount := source.shrinkCount
      mask := sizeT (source.bucketCount + (2 ^ 64 - 1))
      size := source.size
      used := source.used }

/-- One turn of the loop of `InitializedCopy`: bucket `b` takes over bucket `s`. -/
def assignBucket (h : LinearHashmap K V) (b s : Bucket K V) : Bucket K V :=
  if s.first = b.first then ⟨b.first, if h.isSentinel b.first then b.second else s.second⟩
  else ⟨s.first, if h.isSentinel s.first then (h.clearBucket b).second else s.second⟩

/-- `InitializedCopy`. -/
def initializedCopy (h source : LinearHashmap K V) : Option (LinearHashmap K V) :=
  if source.bucketCount ≠ h.bucketCount then none
  else
    some { h with
      buckets := List.zipWith h.assignBucket h.buckets source.buckets
      size := source.size
      used := source.used }

/-- The copy constructor. -/
def copyConstruct (other : LinearHashmap K V) : Option (LinearHashmap K V) :=
  if other.bucketCount = 0 then some (blank other.emptyKey other.erasedKey)
  else (blank other.emptyKey other.erasedKey).uninitializedCopy other

/-- Copy assignment from another object. -/
def copyAssign (h other : LinearHashmap K V) : Option (LinearHashmap K V) :=
  if h.emptyKey = other.emptyKey ∧ h.erasedKey = other.erasedKey then
    if other.bucketCount = 0 then some h.destory
    else if h.bucketCount = other.bucketCount then h.initializedCopy other
    else h.destory.uninitializedCopy other
  else none

/-- The move constructor: the new object and what is left of `other`. -/
def moveConstruct (other : LinearHashmap K V) : LinearHashmap K V × LinearHashmap K V :=
  (other, blank other.emptyKey other.erasedKey)

/-- Move assignment from another object: this object and what is left of `other`. -/
def moveAssign (h other : LinearHashmap K V) : Option (LinearHashmap K V × LinearHashmap K V) :=
  if h.emptyKey = other.emptyKey ∧ h.erasedKey = other.erasedKey then h.destory.swap other
  else none

/-! ## Iteration -/

/-- The skip loop of `begin` and of the iterator's `increment`: the first existing bucket from
`index` on, with `fuel` buckets left. -/
def seek (h : LinearHashmap K V) : ℕ → ℕ → ℕ
  | 0, index => index
  | fuel + 1, index => if h.existsAt index then index else h.seek fuel (index + 1)

/-- `begin`. -/
def begin (h : LinearHashmap K V) : ℕ := h.seek h.bucketCount 0

/-- `Iterator::increment`. -/
def increment (h : LinearHashmap K V) (current : ℕ) : ℕ :=
  if current ≠ h.bucketCount then h.seek (h.bucketCount - (current + 1)) (current + 1) else current

/-- The indices that `++` visits from `current` until `end()`. -/
def visit (h : LinearHashmap K V) : ℕ → ℕ → List ℕ
  | 0, _ => []
  | fuel + 1, current =>
    if current = h.bucketCount then [] else current :: h.visit fuel (h.increment current)

/-- The pairs visited from `begin()` to `end()`. -/
def traverse (h : LinearHashmap K V) : List (K × Option V) :=
  (h.visit (h.bucketCount + 1) h.begin).map fun index => (h.keyAt index, h.valueAt index)

end LinearHashmap

end Naesala
