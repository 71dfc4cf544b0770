import Naesala.Library.Checked
import Naesala.Hashmap.Objects

/-!
# The lifetimes of mapped objects

The operations of `Hashmap/LinearHashmap.lean` once more, with each construction, assignment and
destruction of a mapped object made a step of its own, which faults where the object is not in the
state it needs: raw storage for a construction, a constructed object for the others. The storage of
a table may be deallocated only when every object in it has been destroyed. A `Ledger` counts the
objects constructed and destroyed.

`Resize` moves keys out of the table it abandons. What a key is left with is arbitrary: it is
`left n key`, where `n` is the number of objects constructed so far, so that no two moves of a run
need agree. The destructor of the abandoned table then finds those values as keys.

The probe loops, `swap` and construction touch no mapped object; they are used as they are.
-/

namespace Naesala

namespace Lifetimes

open LinearHashmap Checked

/-- What can go wrong with a mapped object. -/
inductive Fault where
  | constructOverLive
  | assignRaw
  | destroyRaw
  | readRaw
  /-- Storage is deallocated with an object in it. -/
  | leak
  deriving DecidableEq

/-- How many mapped objects have been constructed and destroyed. -/
structure Ledger where
  constructed : ℕ
  destroyed : ℕ
  deriving DecidableEq

/-- A computation on mapped objects. -/
abbrev Tracked := Checked Ledger Fault

variable {K V : Type} [DecidableEq K] (F : Functors K) (left : ℕ → K → K)

/-! ## Mapped objects -/

/-- `mapped_allocator_type().construct`. -/
def construct (second : Option V) (value : V) : Tracked (Option V) :=
  if second.isSome then throw .constructOverLive
  else do
    modify fun l => { l with constructed := l.constructed + 1 }
    pure (some value)

/-- Assignment to a mapped object. -/
def assign (second : Option V) (value : V) : Tracked (Option V) :=
  if second.isSome then pure (some value) else throw .assignRaw

/-- `mapped_allocator_type().destroy`. -/
def destroy (second : Option V) : Tracked (Option V) :=
  if second.isSome then do
    modify fun l => { l with destroyed := l.destroyed + 1 }
    pure none
  else throw .destroyRaw

/-- The mapped object is copied or moved from. -/
def read : Option V → Tracked V
  | some value => pure value
  | none => throw .readRaw

/-- `allocator_type().deallocate`. -/
def deallocate (buckets : List (Bucket K V)) : Tracked Unit :=
  if buckets.any fun b => b.second.isSome then throw .leak else pure ()

/-! ## `Destory` -/

/-- One turn of the loop of `Destory`. -/
def destroyBucket (h : LinearHashmap K V) (b : Bucket K V) : Tracked (Bucket K V) :=
  if h.isSentinel b.first then pure b
  else do
    let second ← destroy b.second
    pure ⟨b.first, second⟩

/-- `Destory`. -/
def destory (h : LinearHashmap K V) : Tracked (LinearHashmap K V) :=
  if h.bucketCount = 0 then pure h
  else do
    let buckets ← h.buckets.mapM' (destroyBucket h)
    deallocate buckets
    pure (blank h.emptyKey h.erasedKey)

/-! ## `Set`, `Delete` and `Resize` -/

/-- The end of `Set`, once the probe has stopped at `index`: the table, and whether the key has been
assigned to the bucket. -/
def place (h : LinearHashmap K V) (index : ℕ) (key : K) (value : V) (displace : Bool) :
    Tracked (LinearHashmap K V × Bool) :=
  if h.existsAt index then
    if displace then do
      let second ← assign (h.valueAt index) value
      pure (h.setBucket index ⟨key, second⟩, true)
    else pure (h, false)
  else do
    let second ← construct (h.valueAt index) value
    pure ({ h.setBucket index ⟨key, second⟩ with
      size := h.size + 1
      used := if h.emptyAt index then h.used + 1 else h.used }, true)

/-- `Set` as a parameter: the table, the bucket the key went to, and whether it was assigned. -/
abbrev SetFun (K V : Type) :=
  LinearHashmap K V → K → V → Bool → Tracked (LinearHashmap K V × ℕ × Bool)

/-- One turn of the loop of `Resize`: the new table, and what is left in the old bucket. -/
def moveInto (set : SetFun K V) (h newLh : LinearHashmap K V) (b : Bucket K V) :
    Tracked (LinearHashmap K V × Bucket K V) :=
  if h.isSentinel b.first then pure (newLh, b)
  else do
    let value ← read b.second
    let (newLh, _, assigned) ← set newLh b.first value false
    let ledger ← get
    pure (newLh, if assigned then ⟨left ledger.constructed b.first, b.second⟩ else b)

/-- The loop of `Resize`. -/
def moveAll (set : SetFun K V) (h : LinearHashmap K V) :
    LinearHashmap K V → List (Bucket K V) → Tracked (LinearHashmap K V × List (Bucket K V))
  | newLh, [] => pure (newLh, [])
  | newLh, b :: bs => do
    let (newLh, b) ← moveInto left set h newLh b
    let (newLh, bs) ← moveAll set h newLh bs
    pure (newLh, b :: bs)

/-- `Resize`, given the `Set` its loop calls. At its end `new_lh` holds the old buckets, and is
destructed. -/
def resizeWith (set : SetFun K V) (h : LinearHashmap K V) (newBucketCount : ℕ) :
    Tracked (LinearHashmap K V) :=
  if h.bucketCount = 0 then pure (h.firstResize newBucketCount)
  else do
    let newLh ← ofOption (LinearHashmap.construct newBucketCount h.emptyKey h.erasedKey)
    let (newLh, buckets) ← moveAll left set h newLh h.buckets
    let (h, newLh) ← ofOption (swap { h with buckets := buckets } newLh)
    let _ ← destory newLh
    pure h

/-- The head of `Set`. -/
def expandWith (set : SetFun K V) (h : LinearHashmap K V) : Tracked (LinearHashmap K V) :=
  if h.used ≥ h.resizeCount then resizeWith left set h h.growCount else pure h

/-- `Set`, with at most `depth` calls of it nested through `Resize`. -/
def setNested : ℕ → SetFun K V
  | 0, _, _, _, _ => ofOption none
  | depth + 1, h, key, value, displace => do
    let h ← expandWith left (setNested depth) h
    let index ← ofOption
      (scan (h.setCont F key) h.next h.bucketCount (F.hasher key &&& h.mask))
    let (h, assigned) ← place h index key value displace
    pure (h, index, assigned)

/-- `Set`. -/
def set : SetFun K V := setNested F left maxNesting

/-- `Resize`. -/
def resize (h : LinearHashmap K V) (newBucketCount : ℕ) : Tracked (LinearHashmap K V) :=
  resizeWith left (set F left) h newBucketCount

/-- `SetDeleted`. -/
def setDeleted (h : LinearHashmap K V) (index : ℕ) : Tracked (LinearHashmap K V) := do
  let second ← destroy (h.valueAt index)
  pure (h.setBucket index ⟨h.erasedKey, second⟩)

/-- `Delete`. -/
def delete (h : LinearHashmap K V) (index : ℕ) : Tracked (LinearHashmap K V) :=
  if index ≥ h.bucketCount || h.deletedOrEmptyAt index then pure h
  else do
    let h' ← setDeleted h index
    let h' := { h' with size := h.size - 1 }
    if h'.size < h'.shrinkCount ∧ h'.bucketCount > 8 then resize F left h' (h'.bucketCount >>> 1)
    else pure h'

/-! ## The public operations -/

/-- `Clear` of one bucket. -/
def clearBucket (h : LinearHashmap K V) (b : Bucket K V) : Tracked (Bucket K V) :=
  if b.first = h.emptyKey then pure b
  else if b.first ≠ h.erasedKey then do
    let second ← destroy b.second
    pure ⟨h.emptyKey, second⟩
  else pure ⟨h.emptyKey, b.second⟩

/-- `clear`. -/
def clear (h : LinearHashmap K V) : Tracked (LinearHashmap K V) := do
  let buckets ← h.buckets.mapM' (clearBucket h)
  pure { h with buckets := buckets, size := 0, used := 0 }

/-- One turn of the loop of `UninitializedCopy`. -/
def copyBucket (h : LinearHashmap K V) (b : Bucket K V) : Tracked (Bucket K V) :=
  if h.isSentinel b.first then pure ⟨b.first, none⟩
  else do
    let value ← read b.second
    let second ← construct none value
    pure ⟨b.first, second⟩

/-- `UninitializedCopy`. -/
def uninitializedCopy (h source : LinearHashmap K V) : Tracked (LinearHashmap K V) :=
  if h.bucketCount ≠ 0 ∨ !h.isNull then ofOption none
  else do
    let buckets ← source.buckets.mapM' (copyBucket h)
    pure { h with
      buckets := buckets
      isNull := false
      bucketCount := source.bucketCount
      resizeCount := source.resizeCount
      shrinkCount := source.shrinkCount
      mask := sizeT (source.bucketCount + (2 ^ 64 - 1))
      size := source.size
      used := source.used }

/-- One turn of the loop of `InitializedCopy`: bucket `b` takes over bucket `s`. -/
def assignBucket (h : LinearHashmap K V) (b s : Bucket K V) : Tracked (Bucket K V) :=
  if s.first = b.first then
    if h.isSentinel b.first then pure b
    else do
      let value ← read s.second
      let second ← assign b.second value
      pure ⟨b.first, second⟩
  else do
    let b ← clearBucket h b
    if h.isSentinel s.first then pure ⟨s.first, b.second⟩
    else do
      let value ← read s.second
      let second ← construct b.second value
      pure ⟨s.first, second⟩

/-- `InitializedCopy`. -/
def initializedCopy (h source : LinearHashmap K V) : Tracked (LinearHashmap K V) :=
  if source.bucketCount ≠ h.bucketCount then ofOption none
  else do
    let buckets ← (h.buckets.zip source.buckets).mapM' fun p => assignBucket h p.1 p.2
    pure { h with
      buckets := buckets
      size := source.size
      used := source.used }

/-- The copy constructor. -/
def copyConstruct (other : LinearHashmap K V) : Tracked (LinearHashmap K V) :=
  if other.bucketCount = 0 then pure (blank other.emptyKey other.erasedKey)
  else uninitializedCopy (blank other.emptyKey other.erasedKey) other

/-- Copy assignment from another object. -/
def copyAssign (h other : LinearHashmap K V) : Tracked (LinearHashmap K V) :=
  if h.emptyKey = other.emptyKey ∧ h.erasedKey = other.erasedKey then
    if other.bucketCount = 0 then destory h
    else if h.bucketCount = other.bucketCount then initializedCopy h other
    else do
      let h ← destory h
      uninitializedCopy h other
  else ofOption none

/-- Move assignment from another object. -/
def moveAssign (h other : LinearHashmap K V) :
    Tracked (LinearHashmap K V × LinearHashmap K V) :=
  if h.emptyKey = other.emptyKey ∧ h.erasedKey = other.erasedKey then do
    let h ← destory h
    ofOption (swap h other)
  else ofOption none

variable [Inhabited V]

/-- Perform a call on one map. -/
def apply (h : LinearHashmap K V) : MapOp K V → Tracked (LinearHashmap K V)
  | .insert key value => do
    let (h, _, _) ← set F left h key value false
    pure h
  | .insertOrAssign key value => do
    let (h, _, _) ← set F left h key value true
    pure h
  | .index key => do
    let (h, _, _) ← set F left h key default false
    pure h
  | .indexAssign key value => do
    let (h, index, _) ← set F left h key default false
    let second ← assign (h.valueAt index) value
    pure (h.setBucket index ⟨h.keyAt index, second⟩)
  | .erase key => do
    let index ← ofOption (h.get F key)
    delete F left h index
  | .clear => clear h

/-- Perform a statement. The destructor of a map is `Destory`. -/
def execute (s : Objects K V) : Statement K V → Tracked (Objects K V)
  | .construct x n e d =>
    if (s x).isSome then ofOption none
    else do
      let h ← ofOption (LinearHashmap.construct n e d)
      pure (Function.update s x (some h))
  | .destruct x => do
    let h ← ofOption (s x)
    let _ ← destory h
    pure (Function.update s x none)
  | .call x op => do
    let h ← ofOption (s x)
    let h ← apply F left h op
    pure (Function.update s x (some h))
  | .eraseAt x index => do
    let h ← ofOption (s x)
    let h ← delete F left h index
    pure (Function.update s x (some h))
  | .copyConstruct x y =>
    if (s x).isSome then ofOption none
    else do
      let other ← ofOption (s y)
      let h ← copyConstruct other
      pure (Function.update s x (some h))
  | .moveConstruct x y =>
    if (s x).isSome then ofOption none
    else do
      let other ← ofOption (s y)
      pure (Function.update (Function.update s x (some other.moveConstruct.1)) y
        (some other.moveConstruct.2))
  | .copyAssign x y =>
    if x = y then pure s
    else do
      let h ← ofOption (s x)
      let other ← ofOption (s y)
      let h ← copyAssign h other
      pure (Function.update s x (some h))
  | .moveAssign x y =>
    if x = y then pure s
    else do
      let h ← ofOption (s x)
      let other ← ofOption (s y)
      let (h, other) ← moveAssign h other
      pure (Function.update (Function.update s x (some h)) y (some other))
  | .swap x y =>
    if x = y then pure s
    else do
      let h ← ofOption (s x)
      let other ← ofOption (s y)
      let (h, other) ← ofOption (h.swap other)
      pure (Function.update (Function.update s x (some h)) y (some other))

/-- The maps of a program, what has become of their mapped objects, and the fault that has ended the
run. -/
structure World (K V : Type) where
  objects : Objects K V
  ledger : Ledger
  fault : Option Fault

/-- Perform a statement; a fault ends the run. -/
def World.step (w : World K V) (a : Statement K V) : Option (World K V) :=
  if w.fault.isSome then none
  else ((execute F left w.objects a).exec w.ledger).map fun
    | .error fault => { w with fault := some fault }
    | .ok (objects, ledger) => ⟨objects, ledger, none⟩

end Lifetimes

open Lifetimes

/-- The machine of programs with maps, mapped objects tracked. -/
def lifetimes {K V : Type} [DecidableEq K] [Inhabited V] (F : Functors K) (left : ℕ → K → K) :
    Machine (World K V) (Statement K V) where
  init := ⟨fun _ => none, ⟨0, 0⟩, none⟩
  step := World.step F left

end Naesala
