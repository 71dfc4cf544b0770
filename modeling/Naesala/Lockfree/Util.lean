import Mathlib.Data.BitVec

/-!
# Combined words

The lock-free containers keep a pointer and a 16-bit version in one 64-bit word, so that a
compare-exchange also compares the version. User-space pointers have 48 significant bits.
-/

namespace Naesala

/-- A pointer; `0` is null. -/
abbrev Ptr := BitVec 48

/-- A combination of a pointer and a version. -/
abbrev Word := BitVec 64

/-- `pointer`: the low 48 bits of a combination. -/
def pointer (combination : Word) : Ptr := (combination &&& 0x0000FFFFFFFFFFFF#64).setWidth 48

/-- `combine`, given the value that `version.fetch_add(1)` returns: a `short`, which the cast to
`uint64_t` extends by its sign. -/
def combine (p : Ptr) (version : BitVec 16) : Word :=
  p.setWidth 64 ||| version.signExtend 64 <<< 48

theorem pointer_eq (w : Word) : pointer w = w.setWidth 48 := by
  have hmask : (0x0000FFFFFFFFFFFF#64).setWidth 48 = BitVec.allOnes 48 := by decide
  rw [pointer, BitVec.setWidth_and, hmask, BitVec.and_allOnes]

@[simp] theorem pointer_zero : pointer 0 = 0 := by decide

/-- The pointer comes back out of a combination. -/
@[simp] theorem pointer_combine (p : Ptr) (version : BitVec 16) :
    pointer (combine p version) = p := by
  rw [pointer_eq, combine]
  ext i hi
  simp

end Naesala
