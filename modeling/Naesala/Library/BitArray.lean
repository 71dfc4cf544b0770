import Mathlib.Data.BitVec
import Mathlib.Data.List.Basic

/-!
# Bits packed into words

An array of 64-bit words is an array of bits: bit `n` is bit `n % 64` of word `n / 64`. Masking a
word changes the bits under the mask and no others.
-/

namespace BitArray

variable {words : List (BitVec 64)} {k n m : ℕ}

/-- Bit `n` of the array. -/
def bit (words : List (BitVec 64)) (n : ℕ) : Bool := (words.getD (n / 64) 0).getLsbD (n % 64)

/-- Writing a word. -/
theorem bit_set (hk : k < words.length) (w : BitVec 64) (n : ℕ) :
    bit (words.set k w) n = if n / 64 = k then w.getLsbD (n % 64) else bit words n := by
  unfold bit
  split_ifs with hn
  · rw [hn, List.getD_eq_getElem?_getD, List.getElem?_set_self hk]
    rfl
  · rw [List.getD_eq_getElem?_getD, List.getElem?_set_ne fun heq => hn heq.symm,
      ← List.getD_eq_getElem?_getD]

theorem bit_or (hn : n / 64 < words.length) (mask : BitVec 64) (m : ℕ) :
    bit (words.set (n / 64) (words.getD (n / 64) 0 ||| mask)) m =
      (bit words m || (decide (m / 64 = n / 64) && mask.getLsbD (m % 64))) := by
  rw [bit_set hn]
  split_ifs with hm
  · rw [decide_eq_true hm, Bool.true_and, BitVec.getLsbD_or, ← hm]
    rfl
  · rw [decide_eq_false hm, Bool.false_and, Bool.or_false]

theorem bit_andNot (hn : n / 64 < words.length) (mask : BitVec 64) (m : ℕ) :
    bit (words.set (n / 64) (words.getD (n / 64) 0 &&& ~~~mask)) m =
      (bit words m && !(decide (m / 64 = n / 64) && mask.getLsbD (m % 64))) := by
  rw [bit_set hn]
  split_ifs with hm
  · rw [decide_eq_true hm, Bool.true_and, BitVec.getLsbD_and, BitVec.getLsbD_not, ← hm,
      decide_eq_true (Nat.mod_lt m (by omega : 0 < 64)), Bool.true_and]
    rfl
  · rw [decide_eq_false hm, Bool.false_and, Bool.not_false, Bool.and_true]

theorem bit_replicate (hm : m / 64 < n) (w : BitVec 64) :
    bit (List.replicate n w) m = w.getLsbD (m % 64) := by
  rw [bit, List.getD_eq_getElem?_getD, List.getElem?_replicate_of_lt hm]
  rfl

end BitArray
