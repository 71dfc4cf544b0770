import Naesala.Library.BitArray
import Naesala.Third.AlignHash

/-!
# The flags of `align_hash_map`

Bucket `i` has the bits `2 * i` and `2 * i + 1` of the packed array, so each macro changes the flags
of its bucket and of no other. `allEmpty` has a word for each bucket of a table whose size is a
power of two.
-/

namespace Naesala

namespace AlignHash

namespace Flags

open BitArray

variable {flag : Flags} {i j n : ℕ}

theorem word_eq (flag : Flags) (i : ℕ) : flag.word i = flag.getD (2 * i / 64) 0 := by
  have hi : i >>> 5 = 2 * i / 64 := by rw [Nat.shiftRight_eq_div_pow]; omega
  rw [word, hi]

theorem shift_eq (i : ℕ) : shift i = 2 * i % 64 := by
  have hand : i &&& 0x1f = i % 32 := Nat.and_two_pow_sub_one_eq_mod i 5
  rw [shift, hand, Nat.shiftLeft_eq]
  omega

/-! ## Reading -/

theorem and_one_ne_zero (w : BitVec 64) : decide (w &&& 1#64 ≠ 0) = w.getLsbD 0 := by
  rw [show 1#64 = BitVec.twoPow 64 0 by decide, BitVec.and_twoPow]
  cases w.getLsbD 0 <;> decide

theorem and_two_ne_zero (w : BitVec 64) : decide (w &&& 2#64 ≠ 0) = w.getLsbD 1 := by
  rw [show 2#64 = BitVec.twoPow 64 1 by decide, BitVec.and_twoPow]
  cases w.getLsbD 1 <;> decide

theorem and_three_ne_zero (w : BitVec 64) :
    decide (w &&& 3#64 ≠ 0) = (w.getLsbD 0 || w.getLsbD 1) := by
  rw [show 3#64 = 1#64 ||| 2#64 by decide, BitVec.and_or_distrib_left, ← and_one_ne_zero,
    ← and_two_ne_zero]
  simp [BitVec.or_eq_zero_iff]

theorem isDel_eq (flag : Flags) (i : ℕ) : flag.isDel i = bit flag (2 * i) := by
  rw [isDel, and_one_ne_zero, BitVec.getLsbD_ushiftRight, word_eq, shift_eq]
  rfl

theorem isEmpty_eq (flag : Flags) (i : ℕ) : flag.isEmpty i = bit flag (2 * i + 1) := by
  rw [isEmpty, and_two_ne_zero, BitVec.getLsbD_ushiftRight, word_eq, shift_eq, bit,
    show (2 * i + 1) / 64 = 2 * i / 64 by omega, show (2 * i + 1) % 64 = 2 * i % 64 + 1 by omega]

theorem isEither_eq (flag : Flags) (i : ℕ) :
    flag.isEither i = (flag.isDel i || flag.isEmpty i) := by
  rw [isEither, and_three_ne_zero, isDel, isEmpty, and_one_ne_zero, and_two_ne_zero]

/-! ## Writing -/

theorem getLsbD_one_shift {s : ℕ} (hs : s < 64) (m : ℕ) :
    (1#64 <<< s).getLsbD m = decide (s = m) := by
  have hpow := BitVec.getLsbD_twoPow (w := 64) s m
  rwa [decide_eq_true hs, Bool.true_and] at hpow

theorem getLsbD_two_shift {s : ℕ} (hs : s + 1 < 64) (m : ℕ) :
    (2#64 <<< s).getLsbD m = decide (s + 1 = m) := by
  rw [show 2#64 = 1#64 <<< 1 by decide, ← BitVec.shiftLeft_add, Nat.add_comm]
  exact getLsbD_one_shift hs m

theorem getLsbD_three_shift {s : ℕ} (hs : s + 1 < 64) (m : ℕ) :
    (3#64 <<< s).getLsbD m = (decide (s = m) || decide (s + 1 = m)) := by
  rw [show 3#64 = 1#64 ||| 2#64 by decide, BitVec.shiftLeft_or_distrib, BitVec.getLsbD_or,
    getLsbD_one_shift (by omega), getLsbD_two_shift hs]

/-- Where bit `a` of bucket `j` is bit `b` of bucket `i`. -/
theorem same_bit {a b : ℕ} (ha : a < 2) (hb : b < 2) :
    (decide ((2 * j + a) / 64 = 2 * i / 64) && decide (2 * i % 64 + b = (2 * j + a) % 64)) =
      decide (j = i ∧ a = b) := by
  rw [← Bool.decide_and, decide_eq_decide]
  omega

@[simp] theorem length_clearEmpty : (flag.clearEmpty i).length = flag.length := List.length_set

@[simp] theorem length_clearBoth : (flag.clearBoth i).length = flag.length := List.length_set

@[simp] theorem length_setDel : (flag.setDel i).length = flag.length := List.length_set

section

variable (hi : i < 32 * flag.length)
include hi

theorem index_lt : 2 * i / 64 < flag.length := by omega

theorem bit_clearEmpty (a : ℕ) (ha : a < 2) :
    bit (flag.clearEmpty i) (2 * j + a) = (bit flag (2 * j + a) && !decide (j = i ∧ a = 1)) := by
  have hmask : 2 * i % 64 + 1 < 64 := by omega
  have hbit := bit_andNot (index_lt hi) (2#64 <<< (2 * i % 64)) (2 * j + a)
  rw [getLsbD_two_shift hmask, same_bit ha (by omega)] at hbit
  rw [← hbit, clearEmpty, word_eq, shift_eq, show i >>> 5 = 2 * i / 64 by
    rw [Nat.shiftRight_eq_div_pow]; omega]

theorem bit_clearBoth (a : ℕ) (ha : a < 2) :
    bit (flag.clearBoth i) (2 * j + a) = (bit flag (2 * j + a) && !decide (j = i)) := by
  have hmask : 2 * i % 64 + 1 < 64 := by omega
  have hbit := bit_andNot (index_lt hi) (3#64 <<< (2 * i % 64)) (2 * j + a)
  have hzero := same_bit (i := i) (j := j) ha (show 0 < 2 by omega)
  rw [getLsbD_three_shift hmask, Bool.and_or_distrib_left, same_bit ha (by omega),
    show decide (2 * i % 64 = (2 * j + a) % 64) =
      decide (2 * i % 64 + 0 = (2 * j + a) % 64) from rfl,
    hzero, ← Bool.decide_or] at hbit
  have heq : (j = i ∧ a = 0 ∨ j = i ∧ a = 1) ↔ j = i := by omega
  rw [decide_eq_decide.2 heq] at hbit
  rw [← hbit, clearBoth, word_eq, shift_eq, show i >>> 5 = 2 * i / 64 by
    rw [Nat.shiftRight_eq_div_pow]; omega]

theorem bit_setDel (a : ℕ) (ha : a < 2) :
    bit (flag.setDel i) (2 * j + a) = (bit flag (2 * j + a) || decide (j = i ∧ a = 0)) := by
  have hmask : 2 * i % 64 < 64 := by omega
  have hbit := bit_or (index_lt hi) (1#64 <<< (2 * i % 64)) (2 * j + a)
  have hzero := same_bit (i := i) (j := j) ha (show 0 < 2 by omega)
  rw [getLsbD_one_shift hmask,
    show decide (2 * i % 64 = (2 * j + a) % 64) =
      decide (2 * i % 64 + 0 = (2 * j + a) % 64) from rfl,
    hzero] at hbit
  rw [← hbit, setDel, word_eq, shift_eq, show i >>> 5 = 2 * i / 64 by
    rw [Nat.shiftRight_eq_div_pow]; omega]

theorem isDel_clearEmpty : (flag.clearEmpty i).isDel j = flag.isDel j := by
  have hbit := bit_clearEmpty (j := j) hi 0 (by omega)
  rw [isDel_eq, isDel_eq]
  simpa using hbit

theorem isEmpty_clearEmpty :
    (flag.clearEmpty i).isEmpty j = (flag.isEmpty j && decide (j ≠ i)) := by
  have hbit := bit_clearEmpty (j := j) hi 1 (by omega)
  rw [isEmpty_eq, isEmpty_eq]
  simpa using hbit

theorem isDel_clearBoth : (flag.clearBoth i).isDel j = (flag.isDel j && decide (j ≠ i)) := by
  have hbit := bit_clearBoth (j := j) hi 0 (by omega)
  rw [isDel_eq, isDel_eq]
  simpa using hbit

theorem isEmpty_clearBoth : (flag.clearBoth i).isEmpty j = (flag.isEmpty j && decide (j ≠ i)) := by
  have hbit := bit_clearBoth (j := j) hi 1 (by omega)
  rw [isEmpty_eq, isEmpty_eq]
  simpa using hbit

theorem isDel_setDel : (flag.setDel i).isDel j = (flag.isDel j || decide (j = i)) := by
  have hbit := bit_setDel (j := j) hi 0 (by omega)
  rw [isDel_eq, isDel_eq]
  simpa using hbit

theorem isEmpty_setDel : (flag.setDel i).isEmpty j = flag.isEmpty j := by
  have hbit := bit_setDel (j := j) hi 1 (by omega)
  rw [isEmpty_eq, isEmpty_eq]
  simpa using hbit

theorem isEither_setDel : (flag.setDel i).isEither j = (flag.isEither j || decide (j = i)) := by
  rw [isEither_eq, isEither_eq, isDel_setDel hi, isEmpty_setDel hi, Bool.or_right_comm]

end

/-! ## A table without data -/

/-- A power of two buckets, two at least, have their flags in the words that are allocated. -/
theorem le_length_allEmpty (e : ℕ) : 2 ^ (e + 1) ≤ 32 * (allEmpty (2 ^ (e + 1))).length := by
  rw [allEmpty, List.length_replicate, bytes]
  split_ifs with hlt
  · omega
  · have hlarge : 5 ≤ e + 1 := by
      by_contra hsmall
      have hle : 2 ^ (e + 1) ≤ 2 ^ 4 := Nat.pow_le_pow_right (by omega) (by omega)
      omega
    obtain ⟨k, hk⟩ := Nat.exists_eq_add_of_le hlarge
    rw [hk, Nat.pow_add, Nat.shiftRight_eq_div_pow]
    omega

theorem bit_allEmpty (hn : i < 32 * (allEmpty n).length) (a : ℕ) (ha : a < 2) :
    bit (allEmpty n) (2 * i + a) = decide (a = 1) := by
  have hodd : ∀ m < 64, (0xaaaaaaaaaaaaaaaa#64).getLsbD m = decide (m % 2 = 1) := by decide
  rw [allEmpty, List.length_replicate] at hn
  rw [allEmpty, bit_replicate (by omega), hodd _ (Nat.mod_lt _ (by omega)), decide_eq_decide]
  omega

theorem isDel_allEmpty (hn : i < 32 * (allEmpty n).length) : (allEmpty n).isDel i = false := by
  have hbit := bit_allEmpty hn 0 (by omega)
  rw [isDel_eq]
  simpa using hbit

theorem isEmpty_allEmpty (hn : i < 32 * (allEmpty n).length) : (allEmpty n).isEmpty i = true := by
  have hbit := bit_allEmpty hn 1 (by omega)
  rw [isEmpty_eq]
  simpa using hbit

end Flags

end AlignHash

end Naesala
