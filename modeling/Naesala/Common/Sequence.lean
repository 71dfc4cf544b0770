import Mathlib.Data.Int.GCD
import Mathlib.Data.List.Nodup
import Naesala.Common.Range

/-!
# `sequence`

The loop over a range of an unsigned type: `_value += _step` wraps around, so the values run through
a cycle, and the loop ends where the cycle meets the end.

**Theorem (`sequence_ends_iff`).** A loop over a range of `w` bits ends if and only if the greatest
common divisor of the step and `2 ^ w` divides the distance to the end, and then it sees no value
twice. `sequence(n)` always ends.
-/

namespace Naesala

namespace Range

variable {w : ℕ} {v d : BitVec w} {last : Iterator (BitVec w)} {n k : ℕ}

/-- `+` for an unsigned type of `w` bits. -/
def plusUnsigned (a b : BitVec w) : Option (BitVec w) := some (a + b)

/-! ## The values -/

/-- The value after `i` turns of a loop from `v`. -/
def valueAfter (v d : BitVec w) (i : ℕ) : BitVec w := v + BitVec.ofNat w i * d

@[simp] theorem valueAfter_zero (v d : BitVec w) : valueAfter v d 0 = v := by
  simp [valueAfter]

theorem valueAfter_succ (v d : BitVec w) (i : ℕ) :
    valueAfter v d (i + 1) = valueAfter (v + d) d i := by
  rw [valueAfter, valueAfter, BitVec.ofNat_add, BitVec.add_mul, BitVec.add_assoc v d,
    BitVec.add_comm d]
  simp

/-- The values of the first `n` turns. -/
def valuesUpTo (v d : BitVec w) (n : ℕ) : List (BitVec w) := (List.range n).map (valueAfter v d)

theorem valuesUpTo_succ (v d : BitVec w) (n : ℕ) :
    valuesUpTo v d (n + 1) = v :: valuesUpTo (v + d) d n := by
  rw [valuesUpTo, valuesUpTo, List.range_succ_eq_map, List.map_cons, List.map_map,
    valueAfter_zero]
  exact congrArg _ (List.map_congr_left fun i _ => valueAfter_succ v d i)

/-! ## The loop -/

/-- As long as it does not meet the end, the loop goes on. -/
theorem running_of_ne (h : ∀ i < n, valueAfter v d i ≠ last.value) :
    loop plusUnsigned last n ⟨v, d⟩ = .running (valuesUpTo v d n) := by
  induction n generalizing v with
  | zero => rfl
  | succ n ih =>
    have hv : v ≠ last.value := by simpa using h 0 (Nat.succ_pos n)
    have hrest := ih (v := v + d) fun i hi => valueAfter_succ v d i ▸ h (i + 1) (by omega)
    rw [valuesUpTo_succ]
    simp [loop, Iterator.ne, Iterator.increment, plusUnsigned, hv, hrest, Course.cons]

theorem ended_of_first (h : ∀ i < k, valueAfter v d i ≠ last.value)
    (hk : valueAfter v d k = last.value) :
    loop plusUnsigned last (k + 1) ⟨v, d⟩ = .ended (valuesUpTo v d k) := by
  induction k generalizing v with
  | zero =>
    have hv : v = last.value := by simpa using hk
    simp [loop, Iterator.ne, hv, valuesUpTo]
  | succ k ih =>
    have hv : v ≠ last.value := by simpa using h 0 (Nat.succ_pos k)
    have hrest := ih (v := v + d) (fun i hi => valueAfter_succ v d i ▸ h (i + 1) (by omega))
      (valueAfter_succ v d k ▸ hk)
    rw [valuesUpTo_succ, loop]
    simp [Iterator.ne, Iterator.increment, plusUnsigned, hv, hrest, Course.cons]

/-- A loop sees no value twice before it meets its end. -/
theorem nodup_of_first (h : ∀ i < k, valueAfter v d i ≠ last.value)
    (hk : valueAfter v d k = last.value) : (valuesUpTo v d k).Nodup := by
  have hadd : ∀ i j, valueAfter v d (i + j) = valueAfter v d i + BitVec.ofNat w j * d := by
    intro i j
    rw [valueAfter, valueAfter, BitVec.ofNat_add, BitVec.add_mul, BitVec.add_assoc]
  rw [valuesUpTo, List.nodup_map_iff_inj_on List.nodup_range]
  -- from two equal values on the loop would take the same turns, and meet the end earlier
  have hlt : ∀ i j, i < j → j < k → valueAfter v d i ≠ valueAfter v d j := by
    intro i j hij hj heq
    refine h (i + (k - j)) (by omega) ?_
    rw [hadd, heq, ← hadd, show j + (k - j) = k by omega, hk]
  intro i hi j hj heq
  rw [List.mem_range] at hi hj
  rcases Nat.lt_trichotomy i j with hij | hij | hij
  · exact absurd heq (hlt i j hij hj)
  · exact hij
  · exact absurd heq.symm (hlt j i hij hi)

/-! ## Where the cycle meets the end -/

theorem exists_mul_mod_iff {m c : ℕ} (d : ℕ) (hc : c < m) :
    (∃ k, k * d % m = c) ↔ Nat.gcd d m ∣ c := by
  constructor
  · intro h
    obtain ⟨k, rfl⟩ := h
    exact (Nat.dvd_mod_iff (Nat.gcd_dvd_right d m)).2 ((Nat.gcd_dvd_left d m).mul_left k)
  · intro h
    obtain ⟨q, rfl⟩ := h
    rcases (Nat.le_of_dvd (by omega) (Nat.gcd_dvd_right d m)).lt_or_eq with hlt | heq
    · obtain ⟨k, -, hk⟩ := Nat.exists_mul_mod_eq_gcd hlt
      refine ⟨q * k, ?_⟩
      rw [Nat.mul_assoc, Nat.mul_comm k d, Nat.mul_comm q, ← Nat.mod_mul_mod, hk,
        Nat.mod_eq_of_lt hc]
    · -- only `0` is a multiple of `m`
      rw [heq] at hc ⊢
      have hq : q = 0 := by
        by_contra hne
        have := Nat.le_mul_of_pos_right m (Nat.pos_of_ne_zero hne)
        omega
      exact ⟨0, by simp [hq]⟩

theorem exists_valueAfter_iff (v d e : BitVec w) :
    (∃ k, valueAfter v d k = e) ↔ Nat.gcd d.toNat (2 ^ w) ∣ (e - v).toNat := by
  rw [← exists_mul_mod_iff _ (e - v).isLt]
  refine exists_congr fun k => ?_
  have hmul : (BitVec.ofNat w k * d).toNat = k * d.toNat % 2 ^ w := by
    rw [BitVec.toNat_mul, BitVec.toNat_ofNat, Nat.mod_mul_mod]
  rw [valueAfter, ← hmul, BitVec.toNat_inj, BitVec.eq_sub_iff_add_eq, BitVec.add_comm]

/-! ## Whether the loop ends -/

variable {r : Range (BitVec w)}

/-- The course of a loop that meets its end, and of one that does not. -/
theorem course_cases (r : Range (BitVec w)) :
    (∃ k, valueAfter r.start r.step k = r.stop) ∧
        (∃ k, r.forEach plusUnsigned (k + 1) = .ended (valuesUpTo r.start r.step k) ∧
          (valuesUpTo r.start r.step k).Nodup) ∨
      (¬∃ k, valueAfter r.start r.step k = r.stop) ∧
        ∀ n, r.forEach plusUnsigned n = .running (valuesUpTo r.start r.step n) := by
  by_cases hex : ∃ k, valueAfter r.start r.step k = r.stop
  · left
    classical
    have hfirst : ∀ i < Nat.find hex, valueAfter r.start r.step i ≠ r.end.value :=
      fun i hi => Nat.find_min hex hi
    exact ⟨hex, Nat.find hex, ended_of_first hfirst (Nat.find_spec hex),
      nodup_of_first hfirst (Nat.find_spec hex)⟩
  · right
    exact ⟨hex, fun n => running_of_ne fun i _ heq => hex ⟨i, heq⟩⟩

/-- **A loop over a range of an unsigned type ends if and only if the greatest common divisor of its
step and `2 ^ w` divides the distance to its end.** Then it has seen no value twice, and otherwise
it goes on for ever. -/
theorem sequence_ends_iff (r : Range (BitVec w)) :
    (Nat.gcd r.step.toNat (2 ^ w) ∣ (r.stop - r.start).toNat →
      ∃ k, r.forEach plusUnsigned (k + 1) = .ended (valuesUpTo r.start r.step k) ∧
        (valuesUpTo r.start r.step k).Nodup) ∧
    (¬Nat.gcd r.step.toNat (2 ^ w) ∣ (r.stop - r.start).toNat →
      ∀ n, r.forEach plusUnsigned n = .running (valuesUpTo r.start r.step n)) := by
  rw [← exists_valueAfter_iff]
  rcases course_cases r with ⟨hex, hended⟩ | ⟨hnot, hrunning⟩
  · exact ⟨fun _ => hended, fun hnot => absurd hex hnot⟩
  · exact ⟨fun hex => absurd hex hnot, fun _ => hrunning⟩

/-- **`sequence(n)`** is `0`, ..., `n - 1`. -/
theorem ended_upTo (stop : BitVec w) :
    (upTo stop).forEach plusUnsigned (stop.toNat + 1) =
      .ended ((List.range stop.toNat).map (BitVec.ofNat w)) := by
  have hvalue : ∀ i, valueAfter (upTo stop).start (upTo stop).step i = BitVec.ofNat w i := by
    intro i
    show 0#w + BitVec.ofNat w i * 1#w = _
    rw [BitVec.zero_add, BitVec.mul_one]
  have hfirst : ∀ i < stop.toNat,
      valueAfter (upTo stop).start (upTo stop).step i ≠ (upTo stop).end.value := by
    intro i hi heq
    have hnat : (BitVec.ofNat w i).toNat = stop.toNat := by
      rw [← hvalue, heq]
      rfl
    rw [BitVec.toNat_ofNat, Nat.mod_eq_of_lt (hi.trans stop.isLt)] at hnat
    omega
  have hlast : valueAfter (upTo stop).start (upTo stop).step stop.toNat =
      (upTo stop).end.value := by
    rw [hvalue, BitVec.ofNat_toNat, BitVec.setWidth_eq]
    rfl
  have hended := ended_of_first hfirst hlast
  rw [← List.map_congr_left fun i _ => hvalue i]
  exact hended

end Range

end Naesala
