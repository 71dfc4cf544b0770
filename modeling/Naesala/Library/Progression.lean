import Mathlib.Data.List.Range
import Mathlib.Tactic.Linarith
import Mathlib.Tactic.Ring

/-!
# Arithmetic progressions with a bound

`Progression.IsUpTo a b d vs` says that `vs` are the values `a`, `a + d`, `a + 2 * d` and so on, as
long as they are before the bound `b` in the direction of the step `d`. If the progression meets its
bound, then these are the terms before it (`isUpTo_of_eq`); that it does is a matter of
divisibility and of the sign (`exists_eq_iff`).
-/

namespace Progression

variable {a b d : ℤ} {n : ℕ}

/-- The first `n` terms of the progression from `a` with the step `d`. -/
def terms (a d : ℤ) (n : ℕ) : List ℤ := (List.range n).map fun i : ℕ => a + i * d

theorem terms_succ (a d : ℤ) (n : ℕ) : terms a d (n + 1) = a :: terms (a + d) d n := by
  rw [terms, terms, List.range_succ_eq_map, List.map_cons, List.map_map]
  refine congrArg₂ List.cons (by simp) (List.map_congr_left fun i _ => ?_)
  show a + ((i + 1 : ℕ) : ℤ) * d = a + d + i * d
  push_cast
  ring

/-- The value `v` is before `b` in the direction of `d`. -/
def Before (d v b : ℤ) : Prop := if 0 < d then v < b else b < v

/-- The terms before the bound `b`. -/
def IsUpTo (a b d : ℤ) (vs : List ℤ) : Prop :=
  ∃ n, vs = terms a d n ∧ (∀ i < n, Before d (a + i * d) b) ∧ ¬ Before d (a + n * d) b

/-- If the bound is the `n`-th term, then the terms before it are the first `n`. -/
theorem isUpTo_of_eq (hd : d ≠ 0) (h : b = a + n * d) : IsUpTo a b d (terms a d n) := by
  refine ⟨n, rfl, fun i hi => ?_, ?_⟩
  · obtain ⟨j, rfl⟩ := Nat.exists_eq_add_of_lt hi
    have hb : b = a + i * d + (j + 1) * d := by
      rw [h]
      push_cast
      ring
    have hj : (0 : ℤ) < j + 1 := by omega
    unfold Before
    split_ifs with hpos
    · have hmul := mul_pos hj hpos
      omega
    · have hneg : d < 0 := by omega
      have hmul := mul_neg_of_pos_of_neg hj hneg
      omega
  · unfold Before
    split_ifs <;> omega

/-- **When a progression meets its bound.** -/
theorem exists_eq_iff (hd : d ≠ 0) :
    (∃ n : ℕ, b = a + n * d) ↔ d ∣ b - a ∧ 0 ≤ (b - a) * d := by
  constructor
  · intro h
    obtain ⟨n, rfl⟩ := h
    refine ⟨⟨n, by ring⟩, ?_⟩
    have hsq : (a + n * d - a) * d = n * (d * d) := by ring
    rw [hsq]
    exact mul_nonneg (Int.natCast_nonneg n) (mul_self_nonneg d)
  · intro h
    obtain ⟨⟨q, hq⟩, hsign⟩ := h
    have hpos : 0 < d * d := mul_self_pos.2 hd
    have hsq : (b - a) * d = q * (d * d) := by
      rw [hq]
      ring
    rw [hsq] at hsign
    obtain ⟨n, rfl⟩ := Int.eq_ofNat_of_zero_le (nonneg_of_mul_nonneg_left hsign hpos)
    refine ⟨n, ?_⟩
    rw [mul_comm d] at hq
    omega

/-- A progression leaves every interval. -/
theorem exists_outside (hd : d ≠ 0) (a lo hi : ℤ) : ∃ n : ℕ, a + n * d < lo ∨ hi < a + n * d := by
  refine ⟨(hi - a).toNat + (a - lo).toNat + 1, ?_⟩
  generalize hm : (((hi - a).toNat + (a - lo).toNat + 1 : ℕ) : ℤ) = m
  have hle : hi - a < m ∧ a - lo < m ∧ 0 ≤ m := by omega
  rcases lt_or_gt_of_ne hd with hneg | hpos
  · left
    have hmul : m * d ≤ m * (-1) := mul_le_mul_of_nonneg_left (by omega) hle.2.2
    omega
  · right
    have hmul : m * 1 ≤ m * d := mul_le_mul_of_nonneg_left (by omega) hle.2.2
    omega

end Progression
