import Naesala.Library.Progression

/-!
# `Range`

The ranges of `common/range.h` and the range-based `for` loop over one. The values have a type `T`
with an addition that may overflow; for `int` it is `plusInt`, and the loop has no defined behaviour
when it overflows.

**Theorem (`enumerates_iff`).** A loop over a range of `int` enumerates the terms before the end, as
Python's `range` does, if and only if the end is one of the terms. The only test of the loop is
`!=`, so otherwise it passes the end, and overflows (`overflows`).
-/

namespace Naesala

structure Range (T : Type) where
  start : T
  stop : T
  step : T

namespace Range

/-- `iterator`. -/
structure Iterator (T : Type) where
  value : T
  step : T

variable {T : Type}

/-- `operator!=`. -/
def Iterator.ne [DecidableEq T] (it other : Iterator T) : Bool := it.value ≠ other.value

/-- `operator++`. -/
def Iterator.increment (plus : T → T → Option T) (it : Iterator T) : Option (Iterator T) :=
  (plus it.value it.step).map fun value => { it with value := value }

/-- The constructor with one argument. -/
def upTo [OfNat T 0] [OfNat T 1] (stop : T) : Range T := ⟨0, stop, 1⟩

def begin (r : Range T) : Iterator T := ⟨r.start, r.step⟩

def «end» (r : Range T) : Iterator T := ⟨r.stop, r.step⟩

/-- The course of a loop, with the values that its body has been run for. -/
inductive Course (T : Type) where
  | ended (values : List T)
  | overflowed (values : List T)
  /-- The loop goes on. -/
  | running (values : List T)

def Course.cons (value : T) : Course T → Course T
  | .ended values => .ended (value :: values)
  | .overflowed values => .overflowed (value :: values)
  | .running values => .running (value :: values)

/-- The loop `for (; it != end; ++it)`, for at most so many tests. -/
def loop [DecidableEq T] (plus : T → T → Option T) (last : Iterator T) : ℕ → Iterator T → Course T
  | 0, _ => .running []
  | n + 1, it =>
    if it.ne last then
      match it.increment plus with
      | none => .overflowed [it.value]
      | some next => (loop plus last n next).cons it.value
    else .ended []

/-- The loop over a range. -/
def forEach [DecidableEq T] (plus : T → T → Option T) (r : Range T) (n : ℕ) : Course T :=
  loop plus r.end n r.begin

/-- `+` for `int`. -/
def plusInt (a b : Int32) : Option Int32 :=
  if -2 ^ 31 ≤ a.toInt + b.toInt ∧ a.toInt + b.toInt < 2 ^ 31 then
    some (.ofInt (a.toInt + b.toInt))
  else none

/-! ## The loop for `int` -/

open Progression

variable {a b c v d e : Int32} {n : ℕ} {values : List Int32}

theorem toInt_plusInt (h : plusInt a b = some c) : c.toInt = a.toInt + b.toInt := by
  unfold plusInt at h
  split_ifs at h with hin
  rw [← Option.some.inj h]
  exact Int32.toInt_ofInt_of_le hin.1 hin.2

theorem plusInt_eq_none_iff :
    plusInt a b = none ↔ a.toInt + b.toInt < -2 ^ 31 ∨ 2 ^ 31 - 1 < a.toInt + b.toInt := by
  unfold plusInt
  split_ifs with hin
  · simp only [false_iff]
    omega
  · simp only [true_iff]
    omega

/-- The loop is over, or it overflows, or it goes on from the next value. -/
theorem loop_succ_of_eq (v d : Int32) (last : Iterator Int32) (h : v = last.value) :
    loop plusInt last (n + 1) ⟨v, d⟩ = .ended [] := by
  simp [loop, Iterator.ne, h]

theorem loop_succ_of_none {last : Iterator Int32} (h : v ≠ last.value) (hp : plusInt v d = none) :
    loop plusInt last (n + 1) ⟨v, d⟩ = .overflowed [v] := by
  simp [loop, Iterator.ne, Iterator.increment, h, hp]

theorem loop_succ_of_some {last : Iterator Int32} (h : v ≠ last.value) (hp : plusInt v d = some c) :
    loop plusInt last (n + 1) ⟨v, d⟩ = (loop plusInt last n ⟨c, d⟩).cons v := by
  simp [loop, Iterator.ne, Iterator.increment, h, hp]

theorem exists_eq_of_ended {last : Iterator Int32}
    (h : loop plusInt last n ⟨v, d⟩ = .ended values) :
    ∃ k : ℕ, last.value.toInt = v.toInt + k * d.toInt := by
  induction n generalizing v values with
  | zero => cases h
  | succ n ih =>
    by_cases hv : v = last.value
    · exact ⟨0, by simp [hv]⟩
    · cases hp : plusInt v d with
      | none =>
        rw [loop_succ_of_none hv hp] at h
        cases h
      | some c =>
        rw [loop_succ_of_some hv hp] at h
        cases hrest : loop plusInt last n ⟨c, d⟩ with
        | ended rest =>
          obtain ⟨k, hk⟩ := ih hrest
          refine ⟨k + 1, ?_⟩
          rw [hk, toInt_plusInt hp]
          push_cast
          ring
        | overflowed rest =>
          rw [hrest] at h
          cases h
        | running rest =>
          rw [hrest] at h
          cases h

/-- A loop that can come to its end does, over the terms before it. -/
theorem ended_of_eq (last : Iterator Int32) {k : ℕ} (hd : d.toInt ≠ 0)
    (h : last.value.toInt = v.toInt + k * d.toInt) :
    ∃ values, loop plusInt last (k + 1) ⟨v, d⟩ = .ended values ∧
      values.map Int32.toInt = terms v.toInt d.toInt k := by
  induction k generalizing v with
  | zero =>
    have hv : v = last.value := Int32.toInt.inj (by simpa using h.symm)
    exact ⟨[], loop_succ_of_eq v d last hv, rfl⟩
  | succ k ih =>
    have hlast : last.value.toInt = v.toInt + d.toInt + k * d.toInt := by
      rw [h]
      push_cast
      ring
    -- The next value is not past the last one, in either direction.
    have hbetween : 0 ≤ k * d.toInt ∧ 0 < d.toInt ∨ k * d.toInt ≤ 0 ∧ d.toInt < 0 := by
      have hk : (0 : ℤ) ≤ k := Int.natCast_nonneg k
      rcases lt_or_gt_of_ne hd with hneg | hpos
      · exact Or.inr ⟨mul_nonpos_of_nonneg_of_nonpos hk hneg.le, hneg⟩
      · exact Or.inl ⟨mul_nonneg hk hpos.le, hpos⟩
    have hne : v ≠ last.value := by
      intro heq
      rw [heq] at hlast
      omega
    have hlo := v.le_toInt
    have hhi := v.toInt_lt
    have hlo' := last.value.le_toInt
    have hhi' := last.value.toInt_lt
    cases hp : plusInt v d with
    | none =>
      have hout := plusInt_eq_none_iff.1 hp
      omega
    | some c =>
      have hc := toInt_plusInt hp
      rw [← hc] at hlast
      obtain ⟨values, hend, hvalues⟩ := ih hlast
      refine ⟨v :: values, ?_, ?_⟩
      · rw [loop_succ_of_some hne hp, hend]
        rfl
      · rw [List.map_cons, hvalues, hc, terms_succ]

/-- A loop that cannot come to its end overflows. -/
theorem overflowed_of_ne {last : Iterator Int32} {k : ℕ}
    (hk : v.toInt + k * d.toInt < -2 ^ 31 ∨ 2 ^ 31 - 1 < v.toInt + k * d.toInt)
    (h : ∀ k : ℕ, last.value.toInt ≠ v.toInt + k * d.toInt) :
    ∃ n values, loop plusInt last n ⟨v, d⟩ = .overflowed values := by
  induction k generalizing v with
  | zero =>
    have hlo := v.le_toInt
    have hhi := v.toInt_lt
    simp only [Nat.cast_zero, zero_mul, add_zero] at hk
    omega
  | succ k ih =>
    have hv : v ≠ last.value := by
      intro heq
      exact h 0 (by simp [heq])
    cases hp : plusInt v d with
    | none => exact ⟨1, [v], loop_succ_of_none hv hp⟩
    | some c =>
      have hnext : ∀ k : ℕ, c.toInt + k * d.toInt = v.toInt + (k + 1 : ℕ) * d.toInt := by
        intro k
        rw [toInt_plusInt hp]
        push_cast
        ring
      obtain ⟨n, values, hend⟩ := ih (by rwa [hnext]) fun k => hnext k ▸ h (k + 1)
      refine ⟨n + 1, v :: values, ?_⟩
      rw [loop_succ_of_some hv hp, hend]
      rfl

/-! ## Python's `range` -/

/-- The loop over a range of `int` ends without overflow, and its values are those of Python's
`range`. -/
def Enumerates (r : Range Int32) : Prop :=
  ∃ n values, r.forEach plusInt n = .ended values ∧
    IsUpTo r.start.toInt r.stop.toInt r.step.toInt (values.map Int32.toInt)

variable {r : Range Int32}

theorem toInt_ne_zero (h : d ≠ 0) : d.toInt ≠ 0 := by
  intro hzero
  exact h (Int32.toInt.inj (hzero.trans Int32.toInt_zero.symm))

theorem enumerates_of_eq {k : ℕ} (hd : r.step.toInt ≠ 0)
    (hk : r.stop.toInt = r.start.toInt + k * r.step.toInt) : r.Enumerates := by
  obtain ⟨values, hend, hvalues⟩ := ended_of_eq r.end hd hk
  exact ⟨k + 1, values, hend, hvalues ▸ isUpTo_of_eq hd hk⟩

/-- `Range(end)` is enumerated unless the end is negative. -/
theorem enumerates_upTo (h : 0 ≤ e.toInt) : (upTo e).Enumerates := by
  obtain ⟨k, hk⟩ := Int.eq_ofNat_of_zero_le h
  have hend : (upTo e).stop.toInt = (upTo e).start.toInt + k * (upTo e).step.toInt := by
    show e.toInt = 0 + k * 1
    omega
  exact enumerates_of_eq (toInt_ne_zero (d := 1) (by decide)) hend

/-- **Where a range is not enumerated, the loop overflows.** -/
theorem overflows (h : r.step ≠ 0) (hnot : ¬ r.Enumerates) :
    ∃ n values, r.forEach plusInt n = .overflowed values := by
  have hd := toInt_ne_zero h
  obtain ⟨k, hk⟩ := exists_outside hd r.start.toInt (-2 ^ 31) (2 ^ 31 - 1)
  exact overflowed_of_ne hk fun k hk => hnot (enumerates_of_eq hd hk)

/-- **A range enumerates what Python's `range` does, if and only if its end is one of the terms**:
the distance to the end is a multiple of the step, and the step goes towards it. -/
theorem enumerates_iff (r : Range Int32) (h : r.step ≠ 0) :
    r.Enumerates ↔ r.step.toInt ∣ r.stop.toInt - r.start.toInt ∧
      0 ≤ (r.stop.toInt - r.start.toInt) * r.step.toInt := by
  have hd := toInt_ne_zero h
  rw [← exists_eq_iff hd]
  constructor
  · intro henum
    obtain ⟨n, values, hend, -⟩ := henum
    exact exists_eq_of_ended hend
  · intro hexists
    obtain ⟨k, hk⟩ := hexists
    exact enumerates_of_eq hd hk

/-- From 7 down to 1, with a step of -2. -/
theorem enumerates_iff_downwards : Enumerates ⟨7, 1, -2⟩ :=
  (enumerates_iff ⟨7, 1, -2⟩ (by decide)).2 ⟨by decide, by decide⟩

/-- The range from 0 to 5 with a step of 2 passes its end, and so does the one from 5 to 0 with a
step of 1, where Python's `range` has no values. -/
theorem not_enumerates_odd : ¬ Enumerates ⟨0, 5, 2⟩ ∧ ¬ Enumerates ⟨5, 0, 1⟩ := by
  constructor
  · intro henum
    obtain ⟨n, values, hend, -⟩ := henum
    obtain ⟨k, hk⟩ := exists_eq_of_ended hend
    have hk' : (5 : ℤ) = 0 + k * 2 := hk
    omega
  · intro henum
    obtain ⟨n, values, hend, -⟩ := henum
    obtain ⟨k, hk⟩ := exists_eq_of_ended hend
    have hk' : (0 : ℤ) = 5 + k * 1 := hk
    omega

end Range

end Naesala
