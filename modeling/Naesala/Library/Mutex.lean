import Mathlib.Logic.Function.Basic

/-!
# Mutual exclusion by a mutex

`pc t` is where thread `t` is, and `inside` says of a place that it is between a lock and the
unlock after it. `Exclusive` says that only the holder of the mutex is inside; it has a rule for
each way in which a thread can move. `Attended` is the converse, as long as nobody leaves without
unlocking: then the mutex is free when nobody is inside.
-/

/-- Only the holder of the mutex is inside. -/
def Exclusive {τ α : Type*} (inside : α → Bool) (holder : Option τ) (pc : τ → α) : Prop :=
  ∀ t, inside (pc t) = true → holder = some t

namespace Exclusive

variable {τ α : Type*} {inside : α → Bool} {holder : Option τ} {pc : τ → α} {t : τ} {a : α}

/-- Nobody else is inside with the thread that is. -/
theorem alone (h : Exclusive inside holder pc) (ht : inside (pc t) = true) {u : τ} (hu : u ≠ t) :
    inside (pc u) = false := by
  cases hin : inside (pc u) with
  | false => rfl
  | true => exact absurd (Option.some.inj ((h u hin).symm.trans (h t ht))) hu

theorem outside_of_free (h : Exclusive inside none pc) (t : τ) : inside (pc t) = false := by
  cases hin : inside (pc t) with
  | false => rfl
  | true => cases h t hin

variable [DecidableEq τ]

/-- Thread `t` moves, with the mutex or without it. -/
theorem move (h : Exclusive inside holder pc)
    (hin : inside a = true → inside (pc t) = true) :
    Exclusive inside holder (Function.update pc t a) := by
  intro u hu
  by_cases hut : u = t
  · subst hut
    rw [Function.update_self] at hu
    exact h u (hin hu)
  · rw [Function.update_of_ne hut] at hu
    exact h u hu

theorem lock (h : Exclusive inside none pc) (t : τ) (a : α) :
    Exclusive inside (some t) (Function.update pc t a) := by
  intro u hu
  by_cases hut : u = t
  · rw [hut]
  · rw [Function.update_of_ne hut, h.outside_of_free u] at hu
    cases hu

theorem leave (h : Exclusive inside holder pc) (ht : inside (pc t) = true)
    (ha : inside a = false) (holder' : Option τ) :
    Exclusive inside holder' (Function.update pc t a) := by
  intro u hu
  by_cases hut : u = t
  · subst hut
    rw [Function.update_self, ha] at hu
    cases hu
  · rw [Function.update_of_ne hut, h.alone ht hut] at hu
    cases hu

end Exclusive

/-- The holder of the mutex is inside. -/
def Attended {τ α : Type*} (inside : α → Bool) (holder : Option τ) (pc : τ → α) : Prop :=
  ∀ t, holder = some t → inside (pc t) = true

namespace Attended

variable {τ α : Type*} {inside : α → Bool} {holder : Option τ} {pc : τ → α} {t : τ} {a : α}

theorem free : Attended inside none pc := by
  intro t ht
  cases ht

theorem eq_none (h : Attended inside holder pc) (hout : ∀ t, inside (pc t) = false) :
    holder = none := by
  cases hholder : holder with
  | none => rfl
  | some t =>
    have hin := h t hholder
    rw [hout t] at hin
    cases hin

variable [DecidableEq τ]

theorem lock (t : τ) (ha : inside a = true) :
    Attended inside (some t) (Function.update pc t a) := by
  intro u hu
  cases hu
  rwa [Function.update_self]

theorem move (h : Attended inside holder pc) (hin : inside (pc t) = true → inside a = true) :
    Attended inside holder (Function.update pc t a) := by
  intro u hu
  by_cases hut : u = t
  · subst hut
    rw [Function.update_self]
    exact hin (h u hu)
  · rw [Function.update_of_ne hut]
    exact h u hu

end Attended
