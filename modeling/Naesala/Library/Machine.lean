import Mathlib.Data.List.Basic
import Mathlib.Tactic.SplitIfs

/-!
# Machines and their runs

A machine has a start state and a partial step function; an action that is not enabled in a
state has no successor there. Everything that happens concurrently is a choice of actions, so
a statement about every interleaving is a statement about every reachable state.

* `Machine.Reach ok` — the states of the runs whose every step meets the condition `ok`.
* `Machine.Reach.invariant` — the induction rule: holds at the start, kept by every such step.
* `Machine.run` — perform a list of actions and check the condition, to exhibit one run.
-/

/-- A start state, and the state after an action, where the action is enabled. -/
structure Machine (σ α : Type*) where
  init : σ
  step : σ → α → Option σ

namespace Machine

variable {σ α : Type*} {M : Machine σ α} {ok ok' : σ → α → Prop}

/-- The states reached by runs whose every step meets `ok`. -/
inductive Reach (M : Machine σ α) (ok : σ → α → Prop) : σ → Prop
  | init : Reach M ok M.init
  | step {s t : σ} {a : α} : Reach M ok s → ok s a → M.step s a = some t → Reach M ok t

/-- The states reached by any run. -/
abbrev Reachable (M : Machine σ α) : σ → Prop := M.Reach fun _ _ => True

/-- **The invariant rule.** -/
theorem Reach.invariant {I : σ → Prop} {s : σ} (h : M.Reach ok s) (h₀ : I M.init)
    (hstep : ∀ s a t, I s → ok s a → M.step s a = some t → I t) : I s := by
  induction h with
  | init => exact h₀
  | step _ hok hst ih => exact hstep _ _ _ ih hok hst

theorem Reach.mono {s : σ} (h : M.Reach ok s) (hle : ∀ s a, ok s a → ok' s a) :
    M.Reach ok' s := by
  induction h with
  | init => exact .init
  | step _ hok hst ih => exact .step ih (hle _ _ hok) hst

/-- Perform the actions in order from `s`, as long as each meets `ok`. -/
def run (M : Machine σ α) (ok : σ → α → Prop) [∀ s a, Decidable (ok s a)] :
    σ → List α → Option σ
  | s, [] => some s
  | s, a :: as => if ok s a then (M.step s a).bind fun t => run M ok t as else none

theorem Reach.run [∀ s a, Decidable (ok s a)] {s t : σ} {as : List α} (hs : M.Reach ok s)
    (h : M.run ok s as = some t) : M.Reach ok t := by
  induction as generalizing s with
  | nil => cases h; exact hs
  | cons a as ih =>
    rw [Machine.run] at h
    split_ifs at h with hok
    obtain ⟨u, hu, hut⟩ := Option.bind_eq_some_iff.1 h
    exact ih (hs.step hok hu) hut

theorem reach_of_run (M : Machine σ α) (ok : σ → α → Prop) [∀ s a, Decidable (ok s a)] (as : List α)
    {t : σ} (h : M.run ok M.init as = some t) : M.Reach ok t :=
  Reach.init.run h

end Machine
