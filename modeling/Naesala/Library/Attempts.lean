import Mathlib.Data.List.Basic

/-!
# Calls that may have to try again

A call goes step by step until a step returns. Each step is given a choice from outside, such as
whether a weak compare-exchange fails; `attempt` makes the steps under a list of choices and gives
the state and the result, if the choices are enough.

`Proceeds` says what the steps of a call do: from a state within the call, each goes on within it
or returns, and one that is given the choice `good` and goes on comes closer to the end. Then what
a call returns is as the last step says (`attempt_rule`), and a call ends after any choices, as soon
as enough good ones follow (`attempt_isSome`).
-/

variable {σ ι ρ : Type*} {step : σ → ι → Option (σ × Option ρ)}

/-- Make the steps until one returns. -/
def attempt (step : σ → ι → Option (σ × Option ρ)) : List ι → σ → Option (σ × ρ)
  | [], _ => none
  | c :: cs, s =>
    (step s c).bind fun (s', result) =>
      match result with
      | some r => some (s', r)
      | none => attempt step cs s'

variable {P : σ → Prop} {Q : σ → ρ → Prop} {good : ι} {rank : σ → ℕ}
variable {s s' : σ} {c : ι} {cs : List ι} {r : ρ} {n : ℕ}

theorem attempt_of_return (h : step s c = some (s', some r)) :
    attempt step (c :: cs) s = some (s', r) := by
  rw [attempt, h]
  rfl

theorem attempt_of_continue (h : step s c = some (s', none)) :
    attempt step (c :: cs) s = attempt step cs s' := by
  rw [attempt, h]
  rfl

/-- The steps of a call, where `P` holds within the call, and `Q` of what it returns. -/
def Proceeds (step : σ → ι → Option (σ × Option ρ)) (good : ι) (rank : σ → ℕ) (P : σ → Prop)
    (Q : σ → ρ → Prop) : Prop :=
  ∀ s c, P s → (∃ s', step s c = some (s', none) ∧ P s' ∧ (c = good → rank s' < rank s)) ∨
    ∃ s' r, step s c = some (s', some r) ∧ Q s' r

/-- **The rule for calls.** -/
theorem attempt_rule (hp : Proceeds step good rank P Q) (hs : P s)
    (h : attempt step cs s = some (s', r)) : Q s' r := by
  induction cs generalizing s with
  | nil => cases h
  | cons c cs ih =>
    rcases hp s c hs with ⟨s₁, hstep, h₁, -⟩ | ⟨s₁, r₁, hstep, h₁⟩
    · rw [attempt_of_continue hstep] at h
      exact ih h₁ h
    · rw [attempt_of_return hstep] at h
      cases h
      exact h₁

theorem attempt_replicate_isSome (hp : Proceeds step good rank P Q) (hs : P s)
    (hn : rank s < n) : (attempt step (List.replicate n good) s).isSome := by
  induction n generalizing s with
  | zero => exact absurd hn (Nat.not_lt_zero _)
  | succ n ih =>
    rw [List.replicate_succ]
    rcases hp s good hs with ⟨s₁, hstep, h₁, hlt⟩ | ⟨s₁, r₁, hstep, -⟩
    · rw [attempt_of_continue hstep]
      exact ih h₁ (Nat.lt_of_lt_of_le (hlt rfl) (Nat.le_of_lt_succ hn))
    · rw [attempt_of_return hstep]
      rfl

/-- **Calls end**: whatever the choices `cs`, good ones after them are enough. -/
theorem attempt_isSome (hp : Proceeds step good rank P Q) (hle : ∀ s, rank s < n) (hs : P s)
    (cs : List ι) : (attempt step (cs ++ List.replicate n good) s).isSome := by
  induction cs generalizing s with
  | nil => exact attempt_replicate_isSome hp hs (hle s)
  | cons c cs ih =>
    rw [List.cons_append]
    rcases hp s c hs with ⟨s₁, hstep, h₁, -⟩ | ⟨s₁, r₁, hstep, -⟩
    · rw [attempt_of_continue hstep]
      exact ih h₁
    · rw [attempt_of_return hstep]
      rfl
