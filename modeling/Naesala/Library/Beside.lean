import Naesala.Library.Machine

/-!
# A run beside the same run without one call

What a call has done to a machine is seen beside a run in which it is not made: the call's own
actions happen in the first run only, and those of everybody else in both (`Machine.Beside`).
Where another's action concerns the call, something else may have to happen in the second run,
and `instead` says what.

* `Machine.UnderWay` — the states of the runs whose steps meet a condition since a call has begun.
* `Machine.Beside.rule` — the induction rule: a relation between the two runs.
* `Machine.UnderWay.exists_beside` — the second run, where the others never get stuck in it.
-/

namespace Machine

variable {σ α : Type*} {M : Machine σ α} {ok : σ → α → Prop} {s r : σ}

/-- The actions that begin a call, those that go on with it, and what may happen in place of any
other action where the call is not made. -/
structure Call (α : Type*) where
  begins : α → Prop
  continues : α → Prop
  instead : α → α → Prop

variable {call : Call α}

/-- `s` is reached by a run in which the call has begun and `r` by the same run without it; the
actions of the others since then meet `ok`. -/
inductive Beside (M : Machine σ α) (call : Call α) (ok : σ → α → Prop) : σ → σ → Prop
  | begins {s s' : σ} {a : α} : M.Reachable s → call.begins a → M.step s a = some s' →
      Beside M call ok s' s
  | continues {s s' r : σ} {a : α} : Beside M call ok s r → call.continues a →
      M.step s a = some s' → Beside M call ok s' r
  | other {s s' r r' : σ} {a a' : α} : Beside M call ok s r → call.instead a a' → ok s a →
      M.step s a = some s' → M.step r a' = some r' → Beside M call ok s' r'

theorem Beside.reachable_left (h : M.Beside call ok s r) : M.Reachable s := by
  induction h with
  | begins hs _ hst => exact hs.step trivial hst
  | continues _ _ hst ih => exact ih.step trivial hst
  | other _ _ _ hst _ ih => exact ih.step trivial hst

theorem Beside.reachable_right (h : M.Beside call ok s r) : M.Reachable r := by
  induction h with
  | begins hs _ _ => exact hs
  | continues _ _ _ ih => exact ih
  | other _ _ _ _ hst ih => exact ih.step trivial hst

/-- **The rule for two runs.** -/
theorem Beside.rule {R : σ → σ → Prop} (h : M.Beside call ok s r)
    (hbegins : ∀ s a s', M.Reachable s → call.begins a → M.step s a = some s' → R s' s)
    (hcontinues : ∀ s r a s', M.Reachable s → R s r → call.continues a →
      M.step s a = some s' → R s' r)
    (hother : ∀ s r a a' s' r', M.Reachable s → M.Reachable r → R s r → call.instead a a' →
      ok s a → M.step s a = some s' → M.step r a' = some r' → R s' r') : R s r := by
  induction h with
  | begins hs ha hst => exact hbegins _ _ _ hs ha hst
  | continues hb ha hst ih => exact hcontinues _ _ _ _ hb.reachable_left ih ha hst
  | other hb ha hok hst hst' ih =>
    exact hother _ _ _ _ _ _ hb.reachable_left hb.reachable_right ih ha hok hst hst'

/-- `s` is reached by a run in which the call has begun, and every step since then meets `ok`. -/
inductive UnderWay (M : Machine σ α) (call : Call α) (ok : σ → α → Prop) : σ → Prop
  | begins {s s' : σ} {a : α} : M.Reachable s → call.begins a → M.step s a = some s' →
      UnderWay M call ok s'
  | goesOn {s s' : σ} {a : α} : UnderWay M call ok s → ok s a → M.step s a = some s' →
      UnderWay M call ok s'

theorem UnderWay.reachable (h : M.UnderWay call ok s) : M.Reachable s := by
  induction h with
  | begins hs _ hst => exact hs.step trivial hst
  | goesOn _ _ hst ih => exact ih.step trivial hst

/-- Go on by a list of actions. -/
theorem UnderWay.run {t : σ} (h : M.UnderWay call ok s) (ok' : σ → α → Prop)
    [∀ s a, Decidable (ok' s a)] (hle : ∀ s a, ok' s a → ok s a) (as : List α)
    (hrun : M.run ok' s as = some t) : M.UnderWay call ok t := by
  induction as generalizing s with
  | nil =>
    cases hrun
    exact h
  | cons a as ih =>
    rw [Machine.run] at hrun
    split_ifs at hrun with hok
    obtain ⟨u, hu, hut⟩ := Option.bind_eq_some_iff.1 hrun
    exact ih (h.goesOn (hle s a hok) hu) hut

/-- **The run without the call**, if the call is under way where `P` holds, and the others can
always do what they did. -/
theorem UnderWay.exists_beside {P : σ → Prop} (h : M.UnderWay call ok s)
    (hstep : ∀ s a s', M.Reachable s → ok s a → M.step s a = some s' → P s' →
      call.begins a ∨ P s ∧ (call.continues a ∨ ∃ a', call.instead a a' ∧
        ∀ r, M.Beside call ok s r → ∃ r', M.step r a' = some r'))
    (hs : P s) : ∃ r, M.Beside call ok s r := by
  induction h with
  | @begins s s' a hreach hbegins hst => exact ⟨s, .begins hreach hbegins hst⟩
  | @goesOn s s' a hw hok hst ih =>
    obtain hbegins | ⟨hP, hcontinues | ⟨a', hinstead, henabled⟩⟩ :=
      hstep s a s' hw.reachable hok hst hs
    · exact ⟨s, .begins hw.reachable hbegins hst⟩
    · obtain ⟨r, hb⟩ := ih hP
      exact ⟨r, .continues hb hcontinues hst⟩
    · obtain ⟨r, hb⟩ := ih hP
      obtain ⟨r', hst'⟩ := henabled r hb
      exact ⟨r', .other hb hinstead hok hst hst'⟩

/-- A run whose steps all meet the condition does so since the call has begun. -/
theorem Reach.underWay {P : σ → Prop} (h : M.Reach ok s) (h₀ : ¬ P M.init)
    (hstep : ∀ s a s', M.Reachable s → ok s a → M.step s a = some s' → P s' →
      call.begins a ∨ P s)
    (hs : P s) : M.UnderWay call ok s := by
  induction h with
  | init => exact absurd hs h₀
  | @step s s' a hr hok hst ih =>
    have hreach : M.Reachable s := hr.mono fun _ _ _ => trivial
    obtain hbegins | hP := hstep s a s' hreach hok hst hs
    · exact .begins hreach hbegins hst
    · exact .goesOn (ih hP) hok hst

end Machine
