import Naesala.BlockingQueue.SemaphoreProof
import Naesala.Library.Beside

/-!
# A throw in a semaphore queue

The copy of a `Task` throws between the lock and the push or pop. What the call has done by then is
seen beside the same run without it (`Machine.Beside`): without the call, the state of a queue is
`State.without`, a function of the state with it, and each step of another thread commutes with
this. The `pthread` class is left locked; the other one unlocks, and loses the permit that the call
has waited for.
-/

namespace Naesala

open BlockingQueue

namespace SemaphoreQueue

variable {δ τ : Type} {B : CircularBuffer δ} {S : Semaphore} {guarded : Bool} {v₀ : ℕ}
  {s r s' s₁ : State B τ} {t u : τ}

/-! ## With and without a call -/

def Action.thread : Action δ τ → τ
  | .call t _ | .step t | .throw t | .event (.interrupt t) => t

/-- A call of thread `t`; the other threads do the same without it. -/
def callOf (t : τ) : Machine.Call (Action δ τ) where
  begins a := ∃ c, a = .call t c
  continues a := a = .step t ∨ a = .event (.interrupt t)
  instead a a' := a.thread ≠ t ∧ a' = a

/-- An exception has left a call, and all is as it is at `r`, where the call is not made. -/
def NoNetEffect (s' r : State B τ) : Prop :=
  s'.holder = none ∧ s'.contents = r.contents ∧ ∀ d, s'.sem d = r.sem d

/-- The call has not done its push or pop. -/
def Pc.early : Pc δ → Bool
  | .wait _ | .lock _ | .act _ => true
  | _ => false

variable [DecidableEq τ]

/-- What a throw does. -/
theorem throw_cases (hst : s.step S guarded (.throw t) = some s') :
    ∃ c, s.pc t = .act c ∧
      s' = { s with holder := if guarded then none else s.holder }.goto t .idle := by
  simp only [State.step] at hst
  split at hst
  case h_1 c hpc => exact ⟨c, hpc, (Option.some.inj hst).symm⟩
  case h_2 => cases hst

/-- **What a step does**: one thread moves, and locks or leaves where it does not stay. -/
theorem step_goto {a : Action δ τ} (hst : s.step S guarded a = some s') :
    ∃ (s₁ : State B τ) (pc : Pc δ), s' = s₁.goto a.thread pc ∧ s₁.pc = s.pc ∧
      (s₁.holder = s.holder ∧ (pc.inside = true → (s.pc a.thread).inside = true) ∨
        s.holder = none ∧ s₁.holder = some a.thread ∨
        (s.pc a.thread).inside = true ∧ pc.inside = false) := by
  cases a with
  | call t c =>
    simp only [State.step] at hst
    split at hst
    case h_1 =>
      cases hst
      exact ⟨s, _, rfl, rfl, .inl ⟨rfl, fun hin => by cases hin⟩⟩
    case h_2 => cases hst
  | step t =>
    simp only [State.step, State.advance] at hst
    cases hpc : s.pc t with
    | idle => simp [hpc] at hst
    | wait c =>
      simp only [hpc, Option.ite_none_right_eq_some, Option.some.injEq] at hst
      obtain ⟨-, rfl⟩ := hst
      refine ⟨_, _, rfl, by rw [State.toThreads_setSem],
        .inl ⟨by rw [State.toThreads_setSem], ?_⟩⟩
      intro hin
      cases hin
    | lock c =>
      simp only [hpc, Option.ite_none_right_eq_some, Option.some.injEq] at hst
      obtain ⟨hfree, rfl⟩ := hst
      exact ⟨_, _, rfl, rfl, .inr (.inl ⟨hfree, rfl⟩)⟩
    | act c =>
      simp only [hpc, Option.map_eq_some_iff] at hst
      obtain ⟨⟨contents, done⟩, -, rfl⟩ := hst
      exact ⟨_, _, rfl, rfl, .inl ⟨rfl, fun _ => by rw [Action.thread, hpc]; rfl⟩⟩
    | unlock done =>
      simp only [hpc, Option.some.injEq] at hst
      subst hst
      exact ⟨_, _, rfl, rfl, .inr (.inr ⟨by rw [Action.thread, hpc]; rfl, rfl⟩)⟩
    | post done =>
      simp only [hpc, Option.some.injEq] at hst
      subst hst
      refine ⟨_, _, rfl, by rw [State.toThreads_setSem],
        .inl ⟨by rw [State.toThreads_setSem], ?_⟩⟩
      intro hin
      cases hin
  | event e =>
    simp only [State.step] at hst
    split at hst
    case h_1 =>
      simp only [Option.ite_none_right_eq_some, Option.some.injEq] at hst
      obtain ⟨-, rfl⟩ := hst
      exact ⟨s, _, rfl, rfl, .inl ⟨rfl, fun hin => by cases hin⟩⟩
    case h_2 => cases hst
  | throw t =>
    obtain ⟨c, hpc, rfl⟩ := throw_cases hst
    exact ⟨_, _, rfl, rfl, .inr (.inr ⟨by rw [Action.thread, hpc]; rfl, rfl⟩)⟩

theorem pc_of_other {a : Action δ τ} (ha : a.thread ≠ t) (hst : s.step S guarded a = some s') :
    s'.pc t = s.pc t := by
  obtain ⟨s₁, pc, rfl, hpc, -⟩ := step_goto hst
  rw [← hpc]
  exact Function.update_of_ne ha.symm _ _

theorem exclusive_step (h : Exclusive Pc.inside s.holder s.pc) {a : Action δ τ}
    (hst : s.step S guarded a = some s') : Exclusive Pc.inside s'.holder s'.pc := by
  obtain ⟨s₁, pc, rfl, hpc, hcase⟩ := step_goto hst
  show Exclusive Pc.inside s₁.holder (Function.update s₁.pc a.thread pc)
  rw [hpc]
  obtain ⟨hh, hin⟩ | ⟨hfree, hh⟩ | ⟨hin, hout⟩ := hcase
  · rw [hh]
    exact h.move hin
  · rw [hh]
    exact Exclusive.lock (hfree ▸ h) a.thread pc
  · exact h.leave hin hout _

theorem exclusive_of_reachable {maxSize : ℕ} {s₀ : State B τ}
    (h₀ : construct B τ S maxSize = some s₀) (h : (semaphoreQueue S guarded s₀).Reachable s) :
    Exclusive Pc.inside s.holder s.pc := by
  refine h.invariant ?_ fun _ _ _ ih _ hst => exclusive_step ih hst
  simp only [construct, Option.map_eq_some_iff] at h₀
  obtain ⟨v, -, rfl⟩ := h₀
  intro t ht
  cases ht

/-- The state if thread `t` did not have the call that it has. -/
def State.without (s : State B τ) (t : τ) : State B τ where
  toThreads := s.toThreads.without t
  notFull := s.notFull + ((s.pc t).holds .put).toNat
  notEmpty := s.notEmpty + ((s.pc t).holds .take).toNat

theorem State.pc_without (s : State B τ) (hu : u ≠ t) : (s.without t).pc u = s.pc u :=
  s.toThreads.pc_without hu

theorem State.sem_without (s : State B τ) (t : τ) (d : Side) :
    (s.without t).sem d = s.sem d + ((s.pc t).holds d).toNat := by
  cases d <;> rfl

/-- Another thread moves. -/
theorem State.without_goto (s : State B τ) (hu : u ≠ t) (pc : Pc δ) :
    (s.goto u pc).without t = (s.without t).goto u pc := by
  simp only [State.without, State.goto, Threads.without_goto s.toThreads hu,
    Threads.pc_goto_of_ne s.toThreads hu.symm]

theorem State.without_setSem (s : State B τ) (t : τ) (d : Side) (v : ℕ) :
    (s.setSem d v).without t = (s.without t).setSem d (v + ((s.pc t).holds d).toNat) := by
  cases d <;> rfl

theorem State.without_holder (s : State B τ) (hu : u ≠ t) (ht : (s.pc t).inside = false)
    (holder : Option τ) (pc : Pc δ) :
    ({ s with holder := holder }.goto u pc).without t =
      { s.without t with holder := holder }.goto u pc := by
  rw [State.without_goto _ hu]
  simp [State.without, Threads.without, ht]

theorem State.without_begun (s : State B τ) (ht : s.pc t = .idle) (c : Call δ) :
    (s.goto t (.wait c)).without t = s := by
  have hout : Place.inside (Pc.wait c) = false := rfl
  simp [State.without, State.goto, Threads.without_begun s.toThreads ht hout, Pc.holds]

/-- A semaphore that would have a permit more without the call of thread `t` counts it as well. -/
theorem post_without [Fintype τ] (hI : Inv v₀ (s.without t)) (hS : v₀ ≤ S.max) (hu : u ≠ t)
    {done : Done δ} (hpc : s.pc u = .post done) {d : Side} (hd : d = done.side.other) :
    S.post ((s.without t).sem d) = S.post (s.sem d) + ((s.pc t).holds d).toNat := by
  subst hd
  have hpc' : (s.without t).pc u = .post done := by rw [State.pc_without s hu, hpc]
  have hlt := sem_lt_permits hpc'
  have hle := (hI.permits_le done.side.other).trans (hI.available_le _)
  have hsem := State.sem_without s t done.side.other
  rw [S.post_of_lt _ (by omega), S.post_of_lt _ (by omega), hsem]
  omega

/-- **Every step of another thread commutes with leaving out the call.** -/
theorem step_without [Fintype τ] (h : Exclusive Pc.inside s.holder s.pc)
    (hI : Inv v₀ (s.without t)) (hS : v₀ ≤ S.max) {a : Action δ τ} (ha : a.thread ≠ t)
    (hst : s.step S true a = some s') :
    (s.without t).step S true a = some (s'.without t) := by
  cases a with
  | call u c =>
    have hu : u ≠ t := ha
    simp only [State.step] at hst ⊢
    rw [State.pc_without s hu]
    split at hst
    case h_1 hpc => cases hst; rw [State.without_goto s hu]
    case h_2 => cases hst
  | step u =>
    have hu : u ≠ t := ha
    simp only [State.step, State.advance] at hst ⊢
    rw [State.pc_without s hu]
    cases hpc : s.pc u with
    | idle => simp [hpc] at hst
    | wait c =>
      simp only [hpc, Option.ite_none_right_eq_some, Option.some.injEq] at hst
      obtain ⟨hpos, rfl⟩ := hst
      -- without the call there are at least as many permits
      have hsem := State.sem_without s t c.side
      have hsub : (s.without t).sem c.side - 1 =
          s.sem c.side - 1 + ((s.pc t).holds c.side).toNat := by omega
      simp only [hsub, if_pos (show 0 < (s.without t).sem c.side by omega)]
      rw [State.without_goto _ hu, State.without_setSem]
    | lock c =>
      simp only [hpc, Option.ite_none_right_eq_some, Option.some.injEq] at hst
      obtain ⟨hfree, rfl⟩ := hst
      have ht : (s.pc t).inside = false := Exclusive.outside_of_free (hfree ▸ h) t
      have hfree' : (s.without t).holder = none := by simp [State.without, Threads.without, hfree]
      simp only [if_pos hfree']
      exact congrArg some (State.without_holder s hu ht (some u) _).symm
    | act c =>
      simp only [hpc, Option.map_eq_some_iff] at hst
      obtain ⟨⟨contents, done⟩, hp, rfl⟩ := hst
      have hp' : (s.without t).contents.perform c = some (contents, done) := hp
      simp only [hp', Option.map_some]
      rw [State.without_goto _ hu]
      rfl
    | unlock done =>
      simp only [hpc, Option.some.injEq] at hst
      subst hst
      have ht : (s.pc t).inside = false := h.alone (by rw [hpc]; rfl) hu.symm
      exact congrArg some (State.without_holder s hu ht none _).symm
    | post done =>
      simp only [hpc, Option.some.injEq] at hst
      subst hst
      simp only
      rw [State.without_goto _ hu, State.without_setSem, post_without hI hS hu hpc rfl]
  | event e =>
    obtain ⟨u⟩ := e
    have hu : u ≠ t := ha
    simp only [State.step] at hst ⊢
    rw [State.pc_without s hu]
    split at hst
    case h_1 hpc =>
      simp only [Option.ite_none_right_eq_some, Option.some.injEq] at hst
      obtain ⟨hS', rfl⟩ := hst
      simp only [if_pos hS', State.without_goto s hu]
    case h_2 => cases hst
  | throw u =>
    obtain ⟨c, hpc, rfl⟩ := throw_cases hst
    have hu : u ≠ t := ha
    have ht : (s.pc t).inside = false := h.alone (u := t) (t := u) (by rw [hpc]; rfl) hu.symm
    simp only [State.step, State.pc_without s hu, hpc]
    exact congrArg some (State.without_holder s hu ht none .idle).symm

theorem without_of_continues (hi : S.interruptible = false) {a : Action δ τ}
    (ha : (callOf t).continues a) (hst : s.step S true a = some s') (he : (s'.pc t).early = true) :
    (s.pc t).early = true ∧ s'.without t = s.without t := by
  obtain rfl | rfl := ha
  · simp only [State.step, State.advance] at hst
    cases hpc : s.pc t with
    | idle => simp [hpc] at hst
    | wait c =>
      simp only [hpc, Option.ite_none_right_eq_some, Option.some.injEq] at hst
      obtain ⟨hpos, rfl⟩ := hst
      refine ⟨rfl, ?_⟩
      have hself : (s.toThreads.goto t (.lock c)).without t = s.toThreads.without t :=
        s.toThreads.without_self (by rw [hpc]; rfl)
      cases c <;> simp_all [State.without, State.goto, State.setSem, State.sem, Call.side, Pc.holds]
        <;> omega
    | lock c =>
      simp only [hpc, Option.ite_none_right_eq_some, Option.some.injEq] at hst
      obtain ⟨hfree, rfl⟩ := hst
      refine ⟨rfl, ?_⟩
      simp [State.without, State.goto, Threads.without, hpc, Pc.holds, Pc.inside, hfree]
    | act c =>
      simp only [hpc, Option.map_eq_some_iff] at hst
      obtain ⟨⟨contents, done⟩, -, rfl⟩ := hst
      simp [State.goto, Pc.early] at he
    | unlock done | post done =>
      simp only [hpc, Option.some.injEq] at hst
      subst hst
      simp [State.goto, Pc.early] at he
  · simp only [State.step, hi] at hst
    split at hst <;> cases hst

theorem own_action (hi : S.interruptible = false) {a : Action δ τ} (ha : a.thread = t)
    (hst : s.step S true a = some s') (he : (s'.pc t).early = true) :
    (callOf t).begins a ∨ (s.pc t).early = true ∧ (callOf t).continues a := by
  subst ha
  cases a with
  | call t c => exact .inl ⟨c, rfl⟩
  | step t => exact .inr ⟨(without_of_continues hi (.inl rfl) hst he).1, .inl rfl⟩
  | event e => exact .inr ⟨(without_of_continues hi (.inr rfl) hst he).1, .inr rfl⟩
  | throw t =>
    obtain ⟨c, -, rfl⟩ := throw_cases hst
    simp [State.goto, Action.thread, Pc.early] at he

section

variable [Fintype τ] {maxSize : ℕ} {s₀ : State B τ} {ok : State B τ → Action δ τ → Prop}

theorem eq_without (hi : S.interruptible = false) (h₀ : construct B τ S maxSize = some s₀)
    (h : (semaphoreQueue S true s₀).Beside (callOf t) ok s r) (he : (s.pc t).early = true) :
    r = s.without t := by
  have hmax := (S.le_of_make _ _ (construct_spec h₀).1).2
  revert he
  refine h.rule (R := fun s r => (s.pc t).early = true → r = s.without t) ?_ ?_ ?_
  · rintro s a s' - ⟨c, rfl⟩ hst -
    simp only [semaphoreQueue, State.step] at hst
    split at hst
    case h_1 hpc => cases hst; rw [State.without_begun s hpc]
    case h_2 => cases hst
  · intro s r a s' _ ih ha hst he
    obtain ⟨hearly, hwithout⟩ := without_of_continues hi ha hst he
    rw [hwithout]
    exact ih hearly
  · rintro s r a a' s' r' hs hr ih ⟨ha, rfl⟩ - hst hst' he
    have hsame : s'.pc t = s.pc t := pc_of_other ha hst
    obtain rfl := ih (hsame ▸ he)
    have hI := inv_of_reach h₀ (fun _ _ _ => .inr hi) hr
    have hstep := step_without (exclusive_of_reachable h₀ hs) hI hmax ha hst
    exact Option.some.inj (hst'.symm.trans hstep)

omit [Fintype τ] in
theorem underWay (hi : S.interruptible = false) (h₀ : construct B τ S maxSize = some s₀)
    (h : (semaphoreQueue S true s₀).Reach ok s) (he : (s.pc t).early = true) :
    (semaphoreQueue S true s₀).UnderWay (callOf t) ok s := by
  refine h.underWay (P := fun s => (s.pc t).early = true) ?_ ?_ he
  · simp only [construct, Option.map_eq_some_iff] at h₀
    obtain ⟨v, -, rfl⟩ := h₀
    simp [semaphoreQueue, State.fresh, Pc.early]
  · intro s a s' _ _ hst he
    by_cases ha : a.thread = t
    · exact (own_action hi ha hst he).imp_right And.left
    · exact .inr (pc_of_other ha hst ▸ he)

theorem exists_beside (hi : S.interruptible = false) (h₀ : construct B τ S maxSize = some s₀)
    (h : (semaphoreQueue S true s₀).UnderWay (callOf t) ok s) (he : (s.pc t).early = true) :
    ∃ r, (semaphoreQueue S true s₀).Beside (callOf t) ok s r := by
  have hmax := (S.le_of_make _ _ (construct_spec h₀).1).2
  refine h.exists_beside (P := fun s => (s.pc t).early = true) ?_ he
  intro s a s' hs _ hst he
  by_cases ha : a.thread = t
  · obtain hbegins | hcontinues := own_action hi ha hst he
    · exact .inl hbegins
    · exact .inr ⟨hcontinues.1, .inl hcontinues.2⟩
  · have hsame : s'.pc t = s.pc t := pc_of_other ha hst
    refine .inr ⟨hsame ▸ he, .inr ⟨a, ⟨ha, rfl⟩, fun r hb => ?_⟩⟩
    obtain rfl := eq_without hi h₀ hb (hsame ▸ he)
    have hI := inv_of_reach h₀ (fun _ _ _ => .inr hi) hb.reachable_right
    exact ⟨_, step_without (exclusive_of_reachable h₀ hs) hI hmax ha hst⟩

omit [Fintype τ] in
theorem holder_of_throw (h₀ : construct B τ S maxSize = some s₀)
    (h : (semaphoreQueue S false s₀).Reachable s)
    (hst : s.step S false (.throw t) = some s') : s'.holder = some t := by
  obtain ⟨c, hpc, rfl⟩ := throw_cases hst
  exact exclusive_of_reachable h₀ h t (by rw [hpc]; rfl)

/-- **What becomes of `CplusSemaphoreBoundedBlockingQueue`**: all is as without the call, but for
the permit that it had waited for. -/
theorem permit_lost (hi : S.interruptible = false) (h₀ : construct B τ S maxSize = some s₀)
    (h : (semaphoreQueue S true s₀).Beside (callOf t) ok s r) {c : Call δ} (hpc : s.pc t = .act c)
    (hst : s.step S true (.throw t) = some s') :
    s'.holder = none ∧ s'.contents = r.contents ∧ s'.pc = r.pc ∧
      s'.sem c.side + 1 = r.sem c.side ∧ s'.sem c.side.other = r.sem c.side.other := by
  obtain ⟨c', hpc', rfl⟩ := throw_cases hst
  obtain rfl := eq_without hi h₀ h (by rw [hpc]; rfl)
  refine ⟨rfl, rfl, rfl, ?_, ?_⟩
  · rw [State.sem_without, hpc]
    cases c <;> rfl
  · rw [State.sem_without, hpc]
    cases c <;> rfl

end

end SemaphoreQueue

end Naesala
