import Naesala.BlockingQueue.ConditionProof
import Naesala.Library.Beside

/-!
# A throw in a condition queue

As in a semaphore queue, `Threads.without` is the state if a call had not been made. A step of
another thread commutes with leaving the call out, unless it wakes the call: then somebody else has
the notification, or nobody. Where nobody could, the call is as good as not made when it has thrown.
-/

namespace Naesala

open BlockingQueue

namespace ConditionQueue

variable {δ τ : Type} {B : CircularBuffer δ} {guarded : Bool} {maxSize : ℕ}
  {s r s' : State B τ} {t u : τ} {done : Done δ}

/-! ## With and without a call -/

def Action.thread : Action δ τ → τ
  | .call t _ | .step t | .throw t | .event (.notify t _) | .event (.spurious t) => t

/-- A call of thread `t`; the other threads do the same without it, and a notification that has
woken it is given to anyone else, or to nobody. -/
def callOf (t : τ) : Machine.Call (Action δ τ) where
  begins a := ∃ c, a = .call t c
  continues a := a = .step t ∨ a = .event (.spurious t)
  instead a a' := a.thread ≠ t ∧
    ((a' = a ∧ ∀ u, a ≠ .event (.notify u (some t))) ∨
      ∃ u target, a = .event (.notify u (some t)) ∧ a' = .event (.notify u target))

/-- An exception has left a call, and all is as it is at `r`, where the call is not made. -/
def NoNetEffect (s' r : State B τ) : Prop := s'.holder = none ∧ s' = r

/-- A notification that wakes `t` could have woken nobody else. -/
def Unshared (t : τ) (s : State B τ) (a : Action δ τ) : Prop :=
  ∀ u, a = .event (.notify u (some t)) → ∀ v d, v ≠ t → (s.pc t).blockedOn d = true →
    (s.pc v).blockedOn d = false

/-- The call has not done its push or pop. -/
def Pc.early : Pc δ → Bool
  | .lock _ _ | .check _ _ | .wait _ | .blocked _ | .act _ _ => true
  | _ => false

variable [DecidableEq τ]

/-- What waking a thread does. -/
theorem wake_cases {d : Side} (h : s.wake d t = some s') :
    ∃ c, s.pc t = .blocked c ∧ c.side = d ∧ s' = s.goto t (.lock c true) := by
  unfold State.wake at h
  split at h
  case h_1 c hpc =>
    simp only [Option.ite_none_right_eq_some, Option.some.injEq] at h
    exact ⟨c, hpc, h.1, h.2.symm⟩
  case h_2 => cases h

variable [Fintype τ]

theorem throw_cases (hst : s.step guarded (.throw t) = some s') :
    ∃ c woken, s.pc t = .act c woken ∧
      s' = { s with holder := if guarded then none else s.holder }.goto t .idle := by
  simp only [State.step] at hst
  split at hst
  case h_1 c woken hpc => exact ⟨c, woken, hpc, (Option.some.inj hst).symm⟩
  case h_2 => cases hst

theorem notify_cases {target : Option τ}
    (hst : s.step guarded (.event (.notify u target)) = some s') :
    ∃ done, s.pc u = .notify done ∧
      State.notifyOne (s.goto u .idle) done.side.other target = some s' := by
  simp only [State.step] at hst
  split at hst
  case h_1 done hpc => exact ⟨done, hpc, hst⟩
  case h_2 => cases hst

theorem exclusive_step (h : Exclusive Pc.inside s.holder s.pc) {a : Action δ τ}
    (hst : s.step guarded a = some s') : Exclusive Pc.inside s'.holder s'.pc := by
  cases a with
  | call t c =>
    simp only [State.step] at hst
    split at hst
    case h_1 => cases hst; exact h.move fun hin => by cases hin
    case h_2 => cases hst
  | step t =>
    simp only [State.step, State.advance] at hst
    cases hpc : s.pc t with
    | idle | blocked c | notify done => simp [hpc] at hst
    | lock c woken =>
      simp only [hpc, Option.ite_none_right_eq_some, Option.some.injEq] at hst
      obtain ⟨hfree, rfl⟩ := hst
      exact Exclusive.lock (hfree ▸ h) t _
    | check c woken =>
      simp only [hpc] at hst
      split at hst <;> cases hst <;> exact h.move fun _ => by rw [hpc]; rfl
    | wait c =>
      simp only [hpc, Option.some.injEq] at hst
      subst hst
      exact h.leave (by rw [hpc]; rfl) rfl none
    | act c woken =>
      simp only [hpc, Option.map_eq_some_iff] at hst
      obtain ⟨⟨contents, done⟩, -, rfl⟩ := hst
      exact h.move fun _ => by rw [hpc]; rfl
    | unlock done =>
      simp only [hpc, Option.some.injEq] at hst
      subst hst
      exact h.leave (by rw [hpc]; rfl) rfl none
  | event e =>
    cases e with
    | notify t target =>
      obtain ⟨done, -, hnotify⟩ := notify_cases hst
      have hidle : Exclusive Pc.inside (s.goto t .idle).holder (s.goto t .idle).pc :=
        h.move fun hin => by cases hin
      cases target with
      | none =>
        simp only [State.notifyOne, Option.ite_none_right_eq_some, Option.some.injEq] at hnotify
        obtain ⟨-, rfl⟩ := hnotify
        exact hidle
      | some v =>
        obtain ⟨c, -, -, rfl⟩ := wake_cases hnotify
        exact hidle.move fun hin => by cases hin
    | spurious t =>
      simp only [State.step] at hst
      split at hst
      case h_1 =>
        obtain ⟨c, -, -, rfl⟩ := wake_cases hst
        exact h.move fun hin => by cases hin
      case h_2 => cases hst
  | throw t =>
    obtain ⟨c, woken, hpc, rfl⟩ := throw_cases hst
    exact h.leave (by rw [hpc]; rfl) rfl _

theorem exclusive_of_reachable (h : (conditionQueue B τ guarded maxSize).Reachable s) :
    Exclusive Pc.inside s.holder s.pc :=
  h.invariant (fun _ ht => by cases ht) fun _ _ _ ih _ hst => exclusive_step ih hst

theorem notifyOne_without (hpc : s.pc u = .notify done) (hu : u ≠ t) {target : Option τ}
    (ht : target ≠ some t) (h : State.notifyOne (s.goto u .idle) done.side.other target = some s') :
    State.step guarded (s.without t) (.event (.notify u target)) = some (s'.without t) := by
  simp only [State.step, Threads.pc_without s hu, hpc]
  rw [← Threads.without_goto s hu]
  cases target with
  | none =>
    simp only [State.notifyOne, Option.ite_none_right_eq_some, Option.some.injEq] at h ⊢
    obtain ⟨hnobody, rfl⟩ := h
    refine ⟨population_eq_zero.2 fun v => ?_, rfl⟩
    by_cases hv : v = t
    · subst hv
      simp [Threads.without, Pc.blockedOn]
    · rw [Threads.pc_without _ hv]
      exact population_eq_zero.1 hnobody v
  | some v =>
    have hv : v ≠ t := fun hv => ht (hv ▸ rfl)
    obtain ⟨c, hblocked, hside, rfl⟩ := wake_cases h
    simp only [State.notifyOne, State.wake, Threads.pc_without _ hv, hblocked, if_pos hside]
    rw [Threads.without_goto _ hv]

/-- **Every step of another thread commutes with leaving out the call**, but for the notification
of the call. -/
theorem step_without (h : Exclusive Pc.inside s.holder s.pc) {a : Action δ τ} (ha : a.thread ≠ t)
    (hn : ∀ u, a ≠ .event (.notify u (some t))) (hst : s.step true a = some s') :
    State.step true (s.without t) a = some (s'.without t) := by
  cases a with
  | call u c =>
    have hu : u ≠ t := ha
    simp only [State.step] at hst ⊢
    rw [Threads.pc_without s hu]
    split at hst
    case h_1 hpc => cases hst; rw [Threads.without_goto s hu]
    case h_2 => cases hst
  | step u =>
    have hu : u ≠ t := ha
    simp only [State.step, State.advance] at hst ⊢
    rw [Threads.pc_without s hu]
    cases hpc : s.pc u with
    | idle | blocked c | notify done => simp [hpc] at hst
    | lock c woken =>
      simp only [hpc, Option.ite_none_right_eq_some, Option.some.injEq] at hst
      obtain ⟨hfree, rfl⟩ := hst
      -- the mutex is free, so `t` is not what keeps `u` waiting
      have ht : (s.pc t).inside = false := Exclusive.outside_of_free (hfree ▸ h) t
      have hfree' : (s.without t).holder = none := by simp [Threads.without, hfree]
      simp only [if_pos hfree']
      exact congrArg some (Threads.without_holder s hu ht (some u) _).symm
    | check c woken =>
      -- the call has done nothing yet: `u` finds the same buffer without it
      have hsame : (s.without t).contents = s.contents := rfl
      simp only [hpc, hsame] at hst ⊢
      cases hready : s.contents.ready c.side with
      | true =>
        simp only [hready, if_true, Option.some.injEq] at hst ⊢
        rw [← hst, Threads.without_goto s hu]
      | false =>
        simp only [hready, Bool.false_eq_true, if_false, Option.some.injEq] at hst ⊢
        rw [← hst, Threads.without_goto s hu]
    | wait c =>
      simp only [hpc, Option.some.injEq] at hst
      subst hst
      have ht : (s.pc t).inside = false := h.alone (by rw [hpc]; rfl) hu.symm
      exact congrArg some (Threads.without_holder s hu ht none _).symm
    | act c woken =>
      simp only [hpc, Option.map_eq_some_iff] at hst
      obtain ⟨⟨contents, done⟩, hp, rfl⟩ := hst
      have hp' : (s.without t).contents.perform c = some (contents, done) := hp
      simp only [hp', Option.map_some]
      rw [Threads.without_goto _ hu]
      rfl
    | unlock done =>
      simp only [hpc, Option.some.injEq] at hst
      subst hst
      have ht : (s.pc t).inside = false := h.alone (by rw [hpc]; rfl) hu.symm
      exact congrArg some (Threads.without_holder s hu ht none _).symm
  | event e =>
    cases e with
    | notify u target =>
      obtain ⟨done, hpc, hnotify⟩ := notify_cases hst
      exact notifyOne_without hpc ha (fun ht => hn u (ht ▸ rfl)) hnotify
    | spurious u =>
      have hu : u ≠ t := ha
      simp only [State.step] at hst ⊢
      rw [Threads.pc_without s hu]
      split at hst
      case h_1 c hpc =>
        obtain ⟨c', hblocked, hside, rfl⟩ := wake_cases hst
        simp only [State.wake, Threads.pc_without s hu, hblocked, if_pos hside]
        rw [Threads.without_goto s hu]
      case h_2 => cases hst
  | throw u =>
    obtain ⟨c, woken, hpc, rfl⟩ := throw_cases hst
    have hu : u ≠ t := ha
    have ht : (s.pc t).inside = false := h.alone (u := t) (t := u) (by rw [hpc]; rfl) hu.symm
    simp only [State.step, Threads.pc_without s hu, hpc]
    exact congrArg some (Threads.without_holder s hu ht none .idle).symm

/-- **A notification that nobody else could have had is given to nobody**, without the call. -/
theorem notify_without (hu : u ≠ t) (ha : Unshared t s (.event (.notify u (some t))))
    (hst : s.step true (.event (.notify u (some t))) = some s') (target : Option τ) :
    State.step true (s.without t) (.event (.notify u target)) =
      if target = none then some (s'.without t) else none := by
  obtain ⟨done, hpc, hnotify⟩ := notify_cases hst
  obtain ⟨c, hblocked, hside, rfl⟩ := wake_cases hnotify
  rw [Threads.pc_goto_of_ne s hu.symm] at hblocked
  have hnobody : ∀ v, (((s.goto u .idle).without t).pc v).blockedOn done.side.other = false := by
    intro v
    by_cases hvt : v = t
    · subst hvt
      simp [Threads.without, Pc.blockedOn]
    · rw [Threads.pc_without _ hvt]
      by_cases hvu : v = u
      · subst hvu
        simp [Threads.goto, Pc.blockedOn]
      · rw [Threads.pc_goto_of_ne s hvu]
        exact ha u rfl v _ hvt (by simp [hblocked, Pc.blockedOn, hside])
  simp only [State.step, Threads.pc_without s hu, hpc]
  rw [← Threads.without_goto s hu]
  cases target with
  | none =>
    have hself : ((s.goto u .idle).goto t (.lock c true)).without t = (s.goto u .idle).without t :=
      Threads.without_self _ (by rw [Threads.pc_goto_of_ne s hu.symm, hblocked]; rfl)
    simp [State.notifyOne, population_eq_zero.2 hnobody, hself]
  | some v =>
    simp only [State.notifyOne, reduceCtorEq, if_false]
    cases hwake : State.wake ((s.goto u .idle).without t) done.side.other v with
    | none => rfl
    | some r' =>
      obtain ⟨c', hv, hside', -⟩ := wake_cases hwake
      have := hnobody v
      simp [hv, Pc.blockedOn, hside'] at this

/-- As long as the call has not done its push or pop, only its own state is different. -/
theorem without_of_continues {a : Action δ τ} (ha : (callOf t).continues a)
    (hst : s.step true a = some s') (he : (s'.pc t).early = true) :
    (s.pc t).early = true ∧ s'.without t = s.without t := by
  obtain rfl | rfl := ha
  · simp only [State.step, State.advance] at hst
    cases hpc : s.pc t with
    | idle | blocked c | notify done => simp [hpc] at hst
    | lock c woken =>
      simp only [hpc, Option.ite_none_right_eq_some, Option.some.injEq] at hst
      obtain ⟨hfree, rfl⟩ := hst
      refine ⟨rfl, ?_⟩
      simp [Threads.without, Threads.goto, hpc, Pc.inside, hfree]
    | check c woken =>
      simp only [hpc] at hst
      refine ⟨rfl, ?_⟩
      split at hst
      · cases hst
        exact Threads.without_self s (by rw [hpc]; rfl)
      · cases hst
        exact Threads.without_self s (by rw [hpc]; rfl)
    | wait c =>
      simp only [hpc, Option.some.injEq] at hst
      subst hst
      refine ⟨rfl, ?_⟩
      simp [Threads.without, Threads.goto, hpc, Pc.inside]
    | act c woken =>
      simp only [hpc, Option.map_eq_some_iff] at hst
      obtain ⟨⟨contents, done⟩, -, rfl⟩ := hst
      simp [Threads.goto, Pc.early] at he
    | unlock done =>
      simp only [hpc, Option.some.injEq] at hst
      subst hst
      simp [Threads.goto, Pc.early] at he
  · simp only [State.step] at hst
    split at hst
    case h_1 c hpc =>
      obtain ⟨c', -, -, rfl⟩ := wake_cases hst
      exact ⟨by rw [hpc]; rfl, Threads.without_self s (by rw [hpc]; rfl)⟩
    case h_2 => cases hst

theorem pc_of_other {a : Action δ τ} (ha : a.thread ≠ t) (hn : ∀ u, a ≠ .event (.notify u (some t)))
    (hst : s.step guarded a = some s') : s'.pc t = s.pc t := by
  cases a with
  | call u c =>
    simp only [State.step] at hst
    split at hst
    case h_1 => cases hst; exact Threads.pc_goto_of_ne s (Ne.symm ha) _
    case h_2 => cases hst
  | step u =>
    have hu : t ≠ u := Ne.symm ha
    simp only [State.step, State.advance] at hst
    cases hpc : s.pc u with
    | idle | blocked c | notify done => simp [hpc] at hst
    | lock c woken =>
      simp only [hpc, Option.ite_none_right_eq_some, Option.some.injEq] at hst
      obtain ⟨-, rfl⟩ := hst
      exact Threads.pc_goto_of_ne _ hu _
    | check c woken =>
      simp only [hpc] at hst
      split at hst <;> cases hst <;> exact Threads.pc_goto_of_ne s hu _
    | wait c | unlock done =>
      simp only [hpc, Option.some.injEq] at hst
      subst hst
      exact Threads.pc_goto_of_ne _ hu _
    | act c woken =>
      simp only [hpc, Option.map_eq_some_iff] at hst
      obtain ⟨⟨contents, done⟩, -, rfl⟩ := hst
      exact Threads.pc_goto_of_ne _ hu _
  | event e =>
    cases e with
    | notify u target =>
      obtain ⟨done, -, hnotify⟩ := notify_cases hst
      cases target with
      | none =>
        simp only [State.notifyOne, Option.ite_none_right_eq_some, Option.some.injEq] at hnotify
        obtain ⟨-, rfl⟩ := hnotify
        exact Threads.pc_goto_of_ne s (Ne.symm ha) _
      | some v =>
        have hv : t ≠ v := fun hv => hn u (hv ▸ rfl)
        obtain ⟨c, -, -, rfl⟩ := wake_cases hnotify
        rw [Threads.pc_goto_of_ne _ hv]
        exact Threads.pc_goto_of_ne s (Ne.symm ha) _
    | spurious u =>
      simp only [State.step] at hst
      split at hst
      case h_1 =>
        obtain ⟨c, -, -, rfl⟩ := wake_cases hst
        exact Threads.pc_goto_of_ne s (Ne.symm ha) _
      case h_2 => cases hst
  | throw u =>
    obtain ⟨c, woken, -, rfl⟩ := throw_cases hst
    exact Threads.pc_goto_of_ne _ (Ne.symm ha) _

/-- A call that has not done its push or pop has just begun, or gone on. -/
theorem own_action {a : Action δ τ} (ha : a.thread = t) (hst : s.step true a = some s')
    (he : (s'.pc t).early = true) :
    (callOf t).begins a ∨ (s.pc t).early = true ∧ (callOf t).continues a := by
  subst ha
  cases a with
  | call t c => exact .inl ⟨c, rfl⟩
  | step t => exact .inr ⟨(without_of_continues (.inl rfl) hst he).1, .inl rfl⟩
  | event e =>
    cases e with
    | notify t target =>
      obtain ⟨done, -, hnotify⟩ := notify_cases hst
      cases target with
      | none =>
        simp only [State.notifyOne, Option.ite_none_right_eq_some, Option.some.injEq] at hnotify
        obtain ⟨-, rfl⟩ := hnotify
        simp [Threads.goto, Action.thread, Pc.early] at he
      | some v =>
        obtain ⟨c, hblocked, -, rfl⟩ := wake_cases hnotify
        by_cases hv : t = v
        · subst hv
          simp [Threads.goto] at hblocked
        · rw [Action.thread, Threads.pc_goto_of_ne _ hv] at he
          simp [Threads.goto, Pc.early] at he
    | spurious t => exact .inr ⟨(without_of_continues (.inr rfl) hst he).1, .inr rfl⟩
  | throw t =>
    obtain ⟨c, woken, -, rfl⟩ := throw_cases hst
    simp [Threads.goto, Action.thread, Pc.early] at he

theorem early_of_notified (hu : u ≠ t) (hst : s.step true (.event (.notify u (some t))) = some s') :
    (s.pc t).early = true := by
  obtain ⟨done, -, hnotify⟩ := notify_cases hst
  obtain ⟨c, hblocked, -, -⟩ := wake_cases hnotify
  rw [Threads.pc_goto_of_ne s hu.symm] at hblocked
  rw [hblocked]
  rfl

theorem eq_without
    (h : (conditionQueue B τ true maxSize).Beside (callOf t) (Unshared t) s r)
    (he : (s.pc t).early = true) : r = s.without t := by
  revert he
  refine h.rule (R := fun s r => (s.pc t).early = true → r = s.without t) ?_ ?_ ?_
  · rintro s a s' - ⟨c, rfl⟩ hst -
    simp only [conditionQueue, State.step] at hst
    split at hst
    case h_1 hpc =>
      cases hst
      exact (Threads.without_begun s hpc rfl).symm
    case h_2 => cases hst
  · intro s r a s' _ ih ha hst he
    obtain ⟨hearly, hwithout⟩ := without_of_continues ha hst he
    rw [hwithout]
    exact ih hearly
  · rintro s r a a' s' r' hs - ih ⟨ha, ⟨rfl, hn⟩ | ⟨u, target, rfl, rfl⟩⟩ hok hst hst' he
    · have hsame : s'.pc t = s.pc t := pc_of_other ha hn hst
      obtain rfl := ih (hsame ▸ he)
      have hstep := step_without (exclusive_of_reachable hs) ha hn hst
      exact Option.some.inj (hst'.symm.trans hstep)
    · obtain rfl := ih (early_of_notified ha hst)
      have hnotify := hst'.symm.trans (notify_without ha hok hst target)
      split at hnotify
      case isTrue => exact Option.some.inj hnotify
      case isFalse => cases hnotify

/-- The other threads never get stuck without the call. -/
theorem exists_beside (h : (conditionQueue B τ true maxSize).UnderWay (callOf t) (Unshared t) s)
    (he : (s.pc t).early = true) :
    ∃ r, (conditionQueue B τ true maxSize).Beside (callOf t) (Unshared t) s r := by
  refine h.exists_beside (P := fun s => (s.pc t).early = true) ?_ he
  intro s a s' hs hok hst he
  by_cases ha : a.thread = t
  · obtain hbegins | hcontinues := own_action ha hst he
    · exact .inl hbegins
    · exact .inr ⟨hcontinues.1, .inl hcontinues.2⟩
  · by_cases hn : ∀ u, a ≠ .event (.notify u (some t))
    · have hsame : s'.pc t = s.pc t := pc_of_other ha hn hst
      refine .inr ⟨hsame ▸ he, .inr ⟨a, ⟨ha, .inl ⟨rfl, hn⟩⟩, fun r hb => ?_⟩⟩
      obtain rfl := eq_without hb (hsame ▸ he)
      exact ⟨_, step_without (exclusive_of_reachable hs) ha hn hst⟩
    · simp only [not_forall, not_not] at hn
      obtain ⟨u, rfl⟩ := hn
      have hbefore := early_of_notified ha hst
      refine .inr ⟨hbefore, .inr ⟨.event (.notify u none), ⟨ha, .inr ⟨u, none, rfl, rfl⟩⟩,
        fun r hb => ?_⟩⟩
      obtain rfl := eq_without hb hbefore
      exact ⟨_, (notify_without ha hok hst none).trans (if_pos rfl)⟩

/-- A call that throws never leaves the mutex of the `pthread` class. -/
theorem holder_of_throw (h : (conditionQueue B τ false maxSize).Reachable s)
    (hst : s.step false (.throw t) = some s') : s'.holder = some t := by
  obtain ⟨c, woken, hpc, rfl⟩ := throw_cases hst
  exact exclusive_of_reachable h t (by rw [hpc]; rfl)

/-- **What becomes of `CplusConditionBoundedBlockingQueue`**: all is as without the call, if no
notification is lost with it. -/
theorem noNetEffect_of_unshared
    (h : (conditionQueue B τ true maxSize).Beside (callOf t) (Unshared t) s r)
    (hst : s.step true (.throw t) = some s') : NoNetEffect s' r := by
  obtain ⟨c, woken, hpc, rfl⟩ := throw_cases hst
  obtain rfl := eq_without h (by rw [hpc]; rfl)
  refine ⟨rfl, ?_⟩
  simp [Threads.without, Threads.goto, hpc, Pc.inside]

end ConditionQueue

end Naesala
