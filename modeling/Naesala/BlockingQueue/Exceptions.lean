import Naesala.BlockingQueue.ConditionThrow
import Naesala.BlockingQueue.SemaphoreThrow

/-!
# What an exception leaves of a call

* The `pthread` queues leave the mutex locked.
* `CplusSemaphoreBoundedBlockingQueue` unlocks, and loses the permit that the call has waited for.
* `CplusConditionBoundedBlockingQueue` unlocks, and loses nothing but a notification: the call has
  no net effect if each notification that woke it could have woken nobody else.
-/

namespace Naesala

namespace BlockingQueue

variable {δ τ : Type} [DecidableEq τ] [Fintype τ]

/-- **What an exception leaves of a call**, in every run. Three of the classes never are as they
would be without the call: the `pthread` classes do not unlock, and
`CplusSemaphoreBoundedBlockingQueue` loses a permit. `CplusConditionBoundedBlockingQueue` is, if
no notification has been lost with the call, whatever earlier calls have done. -/
theorem effect_of_throw (B : CircularBuffer δ) (maxSize : ℕ) (t : τ) :
    (∀ (semValueMax : ℕ) (s₀ s s' r : SemaphoreQueue.State B τ),
      SemaphoreQueue.construct B τ (posixSemaphore semValueMax) maxSize = some s₀ →
      (semaphoreBoundedBlockingQueue semValueMax s₀).Reachable s →
      (semaphoreBoundedBlockingQueue semValueMax s₀).step s (.throw t) = some s' →
      ¬ SemaphoreQueue.NoNetEffect s' r) ∧
    (∀ (S : Semaphore) (s₀ s s' : SemaphoreQueue.State B τ), S.interruptible = false →
      SemaphoreQueue.construct B τ S maxSize = some s₀ →
      (cplusSemaphoreBoundedBlockingQueue S s₀).Reachable s →
      (cplusSemaphoreBoundedBlockingQueue S s₀).step s (.throw t) = some s' →
      (∃ r, (cplusSemaphoreBoundedBlockingQueue S s₀).Beside (SemaphoreQueue.callOf t)
        (fun _ _ => True) s r) ∧
      ∀ r, (cplusSemaphoreBoundedBlockingQueue S s₀).Beside (SemaphoreQueue.callOf t)
        (fun _ _ => True) s r → ¬ SemaphoreQueue.NoNetEffect s' r) ∧
    (∀ s s' r : ConditionQueue.State B τ,
      (conditionBoundedBlockingQueue B τ maxSize).Reachable s →
      (conditionBoundedBlockingQueue B τ maxSize).step s (.throw t) = some s' →
      ¬ ConditionQueue.NoNetEffect s' r) ∧
    ∀ s s' : ConditionQueue.State B τ,
      (cplusConditionBoundedBlockingQueue B τ maxSize).UnderWay (ConditionQueue.callOf t)
        (ConditionQueue.Unshared t) s →
      (cplusConditionBoundedBlockingQueue B τ maxSize).step s (.throw t) = some s' →
      (∃ r, (cplusConditionBoundedBlockingQueue B τ maxSize).Beside (ConditionQueue.callOf t)
        (ConditionQueue.Unshared t) s r) ∧
      ∀ r, (cplusConditionBoundedBlockingQueue B τ maxSize).Beside (ConditionQueue.callOf t)
        (ConditionQueue.Unshared t) s r → ConditionQueue.NoNetEffect s' r := by
  refine ⟨?_, ?_, ?_, ?_⟩
  · intro semValueMax s₀ s s' r h₀ hs hst heffect
    have hheld := SemaphoreQueue.holder_of_throw h₀ hs hst
    exact absurd (hheld.symm.trans heffect.1) (Option.some_ne_none t)
  · intro S s₀ s s' hi h₀ hs hst
    obtain ⟨c, hpc, -⟩ := SemaphoreQueue.throw_cases (S := S) hst
    have hearly : (s.pc t).early = true := by rw [hpc]; rfl
    have hunderWay := SemaphoreQueue.underWay hi h₀ hs hearly
    refine ⟨SemaphoreQueue.exists_beside hi h₀ hunderWay hearly, fun r hb heffect => ?_⟩
    obtain ⟨-, -, -, hlost, -⟩ := SemaphoreQueue.permit_lost hi h₀ hb hpc hst
    rw [heffect.2.2 c.side] at hlost
    omega
  · intro s s' r hs hst heffect
    have hheld := ConditionQueue.holder_of_throw hs hst
    exact absurd (hheld.symm.trans heffect.1) (Option.some_ne_none t)
  · intro s s' hs hst
    obtain ⟨c, woken, hpc, -⟩ := ConditionQueue.throw_cases hst
    exact ⟨ConditionQueue.exists_beside hs (by rw [hpc]; rfl),
      fun r hb => ConditionQueue.noNetEffect_of_unshared hb hst⟩

/-- The copy of the first `put` of each class throws; in the last class, that of a consumer that
was blocked and that nobody else kept company. -/
theorem effect_of_throw_first :
    (∃ s₀ s s', SemaphoreQueue.construct (.ofList ℕ) Bool (posixSemaphore 2147483647) 1 = some s₀ ∧
      (semaphoreBoundedBlockingQueue 2147483647 s₀).Reachable s ∧
      (semaphoreBoundedBlockingQueue 2147483647 s₀).step s (.throw false) = some s' ∧
      ¬ SemaphoreQueue.NoNetEffect s' s₀) ∧
    (∃ s₀ s s' r, SemaphoreQueue.construct (.ofList ℕ) Bool unsignedSemaphore 1 = some s₀ ∧
      (cplusSemaphoreBoundedBlockingQueue unsignedSemaphore s₀).Beside
        (SemaphoreQueue.callOf false) (fun _ _ => True) s r ∧
      (cplusSemaphoreBoundedBlockingQueue unsignedSemaphore s₀).step s (.throw false) = some s' ∧
      ¬ SemaphoreQueue.NoNetEffect s' r) ∧
    (∃ s s', (conditionBoundedBlockingQueue (.ofList ℕ) Bool 1).Reachable s ∧
      (conditionBoundedBlockingQueue (.ofList ℕ) Bool 1).step s (.throw false) = some s' ∧
      ¬ ConditionQueue.NoNetEffect s' s) ∧
    ∃ s s' r, (cplusConditionBoundedBlockingQueue (.ofList ℕ) Bool 1).Beside
        (ConditionQueue.callOf false) (ConditionQueue.Unshared false) s r ∧
      (cplusConditionBoundedBlockingQueue (.ofList ℕ) Bool 1).step s (.throw false) = some s' ∧
      s'.contents.items = [7] ∧ ConditionQueue.NoNetEffect s' r := by
  obtain ⟨posix, cplus, pthread, guarded⟩ := effect_of_throw (.ofList ℕ) 1 false
  refine ⟨?_, ?_, ?_, ?_⟩
  · have hrun := (semaphoreBoundedBlockingQueue 2147483647
      (.fresh (.ofList ℕ) Bool 1 1)).reach_of_run (fun _ _ => True)
      [.call false (.put 7), .step false, .step false] rfl
    exact ⟨_, _, _, rfl, hrun, rfl, posix _ _ _ _ _ rfl hrun rfl⟩
  · have hrun := (cplusSemaphoreBoundedBlockingQueue unsignedSemaphore
      (.fresh (.ofList ℕ) Bool 1 1)).reach_of_run (fun _ _ => True)
      [.call false (.put 7), .step false, .step false] rfl
    obtain ⟨⟨r, hb⟩, hlost⟩ := cplus _ _ _ _ rfl rfl hrun rfl
    exact ⟨_, _, _, r, rfl, hb, rfl, hlost r hb⟩
  · have hrun := (conditionBoundedBlockingQueue (.ofList ℕ) Bool 1).reach_of_run
      (fun _ _ => True) [.call false (.put 7), .step false, .step false] rfl
    exact ⟨_, _, hrun, rfl, pthread _ _ _ hrun rfl⟩
  · -- the consumer blocks, and is woken by the only other thread there is
    have hbegun : (cplusConditionBoundedBlockingQueue (.ofList ℕ) Bool 1).UnderWay
        (ConditionQueue.callOf false) (ConditionQueue.Unshared false) _ :=
      .begins (a := .call false .take) .init ⟨_, rfl⟩ rfl
    have hthrown := hbegun.run (fun s _ =>
        (s.pc true).blockedOn .put = false ∧ (s.pc true).blockedOn .take = false) ?_
      (List.replicate 3 (.step false) ++ .call true (.put 7) :: List.replicate 4 (.step true) ++
        [.event (.notify true (some false)), .step false, .step false]) rfl
    · obtain ⟨⟨r, hb⟩, hnone⟩ := guarded _ _ hthrown rfl
      exact ⟨_, _, r, hb, rfl, rfl, hnone r hb⟩
    · rintro s a ⟨hput, htake⟩ u - v d hv -
      obtain rfl : v = true := by simpa using hv
      cases d with
      | put => exact hput
      | take => exact htake

/-- **Exceptions have effects.** A `put` that throws leaves a queue of one place without a free
place and without an item, and every `put` after it blocks. A consumer that throws after it was
notified leaves an item, beside which another consumer is blocked; that one would be awake. -/
theorem not_noNetEffect_of_throw :
    (∃ s₀ s s', SemaphoreQueue.construct (.ofList ℕ) Bool unsignedSemaphore 1 = some s₀ ∧
      (cplusSemaphoreBoundedBlockingQueue unsignedSemaphore s₀).Beside
        (SemaphoreQueue.callOf true) (fun _ _ => True) s s₀ ∧
      (cplusSemaphoreBoundedBlockingQueue unsignedSemaphore s₀).step s (.throw true) = some s' ∧
      s'.contents.items = [] ∧ s'.notFull = 0 ∧ s₀.notFull = 1 ∧
      ¬ SemaphoreQueue.NoNetEffect s' s₀) ∧
    ∃ s r s', (cplusConditionBoundedBlockingQueue (.ofList ℕ) (Fin 3) 1).Beside
        (ConditionQueue.callOf 0) (fun _ _ => True) s r ∧
      (cplusConditionBoundedBlockingQueue (.ofList ℕ) (Fin 3) 1).step s (.throw 0) = some s' ∧
      s'.contents.items = [7] ∧ r.contents.items = [7] ∧
      s'.pc 1 = .blocked .take ∧ r.pc 1 = .lock .take true ∧
      ¬ ConditionQueue.NoNetEffect s' r := by
  constructor
  · have hbegun : (cplusSemaphoreBoundedBlockingQueue unsignedSemaphore
        (.fresh (.ofList ℕ) Bool 1 1)).Beside (SemaphoreQueue.callOf true) (fun _ _ => True) _ _ :=
      .begins (a := .call true (.put 7)) .init ⟨_, rfl⟩ rfl
    have hwaited := hbegun.continues (a := .step true) (.inl rfl) rfl
    have hlocked := hwaited.continues (a := .step true) (.inl rfl) rfl
    refine ⟨_, _, _, rfl, hlocked, rfl, rfl, rfl, rfl, fun heffect => ?_⟩
    exact absurd (heffect.2.2 .put) (by decide)
  · -- consumer `1` is blocked when consumer `0` calls, and `2` is about to put an item
    have hreach := (cplusConditionBoundedBlockingQueue (.ofList ℕ) (Fin 3) 1).reach_of_run
      (fun _ _ => True) (.call 2 (.put 7) :: .call 1 .take :: List.replicate 3 (.step 1)) rfl
    have h₀ : (cplusConditionBoundedBlockingQueue (.ofList ℕ) (Fin 3) 1).Beside
        (ConditionQueue.callOf 0) (fun _ _ => True) _ _ :=
      .begins (a := .call 0 .take) hreach ⟨_, rfl⟩ rfl
    have h₁ := h₀.continues (a := .step 0) (.inl rfl) rfl
    have h₂ := h₁.continues (a := .step 0) (.inl rfl) rfl
    have h₃ := h₂.continues (a := .step 0) (.inl rfl) rfl
    have h₄ := h₃.other (a := .step 2) ⟨by decide, .inl ⟨rfl, nofun⟩⟩ trivial rfl rfl
    have h₅ := h₄.other (a := .step 2) ⟨by decide, .inl ⟨rfl, nofun⟩⟩ trivial rfl rfl
    have h₆ := h₅.other (a := .step 2) ⟨by decide, .inl ⟨rfl, nofun⟩⟩ trivial rfl rfl
    have h₇ := h₆.other (a := .step 2) ⟨by decide, .inl ⟨rfl, nofun⟩⟩ trivial rfl rfl
    -- the notification that wakes the call here wakes the other consumer there
    have h₈ := h₇.other (a := .event (.notify 2 (some 0)))
      ⟨by decide, .inr ⟨2, some 1, rfl, rfl⟩⟩ trivial rfl rfl
    have h₉ := h₈.continues (a := .step 0) (.inl rfl) rfl
    have hactive := h₉.continues (a := .step 0) (.inl rfl) rfl
    refine ⟨_, _, _, hactive, rfl, rfl, rfl, rfl, rfl, fun heffect => ?_⟩
    have hpc := congrArg (fun s : ConditionQueue.State (.ofList ℕ) (Fin 3) => s.pc 1) heffect.2
    cases hpc

end BlockingQueue

end Naesala
