import Naesala.BlockingQueue.Protocol
import Naesala.BlockingQueue.SemaphoreProof

/-!
# The semaphore queues keep the promise

Without interrupts and throws, a call is six steps: it begins, waits, locks, does its push or pop,
unlocks and posts. A queue in which no step is possible has no thread between a `wait` and a `post`,
since nobody keeps the mutex; then every permit is in its semaphore, and a call that waits finds its
semaphore at `0` because there is nothing available to it.
-/

namespace Naesala

open BlockingQueue

namespace SemaphoreQueue

variable {δ τ : Type} {B : CircularBuffer δ} {S : Semaphore} {guarded : Bool} {maxSize : ℕ}
  {s s' s₀ : State B τ} {t : τ}

/-- A step of a call that neither is interrupted nor throws. -/
def Action.undisturbed : Action δ τ → Bool
  | .step _ => true
  | _ => false

/-- The side of a call that has not done its push or pop yet. -/
def Pc.asks : Pc δ → Option Side
  | .wait c | .lock c | .act c => some c.side
  | _ => none

/-- The steps to the end of the call. -/
def Pc.rank : Pc δ → ℕ
  | .idle => 0
  | .wait _ => 5
  | .lock _ => 4
  | .act _ => 3
  | .unlock _ => 2
  | .post _ => 1

variable [DecidableEq τ] [Fintype τ]

theorem Inv.moved (h : Inv maxSize s) (hst : s.advance S t = some s') :
    ∃ pc, Moved Pc.asks Pc.rank s.toThreads t s'.toThreads pc := by
  unfold State.advance at hst
  cases hpc : s.pc t with
  | idle => simp [hpc] at hst
  | wait c =>
    simp only [hpc, Option.ite_none_right_eq_some, Option.some.injEq] at hst
    obtain ⟨-, rfl⟩ := hst
    rw [State.goto, State.toThreads_setSem]
    exact ⟨_, .goto (by simp [hpc, Pc.rank]) (by simp [hpc, Pc.inside]) (by rw [hpc]; rfl)⟩
  | lock c =>
    simp only [hpc, Option.ite_none_right_eq_some, Option.some.injEq] at hst
    obtain ⟨-, rfl⟩ := hst
    exact ⟨_, .lock (by simp [hpc, Pc.rank]) rfl (by rw [hpc]; rfl)⟩
  | act c =>
    simp only [hpc, Option.map_eq_some_iff] at hst
    obtain ⟨⟨contents, done⟩, hp, rfl⟩ := hst
    exact ⟨_, .perform (h.ready hpc) hp (by simp [hpc, Pc.rank]) rfl (by rw [hpc]; rfl) rfl⟩
  | unlock done =>
    simp only [hpc, Option.some.injEq] at hst
    subst hst
    exact ⟨_, .unlock (by simp [hpc, Pc.rank]) (by rw [hpc]; rfl)⟩
  | post done =>
    simp only [hpc, Option.some.injEq] at hst
    subst hst
    rw [State.goto, State.toThreads_setSem]
    exact ⟨_, .goto (by simp [hpc, Pc.rank]) (by simp [hpc, Pc.inside]) (by rw [hpc]; rfl)⟩

/-- Between calls, or in vain before a semaphore, is where threads are when no step is possible. -/
theorem Inv.stopped (h : Inv maxSize s) (hatt : Attended Pc.inside s.holder s.pc)
    (hstop : ∀ t, s.advance S t = none) (t : τ) :
    s.pc t = .idle ∨ ∃ c, s.pc t = .wait c ∧ s.sem c.side = 0 := by
  have hout : ∀ u, (s.pc u).inside = false := by
    intro u
    have hu := hstop u
    unfold State.advance at hu
    cases hpc : s.pc u with
    | act c =>
      obtain ⟨r, hr⟩ := Contents.exists_perform (h.ready hpc)
      simp [hpc, hr] at hu
    | unlock done => simp [hpc] at hu
    | _ => rfl
  have hfree := hatt.eq_none hout
  have ht := hstop t
  have hin := hout t
  unfold State.advance at ht
  cases hpc : s.pc t with
  | idle => exact Or.inl rfl
  | wait c =>
    simp only [hpc, ite_eq_right_iff, reduceCtorEq, imp_false] at ht
    exact Or.inr ⟨c, rfl, by omega⟩
  | lock c => simp [hpc, hfree] at ht
  | act c | unlock done =>
    rw [hpc] at hin
    cases hin
  | post done => simp [hpc] at ht

/-- The invariant of a queue without interrupts and throws. -/
structure Undisturbed (maxSize : ℕ) (s : State B τ) : Prop where
  inv : Inv maxSize s
  balanced : Balanced maxSize s
  attended : Attended Pc.inside s.holder s.pc

omit [DecidableEq τ] in
theorem Undisturbed.of_construct (hmax : maxSize ≤ S.max) (h₀ : construct B τ S maxSize = some s₀) :
    s₀ = State.fresh B τ maxSize maxSize ∧ Undisturbed maxSize s₀ := by
  obtain ⟨-, hinv, hbal⟩ := construct_spec h₀
  rw [construct, S.make_of_le _ hmax, Option.map_some, Option.some.injEq] at h₀
  subst h₀
  exact ⟨rfl, hinv, hbal, Attended.free⟩

theorem Undisturbed.call {c : Call δ} (hmax : maxSize ≤ S.max) (h : Undisturbed maxSize s)
    (hst : s.step S guarded (.call t c) = some s') :
    s.pc t = .idle ∧ s' = s.goto t (.wait c) ∧ Undisturbed maxSize s' := by
  have hinv := h.inv.step hmax (.inl rfl) hst
  have hbal := h.balanced.step h.inv hmax (.inl rfl) rfl hst
  simp only [State.step] at hst
  split at hst
  case h_1 hpc =>
    cases hst
    refine ⟨hpc, rfl, hinv, hbal, h.attended.move fun hin => ?_⟩
    rw [hpc] at hin
    cases hin
  case h_2 => cases hst

theorem Undisturbed.step (hmax : maxSize ≤ S.max) (h : Undisturbed maxSize s)
    (hst : s.advance S t = some s') : Undisturbed maxSize s' ∧
      ∃ pc, Moved Pc.asks Pc.rank s.toThreads t s'.toThreads pc := by
  obtain ⟨pc, hmoved⟩ := h.inv.moved hst
  have hstep : s.step S false (.step t) = some s' := hst
  exact ⟨⟨h.inv.step hmax (.inl rfl) hstep, h.balanced.step h.inv hmax (.inl rfl) rfl hstep,
    hmoved.attended h.attended⟩, pc, hmoved⟩

/-- Nothing is available to a side when no step is possible and a call of that side waits. -/
theorem Undisturbed.available_eq_zero (h : Undisturbed maxSize s)
    (hstop : ∀ t, s.advance S t = none) {d : Side} (hasks : (s.pc t).asks = some d) :
    s.contents.available maxSize d = 0 := by
  have hstopped := h.inv.stopped h.attended hstop
  have hholds : population (Pc.holds d) s.pc = 0 := by
    refine population_eq_zero.2 fun u => ?_
    rcases hstopped u with hpc | ⟨c, hpc, -⟩ <;> rw [hpc] <;> rfl
  have howes : population (Pc.owes d.other) s.pc = 0 := by
    refine population_eq_zero.2 fun u => ?_
    rcases hstopped u with hpc | ⟨c, hpc, -⟩ <;> rw [hpc] <;> rfl
  have hsem : s.sem d = 0 := by
    rcases hstopped t with hpc | ⟨c, hpc, hzero⟩
    · rw [hpc] at hasks
      cases hasks
    · rw [hpc] at hasks
      rwa [← Option.some.inj hasks]
  rw [← h.balanced d, State.permits, hsem, hholds, howes]

/-- What the semaphore queues promise without interrupts and throws. -/
def protocol (guarded : Bool) (hmax : maxSize ≤ S.max) (h₀ : construct B τ S maxSize = some s₀) :
    Protocol B (semaphoreQueue S guarded s₀) QueueAction.call Action.undisturbed maxSize where
  Inv := Undisturbed maxSize
  contents s := s.contents
  asks s := Pc.asks ∘ s.pc
  rank s := ∑ t, (s.pc t).rank
  cost := 5
  inv_init := (Undisturbed.of_construct hmax h₀).2
  contents_init := by
    show s₀.contents = _
    rw [(Undisturbed.of_construct hmax h₀).1]
    rfl
  asks_init t := by
    show (s₀.pc t).asks = none
    rw [(Undisturbed.of_construct hmax h₀).1]
    rfl
  rank_init := by
    show ∑ t, (s₀.pc t).rank = 0
    rw [(Undisturbed.of_construct hmax h₀).1]
    exact Finset.sum_eq_zero fun t _ => rfl
  fifo h := h.inv.fifo
  length_le h := h.inv.length_le
  call {s s' t c} h hst := by
    have hstep : s.step S guarded (.call t c) = some s' := hst
    obtain ⟨hpc, rfl, hinv⟩ := h.call hmax hstep
    have hrank := sum_update_add Pc.rank (f := s.pc) (Finset.mem_univ t) (.wait c)
    rw [hpc] at hrank
    exact ⟨hinv, hrank.le, rfl, congrArg Pc.asks hpc, Function.comp_update _ _ _ _⟩
  other {s s' a} h ha hst := by
    cases a with
    | step t =>
      obtain ⟨hinv, pc, hmoved⟩ := h.step hmax hst
      exact ⟨hinv, hmoved.progress⟩
    | _ => cases ha
  halted {s} h hstop t := by
    have hstop' : ∀ t, s.advance S t = none := fun t => hstop (.step t) rfl
    refine ⟨fun hasks c => ?_, fun d hasks => h.available_eq_zero hstop' hasks⟩
    rcases h.inv.stopped h.attended hstop' t with hpc | ⟨c', hpc, -⟩
    · simp [semaphoreQueue, State.step, hpc]
    · rw [Function.comp_apply, hpc] at hasks
      cases hasks

/-- **The semaphore queues serve producers and consumers to the end.** -/
theorem semaphore_queue_ends (guarded : Bool) (hmax : maxSize ≤ S.max) (hpos : 0 < maxSize)
    (h₀ : construct B τ S maxSize = some s₀) {script : τ → List (Call δ)} {role : τ → Side}
    (hrole : ∀ t, ∀ c ∈ script t, c.side = role t)
    {as : List (Machine.ScriptedAction (Action δ τ) τ)}
    {s : Machine.Scripted (State B τ) τ (Call δ)}
    (hrun : as.foldlM ((semaphoreQueue S guarded s₀).scripted .call Action.undisturbed script).step
      ⟨s₀, script⟩ = some s) :
    as.length ≤ 6 * (calls script .put + calls script .take) ∧
      (((semaphoreQueue S guarded s₀).scripted .call Action.undisturbed script).Halted s →
        (Returned s.script s.state.pc ↔ calls script .take ≤ calls script .put ∧
          calls script .put ≤ calls script .take + maxSize)) := by
  obtain ⟨hlength, hfinished⟩ := (protocol guarded hmax h₀).ends hpos hrole hrun
  refine ⟨hlength, fun hhalt => ?_⟩
  have hinv : Undisturbed maxSize s.state := (protocol guarded hmax h₀).inv_of_run hrun
  have hstop : ∀ t, s.state.advance S t = none := fun t =>
    Machine.Scripted.other_of_halted hhalt (a := .step t) rfl
  have hidle : ∀ t, (s.state.pc t).asks = none ↔ s.state.pc t = .idle := by
    intro t
    rcases hinv.inv.stopped hinv.attended hstop t with hpc | ⟨c, hpc, -⟩ <;> simp [hpc, Pc.asks]
  rw [← hfinished hhalt]
  exact (Protocol.finished_iff_returned hidle).symm

/-- The calls of `onePair`, one after the other. -/
def onePairRun : List (Machine.ScriptedAction (Action ℕ Bool) Bool) :=
  .call true :: List.replicate 5 (.other (.step true)) ++
    .call false :: List.replicate 5 (.other (.step false))

/-- Both calls return in that run. -/
theorem semaphore_queue_ends_pair :
    ∃ s₀ s, construct (.ofList ℕ) Bool unsignedSemaphore 1 = some s₀ ∧
      onePairRun.foldlM ((semaphoreQueue unsignedSemaphore true s₀).scripted .call
        Action.undisturbed onePair).step ⟨s₀, onePair⟩ = some s ∧ Returned s.script s.state.pc := by
  have hmade : construct (.ofList ℕ) Bool unsignedSemaphore 1 = some (.fresh _ _ 1 1) := rfl
  have hrun : onePairRun.foldlM ((semaphoreQueue unsignedSemaphore true
      (.fresh (.ofList ℕ) _ 1 1)).scripted .call Action.undisturbed onePair).step
      ⟨.fresh _ _ 1 1, onePair⟩ = some _ := rfl
  refine ⟨_, _, hmade, hrun, ?_⟩
  refine ((semaphore_queue_ends true (by decide) Nat.one_pos hmade side_onePair hrun).2 ?_).2
    (by decide)
  intro a
  cases a with
  | call t => cases t <;> rfl
  | other b =>
    cases b with
    | step t => cases t <;> rfl
    | _ => rfl

end SemaphoreQueue

end Naesala
