import Naesala.BlockingQueue.Semaphore
import Naesala.Library.Mutex
import Naesala.Library.Population

/-!
# Permits of the semaphore queues

A permit of a side is in its semaphore, with a thread between its `wait` and its push or pop, or
with a thread of the other side between its pop or push and its `post`. No step but an
interrupted `wait` makes a permit out of nothing, so there are never more permits of a side than
there is available to it (`Inv`), and both assertions hold.
-/

namespace Naesala

open BlockingQueue

namespace SemaphoreQueue

variable {δ τ : Type} {B : CircularBuffer δ} {S : Semaphore} {guarded : Bool} {v₀ : ℕ}
  {s s₁ s' : State B τ} {t : τ}

/-! ## The property and the conditions -/

/-- The assertions of `put` and `take` hold wherever a thread has reached them. -/
def State.Asserts (s : State B τ) : Prop :=
  ∀ t c, s.pc t = .act c → s.contents.ready c.side = true

/-- Neither assertion fails, and the items leave the buffer as they came. -/
def State.Safe (s : State B τ) : Prop := s.Asserts ∧ s.contents.Fifo

/-- No `wait` is interrupted. -/
def Action.uninterrupted : Action δ τ → Bool
  | .event (.interrupt _) => false
  | _ => true

/-! ## Counting permits -/

/-- The call is one of `d` that is between its `wait` and its push or pop. -/
def Pc.holds (d : Side) : Pc δ → Bool
  | .lock c | .act c => c.side = d
  | _ => false

/-- The call is one of `d` that is between its push or pop and its `post`. -/
def Pc.owes (d : Side) : Pc δ → Bool
  | .unlock done | .post done => done.side = d
  | _ => false

/-- How many permits of `d` the thread has. -/
def Pc.weight (d : Side) (pc : Pc δ) : ℕ := (pc.holds d).toNat + (pc.owes d.other).toNat

@[simp] theorem Pc.weight_idle (d : Side) : (idle : Pc δ).weight d = 0 := rfl

@[simp] theorem Pc.weight_wait (c : Call δ) (d : Side) : (wait c).weight d = 0 := rfl

@[simp] theorem Pc.weight_lock (c : Call δ) (d : Side) : (lock c).weight d = (act c).weight d := rfl

@[simp] theorem Pc.weight_act_self (c : Call δ) : (act c).weight c.side = 1 := by
  simp [weight, holds, owes]

@[simp] theorem Pc.weight_act_other (c : Call δ) : (act c).weight c.side.other = 0 := by
  simp [weight, holds, owes]

@[simp] theorem Pc.weight_unlock (done : Done δ) (d : Side) :
    (unlock done).weight d = (post done).weight d := rfl

@[simp] theorem Pc.weight_post_self (done : Done δ) : (post done).weight done.side = 0 := by
  simp [weight, holds, owes]

@[simp] theorem Pc.weight_post_other (done : Done δ) :
    (post done).weight done.side.other = 1 := by
  simp [weight, holds, owes]

/-- The thread has locked the mutex. -/
def Pc.inside : Pc δ → Bool
  | .act _ | .unlock _ => true
  | _ => false

instance : Place (Pc δ) where
  idle := .idle
  inside := Pc.inside

@[simp] theorem Pc.place_idle : (Place.idle : Pc δ) = .idle := rfl

@[simp] theorem Pc.place_inside (pc : Pc δ) : Place.inside pc = pc.inside := rfl

section

variable [Fintype τ]

/-- The permits of `d`, wherever they are. -/
def State.permits (s : State B τ) (d : Side) : ℕ :=
  s.sem d + population (Pc.holds d) s.pc + population (Pc.owes d.other) s.pc

theorem one_le_permits {c : Call δ} (h : s.pc t = .act c) : 1 ≤ s.permits c.side := by
  have : 0 < population (Pc.holds c.side) s.pc := population_pos.2 ⟨t, by simp [h, Pc.holds]⟩
  rw [State.permits]
  omega

/-- Between calls every permit is in its semaphore. -/
theorem permits_of_idle (h : ∀ t, s.pc t = .idle) (d : Side) : s.permits d = s.sem d := by
  have holding : population (Pc.holds d) s.pc = 0 :=
    population_eq_zero.2 fun t => by rw [h t]; rfl
  have owing : population (Pc.owes d.other) s.pc = 0 :=
    population_eq_zero.2 fun t => by rw [h t]; rfl
  rw [State.permits, holding, owing, add_zero, add_zero]

theorem sem_lt_permits {done : Done δ} (h : s.pc t = .post done) :
    s.sem done.side.other < s.permits done.side.other := by
  have : 0 < population (Pc.owes done.side) s.pc := population_pos.2 ⟨t, by simp [h, Pc.owes]⟩
  rw [State.permits, Side.other_other]
  omega

variable [DecidableEq τ]

/-- What the permits of a side become when thread `t` moves and a semaphore changes. -/
theorem permits_goto (hpc : s₁.pc = s.pc) (t : τ) (pc : Pc δ) (d : Side) :
    (s₁.goto t pc).permits d + s.sem d + (s.pc t).weight d =
      s.permits d + s₁.sem d + pc.weight d := by
  have holding := population_update (p := Pc.holds d) (f := s.pc) t pc
  have owing := population_update (p := Pc.owes d.other) (f := s.pc) t pc
  have hsem : (s₁.goto t pc).sem d = s₁.sem d := by cases d <;> rfl
  simp only [State.permits, hsem, Pc.weight]
  simp only [State.goto, Threads.goto, hpc]
  omega

end

/-! ## The invariant -/

section

variable [Fintype τ]

/-- The invariant of a queue whose `_not_full` started at `v₀`. -/
structure Inv (v₀ : ℕ) (s : State B τ) : Prop where
  mutex : Exclusive Pc.inside s.holder s.pc
  capacity : v₀ ≤ B.capacity s.contents.queue
  length_le : s.contents.items.length ≤ v₀
  permits_le : ∀ d, s.permits d ≤ s.contents.available v₀ d
  fifo : s.contents.Fifo

theorem Inv.available_pos (h : Inv v₀ s) {c : Call δ} (hpc : s.pc t = .act c) :
    0 < s.contents.available v₀ c.side :=
  lt_of_lt_of_le (one_le_permits hpc) (h.permits_le _)

theorem Inv.ready (h : Inv v₀ s) {c : Call δ} (hpc : s.pc t = .act c) :
    s.contents.ready c.side = true :=
  Contents.ready_of_available h.capacity (h.available_pos hpc)

theorem Inv.safe (h : Inv v₀ s) : s.Safe := ⟨fun _ _ hpc => h.ready hpc, h.fifo⟩

theorem Inv.available_le (h : Inv v₀ s) (d : Side) : s.contents.available v₀ d ≤ v₀ := by
  have hle := h.length_le
  cases d <;> simp only [Contents.available] <;> omega

/-! ## What one step does -/

/-- The step of thread `t` to `pc`, which leaves everything else as in `s₁`, keeps all of the
invariant but for the permits. -/
structure Effect [DecidableEq τ] (v₀ : ℕ) (s : State B τ) (t : τ) (s₁ : State B τ) (pc : Pc δ) :
    Prop where
  pc_eq : s₁.pc = s.pc
  mutex : Exclusive Pc.inside s₁.holder (Function.update s.pc t pc)
  capacity : B.capacity s₁.contents.queue = B.capacity s.contents.queue
  length_le : s₁.contents.items.length ≤ v₀
  fifo : s₁.contents.Fifo

/-- A side gains as many permits in the step as there becomes available to it. -/
def Conserves (v₀ : ℕ) (s : State B τ) (t : τ) (s₁ : State B τ) (pc : Pc δ) : Prop :=
  ∀ d, s₁.sem d + pc.weight d + s.contents.available v₀ d =
    s.sem d + (s.pc t).weight d + s₁.contents.available v₀ d

variable [DecidableEq τ]

/-- A step that does not touch the buffer. -/
theorem Inv.effect {pc : Pc δ} (h : Inv v₀ s) (hpc : s₁.pc = s.pc)
    (hc : s₁.contents = s.contents)
    (mutex : Exclusive Pc.inside s₁.holder (Function.update s.pc t pc)) :
    Effect v₀ s t s₁ pc where
  pc_eq := hpc
  mutex := mutex
  capacity := by rw [hc]
  length_le := hc ▸ h.length_le
  fifo := hc ▸ h.fifo

theorem Inv.effect_outside {pc : Pc δ} (h : Inv v₀ s) (hpc : s₁.pc = s.pc)
    (hc : s₁.contents = s.contents) (hh : s₁.holder = s.holder) (hin : pc.inside = false) :
    Effect v₀ s t s₁ pc := by
  refine h.effect hpc hc ?_
  rw [hh]
  exact h.mutex.move fun hin' => absurd hin' (by simp [hin])

theorem Effect.inv {pc : Pc δ} (e : Effect v₀ s t s₁ pc) (h : Inv v₀ s)
    (hle : ∀ d, s₁.sem d + pc.weight d + s.contents.available v₀ d ≤
      s.sem d + (s.pc t).weight d + s₁.contents.available v₀ d) : Inv v₀ (s₁.goto t pc) where
  mutex := by
    have := e.mutex
    rwa [← e.pc_eq] at this
  capacity := e.capacity ▸ h.capacity
  length_le := e.length_le
  fifo := e.fifo
  permits_le d := by
    have hgoto := permits_goto e.pc_eq t pc d
    have hstep := hle d
    have hold := h.permits_le d
    have hc : (s₁.goto t pc).contents = s₁.contents := rfl
    rw [hc]
    omega

theorem Inv.advance (h : Inv v₀ s) (hS : v₀ ≤ S.max) (hst : s.advance S t = some s') :
    ∃ s₁ pc, s' = s₁.goto t pc ∧ Effect v₀ s t s₁ pc ∧ Conserves v₀ s t s₁ pc := by
  unfold State.advance at hst
  cases hpc : s.pc t with
  | idle => simp [hpc] at hst
  | wait c =>
    simp only [hpc, Option.ite_none_right_eq_some, Option.some.injEq] at hst
    obtain ⟨hpos, rfl⟩ := hst
    refine ⟨_, _, rfl, h.effect_outside (by simp) (by simp) (by simp) rfl, ?_⟩
    intro d
    -- the permit goes from the semaphore to the call
    rw [hpc, State.toThreads_setSem]
    obtain rfl | rfl := Side.eq_or_eq_other d c.side
    · rw [State.sem_setSem_self, Pc.weight_lock, Pc.weight_act_self, Pc.weight_wait]
      omega
    · rw [State.sem_setSem_other, Pc.weight_lock, Pc.weight_act_other, Pc.weight_wait]
  | lock c =>
    simp only [hpc, Option.ite_none_right_eq_some, Option.some.injEq] at hst
    obtain ⟨hfree, rfl⟩ := hst
    refine ⟨_, _, rfl, h.effect rfl rfl (Exclusive.lock (hfree ▸ h.mutex) t _), ?_⟩
    intro d
    rw [hpc, Pc.weight_lock]
    cases d <;> rfl
  | act c =>
    simp only [hpc, Option.map_eq_some_iff] at hst
    obtain ⟨⟨contents, done⟩, hp, rfl⟩ := hst
    have hin : (s.pc t).inside = true := by rw [hpc]; rfl
    have hready := h.ready hpc
    have hpos := h.available_pos hpc
    have hside := Contents.perform_side hready hp
    obtain ⟨hself, hother⟩ := Contents.available_perform hpos h.length_le hready hp
    refine ⟨_, _, rfl, ⟨rfl, h.mutex.move fun _ => hin,
      (Contents.perform_cases hready hp).1, Contents.length_perform hpos h.length_le hready hp,
      Contents.perform_fifo hready hp h.fifo⟩, fun d => ?_⟩
    -- the permit of one side becomes one of the other, which the call has yet to post
    have hsem : State.sem { s with contents := contents } d = s.sem d := by cases d <;> rfl
    rw [hpc, hsem]
    obtain rfl | rfl := Side.eq_or_eq_other d c.side
    · rw [Pc.weight_unlock, ← hside, Pc.weight_post_self, hside, Pc.weight_act_self]
      show _ = _ + contents.available v₀ _
      omega
    · rw [Pc.weight_unlock, ← hside, Pc.weight_post_other, hside, Pc.weight_act_other]
      show _ = _ + contents.available v₀ _
      omega
  | unlock done =>
    simp only [hpc, Option.some.injEq] at hst
    subst hst
    have hin : (s.pc t).inside = true := by rw [hpc]; rfl
    refine ⟨_, _, rfl, h.effect rfl rfl (h.mutex.leave hin rfl none), ?_⟩
    intro d
    rw [hpc, Pc.weight_unlock]
    cases d <;> rfl
  | post done =>
    simp only [hpc, Option.some.injEq] at hst
    subst hst
    refine ⟨_, _, rfl, h.effect_outside (by simp) (by simp) (by simp) rfl, ?_⟩
    intro d
    rw [hpc, State.toThreads_setSem, Pc.weight_idle]
    obtain rfl | rfl := Side.eq_or_eq_other d done.side.other
    · -- the semaphore is not full: its permits stand for places or items of the buffer
      have hlt := sem_lt_permits hpc
      have hle := (h.permits_le done.side.other).trans (h.available_le _)
      rw [State.sem_setSem_self, Pc.weight_post_other, S.post_of_lt _ (by omega)]
    · rw [State.sem_setSem_other, Side.other_other, Pc.weight_post_self]

theorem Inv.effect_of_step (h : Inv v₀ s) (hS : v₀ ≤ S.max) {a : Action δ τ}
    (hw : a.uninterrupted = true ∨ S.interruptible = false) (hn : a.noThrow = true)
    (hst : s.step S guarded a = some s') :
    ∃ t s₁ pc, s' = s₁.goto t pc ∧ Effect v₀ s t s₁ pc ∧ Conserves v₀ s t s₁ pc := by
  cases a with
  | call t c =>
    simp only [State.step] at hst
    split at hst
    case h_1 hpc =>
      cases hst
      refine ⟨t, s, _, rfl, h.effect_outside rfl rfl rfl rfl, ?_⟩
      intro d
      rw [hpc, Pc.weight_wait, Pc.weight_idle]
    case h_2 => cases hst
  | step t => exact ⟨t, h.advance hS hst⟩
  | event e =>
    obtain hw | hw := hw
    · cases hw
    · simp only [State.step, hw] at hst
      split at hst <;> cases hst
  | throw t => cases hn

/-- A call that throws gives up its permit. -/
theorem Inv.throw (h : Inv v₀ s) (hst : s.step S guarded (.throw t) = some s') : Inv v₀ s' := by
  simp only [State.step] at hst
  split at hst
  case h_1 c hpc =>
    cases hst
    have hin : (s.pc t).inside = true := by rw [hpc]; rfl
    have e : Effect v₀ s t { s with holder := if guarded then none else s.holder } .idle :=
      h.effect rfl rfl (h.mutex.leave hin rfl _)
    refine e.inv h ?_
    intro d
    have hsem : State.sem { s with holder := if guarded then none else s.holder } d = s.sem d := by
      cases d <;> rfl
    show State.sem _ d + _ + _ ≤ _ + _ + s.contents.available v₀ d
    rw [hsem, Pc.weight_idle]
    omega
  case h_2 => cases hst

theorem Inv.step (h : Inv v₀ s) (hS : v₀ ≤ S.max) {a : Action δ τ}
    (hw : a.uninterrupted = true ∨ S.interruptible = false)
    (hst : s.step S guarded a = some s') : Inv v₀ s' := by
  cases hn : a.noThrow with
  | true =>
    obtain ⟨t, s₁, pc, rfl, e, hc⟩ := h.effect_of_step hS hw hn hst
    exact e.inv h fun d => (hc d).le
  | false =>
    cases a with
    | throw t => exact h.throw hst
    | call t c | step t | event e => cases hn

/-- Every permit of a side stands for one thing that is available to it. -/
def Balanced (v₀ : ℕ) (s : State B τ) : Prop := ∀ d, s.permits d = s.contents.available v₀ d

theorem Balanced.step (hb : Balanced v₀ s) (h : Inv v₀ s) (hS : v₀ ≤ S.max) {a : Action δ τ}
    (hw : a.uninterrupted = true ∨ S.interruptible = false) (hn : a.noThrow = true)
    (hst : s.step S guarded a = some s') : Balanced v₀ s' := by
  obtain ⟨t, s₁, pc, rfl, e, hc⟩ := h.effect_of_step hS hw hn hst
  intro d
  have hgoto := permits_goto e.pc_eq t pc d
  have hstep := hc d
  have hold := hb d
  have heq : (s₁.goto t pc).contents = s₁.contents := rfl
  rw [heq]
  omega

omit [DecidableEq τ] in
/-- What the constructor leaves. -/
theorem construct_spec {maxSize : ℕ} (h₀ : construct B τ S maxSize = some s) :
    S.make maxSize = some s.notFull ∧ Inv s.notFull s ∧ Balanced s.notFull s := by
  simp only [construct, Option.map_eq_some_iff] at h₀
  obtain ⟨v, hv, rfl⟩ := h₀
  have hitems : (State.fresh B τ maxSize v).contents.items = [] := B.items_make maxSize
  have hcap : B.capacity (State.fresh B τ maxSize v).contents.queue = maxSize :=
    B.capacity_make maxSize
  have hbal : Balanced v (State.fresh B τ maxSize v) := by
    intro d
    rw [permits_of_idle fun _ => rfl]
    cases d with
    | put => rw [Contents.available, hitems]; rfl
    | take => rw [Contents.available, hitems]; rfl
  refine ⟨hv, ⟨fun t ht => (by cases ht), ?_, ?_, fun d => (hbal d).le,
    Contents.fifo_construct maxSize⟩, hbal⟩
  · rw [hcap]
    exact (S.le_of_make _ _ hv).1
  · rw [hitems]
    exact Nat.zero_le _

/-! ## The results -/

theorem inv_of_reach {maxSize : ℕ} {s₀ : State B τ}
    (h₀ : construct B τ S maxSize = some s₀) {ok : State B τ → Action δ τ → Prop}
    (hok : ∀ s a, ok s a → a.uninterrupted = true ∨ S.interruptible = false)
    (h : (semaphoreQueue S guarded s₀).Reach ok s) : Inv s₀.notFull s := by
  obtain ⟨hmake, hinv, -⟩ := construct_spec h₀
  exact h.invariant hinv fun s a s' ih ha hst =>
    ih.step (S.le_of_make _ _ hmake).2 (hok s a ha) hst

/-- **`SemaphoreBoundedBlockingQueue` is a bounded FIFO buffer as long as no `sem_wait` is
interrupted**, if `sem_init` has accepted `max_size`; also when copies throw. -/
theorem safe_of_uninterrupted {semValueMax maxSize : ℕ} {s₀ : State B τ}
    (h₀ : construct B τ (posixSemaphore semValueMax) maxSize = some s₀)
    (h : (semaphoreBoundedBlockingQueue semValueMax s₀).Reach
      (fun _ a => a.uninterrupted = true) s) : s.Safe :=
  (inv_of_reach h₀ (fun _ _ ha => .inl ha) h).safe

/-- A call that thread `t` makes and finishes undisturbed. -/
def calling (t : Bool) (c : Call ℕ) : List (Action ℕ Bool) :=
  .call t c :: List.replicate 5 (.step t)

/-- A queue of one place after `put(1)`: the `sem_wait` of `put(2)` is interrupted, and it goes on
to lock the mutex. -/
def interruptedPut : List (Action ℕ Bool) :=
  calling true (.put 1) ++ [.call false (.put 2), .event (.interrupt false), .step false]

/-- **An interrupted `sem_wait` breaks the queue**: the second `put` finds the buffer full, and
overwrites the first item. -/
theorem not_safe_of_interrupt :
    ∃ s₀, construct (.ofList ℕ) Bool (posixSemaphore 2147483647) 1 = some s₀ ∧
      (∃ s, (semaphoreBoundedBlockingQueue 2147483647 s₀).Reachable s ∧ ¬ s.Asserts) ∧
      ∃ s, (semaphoreBoundedBlockingQueue 2147483647 s₀).Reachable s ∧
        s.contents.pushed = [1, 2] ∧ s.contents.popped = [] ∧ s.contents.items = [2] := by
  refine ⟨_, rfl, ?_, ?_⟩
  · have hrun := (semaphoreBoundedBlockingQueue 2147483647
      (.fresh (.ofList ℕ) Bool 1 1)).reach_of_run (fun _ _ => True)
      interruptedPut rfl
    refine ⟨_, hrun, ?_⟩
    intro hasserts
    exact absurd (hasserts false (.put 2) rfl) (by decide)
  · have hrun := (semaphoreBoundedBlockingQueue 2147483647
      (.fresh (.ofList ℕ) Bool 1 1)).reach_of_run (fun _ _ => True)
      (interruptedPut ++ [.step false]) rfl
    exact ⟨_, hrun, rfl, rfl, rfl⟩

/-- The condition of `safe_of_uninterrupted` holds of a `put` and a `take`. -/
theorem safe_of_uninterrupted_take :
    ∃ s₀ s, construct (.ofList ℕ) Bool (posixSemaphore 2147483647) 1 = some s₀ ∧
      (semaphoreBoundedBlockingQueue 2147483647 s₀).Reach (fun _ a => a.uninterrupted = true) s ∧
      s.Safe ∧ s.contents.popped = [1] := by
  have hrun := (semaphoreBoundedBlockingQueue 2147483647
      (.fresh (.ofList ℕ) Bool 1 1)).reach_of_run
    (fun _ a => a.uninterrupted = true) (calling true (.put 1) ++ calling false .take) rfl
  have hmade : construct (.ofList ℕ) Bool (posixSemaphore 2147483647) 1 = some (.fresh _ _ 1 1) :=
    rfl
  exact ⟨_, _, hmade, hrun, safe_of_uninterrupted hmade hrun, rfl⟩

omit [Fintype τ] in
/-- A `take` on a fresh queue of any capacity, interrupted, finds the buffer empty. -/
theorem exists_not_asserts {maxSize : ℕ} {s₀ : State B τ} (hS : S.interruptible = true)
    (h₀ : construct B τ S maxSize = some s₀) (t : τ) :
    ∃ s, (semaphoreQueue S guarded s₀).Reachable s ∧ ¬ s.Asserts := by
  simp only [construct, Option.map_eq_some_iff] at h₀
  obtain ⟨v, -, rfl⟩ := h₀
  let called := (State.fresh B τ maxSize v).goto t (.wait .take)
  let returned := called.goto t (.lock .take)
  have hcall : (semaphoreQueue S guarded (State.fresh B τ maxSize v)).Reachable called :=
    .step (a := .call t .take) .init trivial rfl
  have hreturn : (semaphoreQueue S guarded (State.fresh B τ maxSize v)).Reachable returned := by
    refine .step (a := .event (.interrupt t)) hcall trivial ?_
    simp [semaphoreQueue, State.step, called, State.goto, hS, returned]
  refine ⟨{ returned with holder := some t }.goto t (.act .take), ?_, fun hasserts => ?_⟩
  · refine .step (a := .step t) hreturn trivial ?_
    simp [semaphoreQueue, State.step, State.advance, returned, called, State.goto, State.fresh]
  · have hempty : B.empty (B.make maxSize) = true := (B.empty_iff _).2 (B.items_make _)
    have := hasserts t .take (by simp [State.goto])
    simp [Contents.ready, Call.side, State.goto, returned, called, State.fresh, Contents.construct,
      hempty] at this

/-- **`CplusSemaphoreBoundedBlockingQueue` conserves permits**, in every interleaving in which no
copy throws: a place is free, reserved, filled or about to be free, and an item is unclaimed,
claimed or about to be announced. So the assertions hold, the queue is FIFO, and a consumer that
blocks on a buffer with items is about to be woken or beaten to them. -/
theorem conserves_permits {maxSize : ℕ} {s₀ : State B τ} (hS : S.interruptible = false)
    (hmax : maxSize ≤ S.max) (h₀ : construct B τ S maxSize = some s₀)
    (h : (cplusSemaphoreBoundedBlockingQueue S s₀).Reach (fun _ a => a.noThrow = true) s) :
    s.notFull + population (Pc.holds .put) s.pc + s.contents.items.length +
        population (Pc.owes .take) s.pc = maxSize ∧
      s.notEmpty + population (Pc.holds .take) s.pc + population (Pc.owes .put) s.pc =
        s.contents.items.length ∧
      s.Safe ∧
      ∀ t, s.pc t = .wait .take → s.notEmpty = 0 → s.contents.items ≠ [] →
        (∃ u, (s.pc u).owes .put = true) ∨ ∃ u, u ≠ t ∧ (s.pc u).holds .take = true := by
  obtain ⟨hmake, hinv, hbal⟩ := construct_spec h₀
  have hv : s₀.notFull = maxSize := by
    rw [S.make_of_le _ hmax] at hmake
    exact (Option.some.inj hmake).symm
  rw [hv] at hinv hbal
  obtain ⟨hI, hb⟩ := h.invariant (I := fun s => Inv maxSize s ∧ Balanced maxSize s) ⟨hinv, hbal⟩
    fun s a s' ih ha hst =>
      ⟨ih.1.step hmax (.inr hS) hst, ih.2.step ih.1 hmax (.inr hS) ha hst⟩
  have places := hb .put
  have items := hb .take
  have hle := hI.length_le
  simp only [State.permits, State.sem, Contents.available, Side.other] at places items
  refine ⟨by omega, items, hI.safe, ?_⟩
  intro t hpc hzero hne
  have hlen := List.length_pos_of_ne_nil hne
  obtain howe | hhold : 0 < population (Pc.owes .put) s.pc ∨
      0 < population (Pc.holds .take) s.pc := by omega
  · exact .inl (population_pos.1 howe)
  · obtain ⟨u, hu⟩ := population_pos.1 hhold
    refine .inr ⟨u, fun hut => ?_, hu⟩
    rw [hut, hpc] at hu
    cases hu

/-- After the push of one `put`, and before its post, both equations hold of a queue of two
places, and a consumer is blocked. -/
theorem conserves_permits_put :
    ∃ s₀ s, construct (.ofList ℕ) Bool unsignedSemaphore 2 = some s₀ ∧
      (cplusSemaphoreBoundedBlockingQueue unsignedSemaphore s₀).Reach
        (fun _ a => a.noThrow = true) s ∧
      s.pc true = .wait .take ∧ s.notEmpty = 0 ∧ s.contents.items = [7] ∧
      s.notFull + population (Pc.holds .put) s.pc + 1 + population (Pc.owes .take) s.pc = 2 ∧
      ((∃ u, (s.pc u).owes .put = true) ∨ ∃ u, u ≠ true ∧ (s.pc u).holds .take = true) := by
  have hmade : construct (.ofList ℕ) Bool unsignedSemaphore 2 = some (.fresh _ _ 2 2) := rfl
  have hrun := (cplusSemaphoreBoundedBlockingQueue unsignedSemaphore
    (.fresh (.ofList ℕ) Bool 2 2)).reach_of_run (fun _ a => a.noThrow = true)
    [.call true .take, .call false (.put 7), .step false, .step false, .step false] rfl
  obtain ⟨places, -, -, hblocked⟩ := conserves_permits rfl (by decide) hmade hrun
  exact ⟨_, _, hmade, hrun, rfl, rfl, rfl, places, hblocked true rfl rfl (by decide)⟩

end

end SemaphoreQueue

end Naesala
