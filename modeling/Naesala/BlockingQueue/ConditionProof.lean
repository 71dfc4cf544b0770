import Naesala.BlockingQueue.Condition
import Naesala.Library.Mutex

/-!
# No lost wakeups in the condition queues

The notification of `put` comes after the unlock and wakes one thread, so an item may stay in the
buffer while consumers are blocked. What holds in every reachable state (`Covered`) is that as
many items as there are have someone to care for them: a consumer that has been woken and has
neither popped nor blocked again, or a producer that has yet to notify. The places of the buffer
are to producers what its items are to consumers.
-/

namespace Naesala

open BlockingQueue

namespace ConditionQueue

variable {δ τ : Type} {B : CircularBuffer δ} {guarded : Bool} {maxSize : ℕ}
  {s s₁ s' : State B τ} {t : τ}

/-! ## Counting wakeups -/

/-- The call is one of `d` that has been woken, and has neither done its push or pop nor blocked
again. -/
def Pc.awake (d : Side) : Pc δ → Bool
  | .lock c woken | .check c woken | .act c woken => woken && c.side = d
  | _ => false

/-- The call is one of `d` that is between its push or pop and its notification. -/
def Pc.owes (d : Side) : Pc δ → Bool
  | .unlock done | .notify done => done.side = d
  | _ => false

/-- How many things available to `d` the thread takes care of. -/
def Pc.covers (d : Side) (pc : Pc δ) : ℕ := (pc.awake d).toNat + (pc.owes d.other).toNat

/-- The thread has locked the mutex. -/
def Pc.inside : Pc δ → Bool
  | .check _ _ | .wait _ | .act _ _ | .unlock _ => true
  | _ => false

instance : Place (Pc δ) where
  idle := .idle
  inside := Pc.inside

@[simp] theorem Pc.place_idle : (Place.idle : Pc δ) = .idle := rfl

@[simp] theorem Pc.place_inside (pc : Pc δ) : Place.inside pc = pc.inside := rfl

@[simp] theorem Pc.covers_idle (d : Side) : (idle : Pc δ).covers d = 0 := rfl

@[simp] theorem Pc.covers_first (c : Call δ) (d : Side) : (lock c false).covers d = 0 := rfl

@[simp] theorem Pc.covers_check (c : Call δ) (woken : Bool) (d : Side) :
    (check c woken).covers d = (lock c woken).covers d := rfl

@[simp] theorem Pc.covers_act (c : Call δ) (woken : Bool) (d : Side) :
    (act c woken).covers d = (lock c woken).covers d := rfl

@[simp] theorem Pc.covers_wait (c : Call δ) (d : Side) : (wait c).covers d = 0 := rfl

@[simp] theorem Pc.covers_blocked (c : Call δ) (d : Side) : (blocked c).covers d = 0 := rfl

@[simp] theorem Pc.covers_unlock (done : Done δ) (d : Side) :
    (unlock done).covers d = (notify done).covers d := rfl

@[simp] theorem Pc.covers_woken_self (c : Call δ) : (lock c true).covers c.side = 1 := by
  simp [covers, awake, owes]

theorem Pc.covers_lock_le (c : Call δ) (woken : Bool) (d : Side) :
    (lock c woken).covers d ≤ 1 := by
  show (Pc.awake d _).toNat + 0 ≤ 1
  exact Bool.toNat_le _

@[simp] theorem Pc.covers_lock_other (c : Call δ) (woken : Bool) :
    (lock c woken).covers c.side.other = 0 := by
  simp [covers, awake, owes]

@[simp] theorem Pc.covers_notify_self (done : Done δ) : (notify done).covers done.side = 0 := by
  simp [covers, awake, owes]

@[simp] theorem Pc.covers_notify_other (done : Done δ) :
    (notify done).covers done.side.other = 1 := by
  simp [covers, awake, owes]

/-! ## The invariant -/

/-- What a thread with the mutex has tested is still so. -/
def Local (s : State B τ) : Pc δ → Prop
  | .wait c => s.contents.ready c.side = false
  | .act c _ => s.contents.ready c.side = true
  | _ => True

theorem local_of_outside {pc : Pc δ} (h : pc.inside = false) : Local s pc := by
  cases pc with
  | wait c | act c woken => cases h
  | _ => trivial

/-- The mutex, and the buffer. -/
structure Sound (maxSize : ℕ) (s : State B τ) : Prop where
  mutex : Exclusive Pc.inside s.holder s.pc
  locals : ∀ t, Local s (s.pc t)
  capacity : B.capacity s.contents.queue = maxSize
  fifo : s.contents.Fifo

/-- If anyone is blocked on the condition variable of `d`, all but `k` of the things available
to `d` are taken care of. -/
def Covered [Fintype τ] (maxSize : ℕ) (s : State B τ) (d : Side) (k : ℕ) : Prop :=
  0 < population (Pc.blockedOn d) s.pc →
    s.contents.available maxSize d ≤
      population (Pc.awake d) s.pc + population (Pc.owes d.other) s.pc + k

theorem Sound.length_le (h : Sound maxSize s) : s.contents.items.length ≤ maxSize :=
  h.capacity ▸ B.length_items_le _

theorem Sound.available_pos (h : Sound maxSize s) {d : Side} (hr : s.contents.ready d = true) :
    0 < s.contents.available maxSize d :=
  h.capacity ▸ Contents.available_of_ready hr

theorem Sound.available_eq_zero (h : Sound maxSize s) {d : Side}
    (hr : s.contents.ready d = false) : s.contents.available maxSize d = 0 := by
  by_contra hne
  have := Contents.ready_of_available h.capacity.ge (Nat.pos_of_ne_zero hne)
  simp [hr] at this

variable [DecidableEq τ]

/-- Thread `t` moves to `pc`, and everything else is as in `s₁`. -/
theorem sound_goto {pc : Pc δ} (hpc : s₁.pc = s.pc)
    (mutex : Exclusive Pc.inside s₁.holder (Function.update s.pc t pc))
    (hlocal : Local s₁ pc) (locals : ∀ u, u ≠ t → Local s₁ (s.pc u))
    (capacity : B.capacity s₁.contents.queue = maxSize) (fifo : s₁.contents.Fifo) :
    Sound maxSize (s₁.goto t pc) where
  mutex := by rwa [← hpc] at mutex
  locals u := by
    show Local s₁ _
    by_cases hut : u = t
    · subst hut
      simpa using hlocal
    · simpa [hut, hpc] using locals u hut
  capacity := capacity
  fifo := fifo

theorem Sound.move {pc : Pc δ} (h : Sound maxSize s)
    (hin : pc.inside = true → (s.pc t).inside = true) (hlocal : Local s pc) :
    Sound maxSize (s.goto t pc) :=
  sound_goto rfl (h.mutex.move hin) hlocal (fun u _ => h.locals u) h.capacity h.fifo

theorem Sound.release {pc : Pc δ} (h : Sound maxSize s) (ht : (s.pc t).inside = true)
    (hin : pc.inside = false) : Sound maxSize ({ s with holder := none }.goto t pc) :=
  sound_goto rfl (h.mutex.leave ht hin none) (local_of_outside hin) (fun u _ => h.locals u)
    h.capacity h.fifo

variable [Fintype τ]

omit [DecidableEq τ] in
theorem covered_of_unavailable {d : Side} (h : s.contents.available maxSize d = 0) (k : ℕ) :
    Covered maxSize s d k := by
  intro _
  rw [h]
  exact Nat.zero_le _

theorem Covered.goto {d : Side} {k k' : ℕ} {pc : Pc δ} (h : Covered maxSize s d k)
    (hpc : s₁.pc = s.pc) (hb : pc.blockedOn d = true → (s.pc t).blockedOn d = true)
    (hle : s₁.contents.available maxSize d + (s.pc t).covers d + k ≤
      s.contents.available maxSize d + pc.covers d + k') :
    Covered maxSize (s₁.goto t pc) d k' := by
  intro hpos
  have blocked := population_update (p := Pc.blockedOn d) (f := s.pc) t pc
  have awake := population_update (p := Pc.awake d) (f := s.pc) t pc
  have owing := population_update (p := Pc.owes d.other) (f := s.pc) t pc
  have hcont : (s₁.goto t pc).contents = s₁.contents := rfl
  have hto : (s₁.goto t pc).pc = Function.update s.pc t pc := by rw [← hpc]; rfl
  rw [hto] at hpos ⊢
  rw [hcont]
  have hbefore : 0 < population (Pc.blockedOn d) s.pc := by
    cases hnew : pc.blockedOn d with
    | true => exact population_pos.2 ⟨t, hb hnew⟩
    | false =>
      rw [hnew] at blocked
      simp only [Bool.toNat_false] at blocked
      omega
  have hold := h hbefore
  simp only [Pc.covers] at hle
  omega

/-! ## The steps -/

/-- The invariant. -/
structure Inv (maxSize : ℕ) (s : State B τ) : Prop where
  sound : Sound maxSize s
  covered : ∀ d, Covered maxSize s d 0

theorem Inv.advance (h : Inv maxSize s) (hst : s.advance t = some s') : Inv maxSize s' := by
  obtain ⟨hS, hC⟩ := h
  unfold State.advance at hst
  cases hpc : s.pc t with
  | idle | blocked c | notify done => simp [hpc] at hst
  | lock c woken =>
    simp only [hpc, Option.ite_none_right_eq_some, Option.some.injEq] at hst
    obtain ⟨hfree, rfl⟩ := hst
    constructor
    · exact sound_goto rfl (Exclusive.lock (hfree ▸ hS.mutex) t _) trivial
        (fun u _ => hS.locals u) hS.capacity hS.fifo
    · intro d
      exact (hC d).goto rfl (fun hb => by cases hb) (by rw [hpc, Pc.covers_check])
  | check c woken =>
    simp only [hpc] at hst
    have hin : (s.pc t).inside = true := by rw [hpc]; rfl
    split at hst
    case isTrue hready =>
      cases hst
      refine ⟨hS.move (fun _ => hin) hready, ?_⟩
      intro d
      exact (hC d).goto rfl (fun hb => by cases hb) (by rw [hpc, Pc.covers_act, Pc.covers_check])
    case isFalse hready =>
      cases hst
      -- nothing is available to this side, so nothing has to be covered
      rw [Bool.not_eq_true] at hready
      have hS' : Sound maxSize (s.goto t (.wait c)) := hS.move (fun _ => hin) hready
      refine ⟨hS', ?_⟩
      intro d
      obtain rfl | rfl := Side.eq_or_eq_other d c.side
      · exact covered_of_unavailable (hS'.available_eq_zero hready) 0
      · exact (hC _).goto rfl (fun hb => by cases hb)
          (by rw [hpc, Pc.covers_check, Pc.covers_lock_other, Pc.covers_wait])
  | wait c =>
    simp only [hpc, Option.some.injEq] at hst
    subst hst
    have hin : (s.pc t).inside = true := by rw [hpc]; rfl
    have hready : s.contents.ready c.side = false := by
      have := hS.locals t
      rwa [hpc] at this
    have hS' : Sound maxSize ({ s with holder := none }.goto t (.blocked c)) := hS.release hin rfl
    refine ⟨hS', ?_⟩
    intro d
    obtain rfl | rfl := Side.eq_or_eq_other d c.side
    · exact covered_of_unavailable (hS'.available_eq_zero hready) 0
    · refine (hC _).goto rfl (fun hb => ?_) (by rw [hpc, Pc.covers_blocked, Pc.covers_wait])
      simp [Pc.blockedOn] at hb
  | act c woken =>
    simp only [hpc, Option.map_eq_some_iff] at hst
    obtain ⟨⟨contents, done⟩, hp, rfl⟩ := hst
    have hin : (s.pc t).inside = true := by rw [hpc]; rfl
    have hready : s.contents.ready c.side = true := by
      have := hS.locals t
      rwa [hpc] at this
    -- one thing less for this side and one more for the other, whom the call will notify
    have hside := Contents.perform_side hready hp
    obtain ⟨hself, hother⟩ :=
      Contents.available_perform (hS.available_pos hready) hS.length_le hready hp
    constructor
    · refine sound_goto rfl (hS.mutex.move fun _ => hin) trivial ?_ ?_
        (Contents.perform_fifo hready hp hS.fifo)
      · intro u hu
        exact local_of_outside (hS.mutex.alone hin hu)
      · exact (Contents.perform_cases hready hp).1.trans hS.capacity
    · intro d
      refine (hC d).goto rfl (fun hb => by cases hb) ?_
      show contents.available maxSize d + _ + _ ≤ _
      rw [hpc, Pc.covers_act, Pc.covers_unlock]
      obtain rfl | rfl := Side.eq_or_eq_other d c.side
      · have := Pc.covers_lock_le c woken c.side
        omega
      · rw [Pc.covers_lock_other, ← hside, Pc.covers_notify_other, hside]
        omega
  | unlock done =>
    simp only [hpc, Option.some.injEq] at hst
    subst hst
    have hin : (s.pc t).inside = true := by rw [hpc]; rfl
    refine ⟨hS.release hin rfl, ?_⟩
    intro d
    exact (hC d).goto rfl (fun hb => by cases hb) (by rw [hpc, Pc.covers_unlock])

/-- A thread that is woken takes care of one thing more. -/
theorem wake_spec {d : Side} {k : ℕ} (hS : Sound maxSize s) (h : Covered maxSize s d (k + 1))
    (hw : s.wake d t = some s') :
    Sound maxSize s' ∧ Covered maxSize s' d k ∧
      ∀ k, Covered maxSize s d.other k → Covered maxSize s' d.other k := by
  unfold State.wake at hw
  split at hw
  case h_1 c hpc =>
    simp only [Option.ite_none_right_eq_some, Option.some.injEq] at hw
    obtain ⟨rfl, rfl⟩ := hw
    refine ⟨hS.move (fun hin => by cases hin) trivial, ?_, fun k hk => ?_⟩
    · refine h.goto rfl (fun hb => by cases hb) ?_
      rw [hpc, Pc.covers_blocked, Pc.covers_woken_self]
      omega
    · exact hk.goto rfl (fun hb => by cases hb)
        (by rw [hpc, Pc.covers_blocked, Pc.covers_lock_other])
  case h_2 => cases hw

theorem Inv.notify {done : Done δ} {target : Option τ} (h : Inv maxSize s)
    (hpc : s.pc t = .notify done)
    (hst : State.notifyOne (s.goto t .idle) done.side.other target = some s') : Inv maxSize s' := by
  have hS : Sound maxSize (s.goto t .idle) :=
    h.sound.move (fun hin => by cases hin) trivial
  have hself : Covered maxSize (s.goto t .idle) done.side 0 :=
    (h.covered _).goto rfl (fun hb => by cases hb)
      (by rw [hpc, Pc.covers_notify_self, Pc.covers_idle])
  have hother : Covered maxSize (s.goto t .idle) done.side.other 1 :=
    (h.covered _).goto rfl (fun hb => by cases hb)
      (by rw [hpc, Pc.covers_notify_other, Pc.covers_idle])
  cases target with
  | none =>
    simp only [State.notifyOne, Option.ite_none_right_eq_some, Option.some.injEq] at hst
    obtain ⟨hnobody, rfl⟩ := hst
    refine ⟨hS, ?_⟩
    intro d
    obtain rfl | rfl := Side.eq_or_eq_other d done.side
    · exact hself
    · intro hpos
      omega
  | some u =>
    obtain ⟨hS', hd, hrest⟩ := wake_spec hS hother hst
    refine ⟨hS', ?_⟩
    intro d
    obtain rfl | rfl := Side.eq_or_eq_other d done.side
    · have := hrest 0
      rw [Side.other_other] at this
      exact this hself
    · exact hd

theorem Inv.step (h : Inv maxSize s) {a : Action δ τ} (hn : a.noThrow = true)
    (hst : s.step guarded a = some s') : Inv maxSize s' := by
  cases a with
  | call t c =>
    simp only [State.step] at hst
    split at hst
    case h_1 hpc =>
      cases hst
      refine ⟨h.sound.move (fun hin => by cases hin) trivial, fun d => ?_⟩
      exact (h.covered d).goto rfl (fun hb => by cases hb)
        (by rw [hpc, Pc.covers_idle, Pc.covers_first])
    case h_2 => cases hst
  | step t => exact h.advance hst
  | event e =>
    cases e with
    | notify t target =>
      simp only [State.step] at hst
      split at hst
      case h_1 done hpc => exact h.notify hpc hst
      case h_2 => cases hst
    | spurious t =>
      simp only [State.step] at hst
      split at hst
      case h_1 c hpc =>
        have hcov : Covered maxSize s c.side (0 + 1) := fun hpos =>
          (h.covered _ hpos).trans (Nat.le_succ _)
        obtain ⟨hS', hd, hrest⟩ := wake_spec h.sound hcov hst
        refine ⟨hS', ?_⟩
        intro d
        obtain rfl | rfl := Side.eq_or_eq_other d c.side
        · exact hd
        · exact hrest 0 (h.covered _)
      case h_2 => cases hst
  | throw t => cases hn

omit [DecidableEq τ] in
theorem Inv.of_idle (hidle : ∀ t, s.pc t = .idle)
    (hcap : B.capacity s.contents.queue = maxSize) (hfifo : s.contents.Fifo) : Inv maxSize s where
  sound :=
    { mutex := fun t ht => by rw [hidle t] at ht; cases ht
      locals := fun t => by rw [hidle t]; trivial
      capacity := hcap
      fifo := hfifo }
  covered d := by
    intro hpos
    obtain ⟨t, ht⟩ := population_pos.1 hpos
    rw [hidle t] at ht
    cases ht

/-! ## The results -/

theorem inv_of_reach
    (h : (conditionQueue B τ guarded maxSize).Reach (fun _ a => a.noThrow = true) s) :
    Inv maxSize s :=
  h.invariant (.of_idle (fun _ => rfl) (B.capacity_make maxSize) (Contents.fifo_construct maxSize))
    fun _ _ _ ih ha hst => ih.step ha hst

/-- **The condition queues are bounded FIFO buffers that lose no wakeups**, in every interleaving
in which no copy throws: while a consumer is blocked, each item in the buffer has a woken
consumer, or a `put` that has yet to notify; and so for producers and free places. -/
theorem no_lost_wakeup
    (h : (conditionBoundedBlockingQueue B τ maxSize).Reach (fun _ a => a.noThrow = true) s ∨
      (cplusConditionBoundedBlockingQueue B τ maxSize).Reach (fun _ a => a.noThrow = true) s) :
    s.contents.items.length ≤ maxSize ∧
      s.contents.pushed = s.contents.popped ++ s.contents.items ∧
      (0 < population (Pc.blockedOn .take) s.pc → s.contents.items.length ≤
        population (Pc.awake .take) s.pc + population (Pc.owes .put) s.pc) ∧
      (0 < population (Pc.blockedOn .put) s.pc → maxSize - s.contents.items.length ≤
        population (Pc.awake .put) s.pc + population (Pc.owes .take) s.pc) := by
  have hinv : Inv maxSize s := h.elim inv_of_reach inv_of_reach
  exact ⟨hinv.sound.length_le, hinv.sound.fifo, hinv.covered .take, hinv.covered .put⟩

/-- The call is one of `d` that has been woken, and has not tested its predicate since. -/
def Pc.untested (d : Side) : Pc δ → Bool
  | .lock c woken | .check c woken => woken && c.side = d
  | _ => false

/-- Consumers `0` and `1` block, `2` puts an item and wakes `0`, which tests its predicate. -/
def retest : List (Action ℕ (Fin 3)) :=
  .call 0 .take :: List.replicate 3 (.step 0) ++ .call 1 .take :: List.replicate 3 (.step 1) ++
    .call 2 (.put 7) :: List.replicate 4 (.step 2) ++
    [.event (.notify 2 (some 0)), .step 0, .step 0]

/-- **It does not do to count the untested only**: a consumer that has found the item, and is
about to pop it, does not count, and consumer `1` is blocked beside the item. -/
theorem not_covered_by_untested :
    ∃ s : State (.ofList ℕ) (Fin 3),
      (cplusConditionBoundedBlockingQueue (.ofList ℕ) (Fin 3) 1).Reach
        (fun _ a => a.noThrow = true) s ∧
      0 < population (Pc.blockedOn .take) s.pc ∧
      ¬ s.contents.items.length ≤
        population (Pc.untested .take) s.pc + population (Pc.owes .put) s.pc := by
  have hrun := (cplusConditionBoundedBlockingQueue (.ofList ℕ) (Fin 3) 1).reach_of_run
    (fun _ a => a.noThrow = true) retest rfl
  exact ⟨_, hrun, by decide, by decide⟩

/-- In the same run, the consumer that has found the item still counts as awake. -/
theorem no_lost_wakeup_retest :
    ∃ s : State (.ofList ℕ) (Fin 3),
      (cplusConditionBoundedBlockingQueue (.ofList ℕ) (Fin 3) 1).Reach
        (fun _ a => a.noThrow = true) s ∧
      s.contents.items = [7] ∧ 0 < population (Pc.blockedOn .take) s.pc ∧
      s.contents.items.length ≤
        population (Pc.awake .take) s.pc + population (Pc.owes .put) s.pc := by
  have hrun := (cplusConditionBoundedBlockingQueue (.ofList ℕ) (Fin 3) 1).reach_of_run
    (fun _ a => a.noThrow = true) retest rfl
  have hblocked := (no_lost_wakeup (.inr hrun)).2.2.1
  exact ⟨_, hrun, rfl, by decide, hblocked (by decide)⟩

end ConditionQueue

end Naesala
