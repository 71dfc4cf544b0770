import Naesala.BlockingQueue.ConditionThrow
import Naesala.BlockingQueue.Protocol

/-!
# The condition queues keep the promise

A call tests its predicate again each time it is woken, so its steps are not bounded by themselves.
But without spurious wakeups it is woken by the notification of another call, and that is one: the
way back from `blocked` to `lock` is shorter than what the notifying call has left at that point.

A queue in which no step is possible has no thread inside, so nobody waits for the mutex; all
notifications have been given. Then nobody is awake, and a call that is blocked has nothing
available to it, since no wakeup is lost.
-/

namespace Naesala

open BlockingQueue

namespace ConditionQueue

variable {δ τ : Type} {B : CircularBuffer δ} {guarded : Bool} {maxSize : ℕ}
  {s s' : State B τ} {t u : τ}

/-- A step of a call that does not throw. -/
def Action.undisturbed : Action δ τ → Bool
  | .step _ | .event (.notify _ _) => true
  | _ => false

/-- The side of a call that has not done its push or pop yet. -/
def Pc.asks : Pc δ → Option Side
  | .lock c _ | .check c _ | .wait c | .blocked c | .act c _ => some c.side
  | _ => none

/-- A bound on the steps until the call has ended or is blocked, and those of a call that it wakes.
-/
def Pc.rank : Pc δ → ℕ
  | .idle => 0
  | .lock _ _ => 8
  | .check _ _ => 7
  | .wait _ | .act _ _ => 6
  | .blocked _ | .unlock _ => 5
  | .notify _ => 4

variable [DecidableEq τ] [Fintype τ]

/-- The invariant of a queue without throws. -/
structure Undisturbed (maxSize : ℕ) (s : State B τ) : Prop where
  inv : Inv maxSize s
  attended : Attended Pc.inside s.holder s.pc

omit [Fintype τ] in
theorem Sound.moved (h : Sound maxSize s) (hst : s.advance t = some s') :
    ∃ pc, Moved Pc.asks Pc.rank s t s' pc := by
  unfold State.advance at hst
  cases hpc : s.pc t with
  | idle | blocked c | notify done => simp [hpc] at hst
  | lock c woken =>
    simp only [hpc, Option.ite_none_right_eq_some, Option.some.injEq] at hst
    obtain ⟨-, rfl⟩ := hst
    exact ⟨_, .lock (by simp [hpc, Pc.rank]) rfl (by rw [hpc]; rfl)⟩
  | check c woken =>
    simp only [hpc] at hst
    split at hst
    case isTrue hready =>
      cases hst
      exact ⟨_, .goto (by simp [hpc, Pc.rank]) (fun _ => rfl) (by rw [hpc]; rfl)⟩
    case isFalse hready =>
      cases hst
      exact ⟨_, .goto (by simp [hpc, Pc.rank]) (fun _ => rfl) (by rw [hpc]; rfl)⟩
  | wait c | unlock done =>
    simp only [hpc, Option.some.injEq] at hst
    subst hst
    exact ⟨_, .unlock (by simp [hpc, Pc.rank]) (by rw [hpc]; rfl)⟩
  | act c woken =>
    simp only [hpc, Option.map_eq_some_iff] at hst
    obtain ⟨⟨contents, done⟩, hp, rfl⟩ := hst
    have hready : s.contents.ready c.side = true := by
      have hlocal := h.locals t
      rwa [hpc] at hlocal
    exact ⟨_, .perform hready hp (by simp [hpc, Pc.rank]) rfl (by rw [hpc]; rfl) rfl⟩

/-- Between calls, or blocked, is where threads are when no step is possible. -/
theorem Undisturbed.stopped (h : Undisturbed maxSize s)
    (hstop : ∀ a : Action δ τ, a.undisturbed = true → s.step guarded a = none) (t : τ) :
    s.pc t = .idle ∨ ∃ c, s.pc t = .blocked c := by
  have hadvance : ∀ u, s.advance u = none := fun u => hstop (.step u) rfl
  have hout : ∀ u, (s.pc u).inside = false := by
    intro u
    have hu := hadvance u
    have hlocal := h.inv.sound.locals u
    unfold State.advance at hu
    cases hpc : s.pc u with
    | check c woken =>
      simp only [hpc] at hu
      split at hu <;> cases hu
    | wait c => simp [hpc] at hu
    | act c woken =>
      rw [hpc] at hlocal
      obtain ⟨r, hr⟩ := Contents.exists_perform hlocal
      simp [hpc, hr] at hu
    | unlock done => simp [hpc] at hu
    | _ => rfl
  have hfree := h.attended.eq_none hout
  have ht := hadvance t
  have hin := hout t
  unfold State.advance at ht
  cases hpc : s.pc t with
  | idle => exact Or.inl rfl
  | blocked c => exact Or.inr ⟨c, rfl⟩
  | lock c woken => simp [hpc, hfree] at ht
  | notify done =>
    -- whoever is blocked can be woken, and if nobody is, then nobody is
    exfalso
    rcases Nat.eq_zero_or_pos (population (Pc.blockedOn done.side.other) (s.goto t .idle).pc) with
      hnone | hsome
    · have hn := hstop (.event (.notify t none)) rfl
      simp only [State.step, hpc, State.notifyOne, if_pos hnone] at hn
      cases hn
    · obtain ⟨u, hu⟩ := population_pos.1 hsome
      have hn := hstop (.event (.notify t (some u))) rfl
      simp only [State.step, hpc, State.notifyOne, State.wake] at hn
      cases hpcu : (s.goto t .idle).pc u with
      | blocked c =>
        rw [hpcu] at hu hn
        simp only [Pc.blockedOn, decide_eq_true_eq] at hu
        simp [hu] at hn
      | _ =>
        rw [hpcu] at hu
        cases hu
  | check c woken | wait c | act c woken | unlock done =>
    rw [hpc] at hin
    cases hin

theorem Undisturbed.available_eq_zero (h : Undisturbed maxSize s)
    (hstop : ∀ a : Action δ τ, a.undisturbed = true → s.step guarded a = none) {d : Side}
    (hasks : (s.pc t).asks = some d) : s.contents.available maxSize d = 0 := by
  have hstopped := h.stopped hstop
  have hawake : population (Pc.awake d) s.pc = 0 := by
    refine population_eq_zero.2 fun u => ?_
    rcases hstopped u with hpc | ⟨c, hpc⟩ <;> rw [hpc] <;> rfl
  have howes : population (Pc.owes d.other) s.pc = 0 := by
    refine population_eq_zero.2 fun u => ?_
    rcases hstopped u with hpc | ⟨c, hpc⟩ <;> rw [hpc] <;> rfl
  have hblocked : 0 < population (Pc.blockedOn d) s.pc := by
    refine population_pos.2 ⟨t, ?_⟩
    rcases hstopped t with hpc | ⟨c, hpc⟩
    · rw [hpc] at hasks
      cases hasks
    · rw [hpc] at hasks ⊢
      exact decide_eq_true (Option.some.inj hasks)
  have hcovered := h.inv.covered d hblocked
  omega

theorem Undisturbed.notify {target : Option τ} (h : Undisturbed maxSize s)
    (hst : s.step guarded (.event (.notify t target)) = some s') :
    Attended Pc.inside s'.holder s'.pc ∧ ∑ u, (s'.pc u).rank < ∑ u, (s.pc u).rank ∧
      Pc.asks ∘ s'.pc = Pc.asks ∘ s.pc ∧ s'.contents = s.contents := by
  obtain ⟨done, hpc, hnotify⟩ := notify_cases hst
  have hnotified : Moved Pc.asks Pc.rank s t (s.goto t .idle) .idle :=
    .goto (by simp [hpc, Pc.rank]) (by simp [hpc, Pc.inside]) (by rw [hpc]; rfl)
  have hatt := hnotified.attended h.attended
  have hasks : Pc.asks ∘ (s.goto t .idle).pc = Pc.asks ∘ s.pc :=
    comp_update_of_eq (by rw [hpc]; rfl)
  have hrank := sum_update_add Pc.rank (f := s.pc) (Finset.mem_univ t) .idle
  have hbefore : (s.pc t).rank = 4 := by rw [hpc]; rfl
  have hidle : (Pc.idle : Pc δ).rank = 0 := rfl
  cases target with
  | none =>
    simp only [State.notifyOne, Option.ite_none_right_eq_some, Option.some.injEq] at hnotify
    obtain ⟨-, rfl⟩ := hnotify
    exact ⟨hatt, hnotified.progress.1, hasks, rfl⟩
  | some u =>
    obtain ⟨c, hpcu, -, rfl⟩ := wake_cases hnotify
    have hrank' := sum_update_add Pc.rank (f := (s.goto t .idle).pc) (Finset.mem_univ u)
      (.lock c true)
    have hblocked : ((s.goto t .idle).pc u).rank = 5 := by rw [hpcu]; rfl
    have hlock : (Pc.lock c true).rank = 8 := rfl
    have hless : ∑ v, (((s.goto t .idle).goto u (.lock c true)).pc v).rank <
        ∑ v, (s.pc v).rank := by
      simp only [Threads.pc_goto] at hrank' hblocked ⊢
      omega
    refine ⟨hatt.move fun hin => ?_, hless, ?_, rfl⟩
    · rw [hpcu] at hin
      cases hin
    · exact (comp_update_of_eq (by rw [hpcu]; rfl)).trans hasks

/-- What the condition queues promise without spurious wakeups and throws. -/
def protocol (B : CircularBuffer δ) (τ : Type) [DecidableEq τ] [Fintype τ] (guarded : Bool)
    (maxSize : ℕ) :
    Protocol B (conditionQueue B τ guarded maxSize) QueueAction.call Action.undisturbed maxSize where
  Inv := Undisturbed maxSize
  contents s := s.contents
  asks s := Pc.asks ∘ s.pc
  rank s := ∑ t, (s.pc t).rank
  cost := 8
  inv_init := ⟨.of_idle (fun _ => rfl) (B.capacity_make maxSize) (Contents.fifo_construct maxSize),
    Attended.free⟩
  contents_init := rfl
  asks_init _ := rfl
  rank_init := Finset.sum_eq_zero fun _ _ => rfl
  fifo h := h.inv.sound.fifo
  length_le h := h.inv.sound.length_le
  call {s s' t c} h hst := by
    have hstep : s.step guarded (.call t c) = some s' := hst
    have hinv := h.inv.step rfl hstep
    simp only [State.step] at hstep
    split at hstep
    case h_1 hpc =>
      cases hstep
      have hrank := sum_update_add Pc.rank (f := s.pc) (Finset.mem_univ t) (.lock c false)
      rw [hpc] at hrank
      refine ⟨⟨hinv, h.attended.move fun hin => ?_⟩, hrank.le, rfl, congrArg Pc.asks hpc,
        Function.comp_update _ _ _ _⟩
      rw [hpc] at hin
      cases hin
    case h_2 => cases hstep
  other {s s' a} h ha hst := by
    cases a with
    | step t =>
      have hstep : s.step guarded (.step t) = some s' := hst
      obtain ⟨pc, hmoved⟩ := h.inv.sound.moved hstep
      exact ⟨⟨h.inv.step rfl hstep, hmoved.attended h.attended⟩, hmoved.progress⟩
    | event e =>
      cases e with
      | notify t target =>
        have hstep : s.step guarded (.event (.notify t target)) = some s' := hst
        obtain ⟨hatt, hless, hasks, hcontents⟩ := h.notify hstep
        exact ⟨⟨h.inv.step rfl hstep, hatt⟩, hless, .inl ⟨hasks, hcontents⟩⟩
      | spurious t => cases ha
    | _ => cases ha
  halted {s} h hstop t := by
    refine ⟨fun hasks c => ?_, fun d hasks => h.available_eq_zero hstop hasks⟩
    rcases h.stopped hstop t with hpc | ⟨c', hpc⟩
    · simp [conditionQueue, State.step, hpc]
    · rw [Function.comp_apply, hpc] at hasks
      cases hasks

/-- **The condition queues serve producers and consumers to the end.** -/
theorem condition_queue_ends (guarded : Bool) (hpos : 0 < maxSize)
    {script : τ → List (Call δ)} {role : τ → Side} (hrole : ∀ t, ∀ c ∈ script t, c.side = role t)
    {as : List (Machine.ScriptedAction (Action δ τ) τ)}
    {s : Machine.Scripted (State B τ) τ (Call δ)}
    (hrun : as.foldlM ((conditionQueue B τ guarded maxSize).scripted .call Action.undisturbed
      script).step ⟨(conditionQueue B τ guarded maxSize).init, script⟩ = some s) :
    as.length ≤ 9 * (calls script .put + calls script .take) ∧
      (((conditionQueue B τ guarded maxSize).scripted .call Action.undisturbed script).Halted s →
        (Returned s.script s.state.pc ↔ calls script .take ≤ calls script .put ∧
          calls script .put ≤ calls script .take + maxSize)) := by
  obtain ⟨hlength, hfinished⟩ := (protocol B τ guarded maxSize).ends hpos hrole hrun
  refine ⟨hlength, fun hhalt => ?_⟩
  have hinv : Undisturbed maxSize s.state := (protocol B τ guarded maxSize).inv_of_run hrun
  have hidle : ∀ t, (s.state.pc t).asks = none ↔ s.state.pc t = .idle := by
    intro t
    rcases hinv.stopped (fun a ha => Machine.Scripted.other_of_halted hhalt ha) t with
      hpc | ⟨c, hpc⟩ <;> simp [hpc, Pc.asks]
  rw [← hfinished hhalt]
  exact (Protocol.finished_iff_returned hidle).symm

/-- The consumer of `onePair` blocks, and the producer wakes it. -/
def onePairRun : List (Machine.ScriptedAction (Action ℕ Bool) Bool) :=
  .call false :: List.replicate 3 (.other (.step false)) ++
    .call true :: List.replicate 4 (.other (.step true)) ++
    .other (.event (.notify true (some false))) :: List.replicate 4 (.other (.step false)) ++
    [.other (.event (.notify false none))]

/-- Both calls return in that run. -/
theorem condition_queue_ends_pair :
    ∃ s : Machine.Scripted (State (.ofList ℕ) Bool) Bool (Call ℕ),
      onePairRun.foldlM ((conditionQueue (.ofList ℕ) Bool true 1).scripted .call
        Action.undisturbed onePair).step ⟨(conditionQueue (.ofList ℕ) Bool true 1).init, onePair⟩ =
        some s ∧ Returned s.script s.state.pc := by
  have hrun : onePairRun.foldlM ((conditionQueue (.ofList ℕ) Bool true 1).scripted .call
      Action.undisturbed onePair).step ⟨(conditionQueue (.ofList ℕ) Bool true 1).init, onePair⟩ =
      some _ := rfl
  refine ⟨_, hrun, ?_⟩
  refine ((condition_queue_ends true Nat.one_pos side_onePair hrun).2 ?_).2 (by decide)
  intro a
  cases a with
  | call t => cases t <;> rfl
  | other b =>
    cases b with
    | step t => cases t <;> rfl
    | event e =>
      cases e with
      | notify t u => cases t <;> rfl
      | spurious t => rfl
    | _ => rfl

end ConditionQueue

end Naesala
