import Naesala.BlockingQueue.ConditionProtocol
import Naesala.BlockingQueue.SemaphoreProtocol

/-!
# The benchmark of the blocking queues

`suite` of `main_blocking_queue.cpp` starts `p` producers that make `nelts` calls of `put` each, and
`c` consumers that make `nelts` calls of `take` each, on a queue of `nelts` places, and joins them.
The numbers `p` and `c` come from the command line.

Each thread keeps its clocks at its number in arrays of `MAX_THREAD_NUM` places, and no check keeps
the numbers below that. The times are left out, but `suite` is `none`, for undefined, where a number
is no index of the arrays.

**Theorem (`suite_returns_iff`).** With at most `MAX_THREAD_NUM` producers and consumers, and without
interrupts, spurious wakeups and throws, the joins return in whatever order the threads run, if there
are as many producers as consumers, or one more; and otherwise they never do. It is the same for all
five classes.
-/

namespace Naesala

open BlockingQueue

namespace BlockingQueue

variable {δ : Type} {p c nelts : ℕ} {rand : Fin p → ℕ → δ} {body : Fin p ⊕ Fin c → List (Call δ)}

/-- `suite::MAX_THREAD_NUM`, the length of `produce_start`, `consume_start` and the like. -/
def maxThreadNum : ℕ := 16

/-- The calls of the threads of `suite`; producer `i` puts `rand i k` in turn `k` of its loop. -/
def suite (p c nelts : ℕ) (rand : Fin p → ℕ → δ) : Option (Fin p ⊕ Fin c → List (Call δ)) :=
  -- `produce_start[i]` and `consume_start[i]` come first in each thread
  if p ≤ maxThreadNum ∧ c ≤ maxThreadNum then
    some fun
      | .inl i => (List.range nelts).map fun k => .put (rand i k)
      | .inr _ => (List.range nelts).map fun _ => .take
  else none

/-- Whether a thread of `suite` is a producer or a consumer. -/
def suiteRole (p c : ℕ) : Fin p ⊕ Fin c → Side
  | .inl _ => .put
  | .inr _ => .take

theorem suite_isSome_iff (nelts : ℕ) (rand : Fin p → ℕ → δ) :
    (suite p c nelts rand).isSome ↔ p ≤ maxThreadNum ∧ c ≤ maxThreadNum := by
  rw [suite, Option.isSome_ite]

theorem side_suite (hsuite : suite p c nelts rand = some body) (t : Fin p ⊕ Fin c) (b : Call δ)
    (hb : b ∈ body t) : b.side = suiteRole p c t := by
  obtain ⟨-, hbody⟩ := Option.ite_none_right_eq_some.1 hsuite
  cases hbody
  cases t with
  | inl i =>
    obtain ⟨k, -, rfl⟩ := List.mem_map.1 hb
    rfl
  | inr j =>
    obtain ⟨k, -, rfl⟩ := List.mem_map.1 hb
    rfl

theorem calls_suite_put (hsuite : suite p c nelts rand = some body) :
    calls body .put = p * nelts := by
  obtain ⟨-, hbody⟩ := Option.ite_none_right_eq_some.1 hsuite
  cases hbody
  simp [calls, Machine.Scripted.left, Call.side, Function.comp_def]

theorem calls_suite_take (hsuite : suite p c nelts rand = some body) :
    calls body .take = c * nelts := by
  obtain ⟨-, hbody⟩ := Option.ite_none_right_eq_some.1 hsuite
  cases hbody
  simp [calls, Machine.Scripted.left, Call.side, Function.comp_def]

/-- What the `put`s and `take`s of `suite` come to. -/
theorem calls_suite_iff (hpos : 0 < nelts) (hsuite : suite p c nelts rand = some body) :
    (calls body .take ≤ calls body .put ∧ calls body .put ≤ calls body .take + nelts) ↔
      c ≤ p ∧ p ≤ c + 1 := by
  rw [calls_suite_put hsuite, calls_suite_take hsuite, ← Nat.succ_mul,
    Nat.mul_le_mul_right_iff hpos, Nat.mul_le_mul_right_iff hpos]

/-- `suite` on a queue of the two semaphore classes. -/
def semaphoreSuite {B : CircularBuffer δ} (S : Semaphore) (guarded : Bool)
    (s₀ : SemaphoreQueue.State B (Fin p ⊕ Fin c)) (body : Fin p ⊕ Fin c → List (Call δ)) :=
  (semaphoreQueue S guarded s₀).scripted .call SemaphoreQueue.Action.undisturbed body

/-- `suite` on a queue of the condition classes. -/
def conditionSuite (B : CircularBuffer δ) (guarded : Bool) (nelts : ℕ)
    (body : Fin p ⊕ Fin c → List (Call δ)) :=
  (conditionQueue B (Fin p ⊕ Fin c) guarded nelts).scripted .call
    ConditionQueue.Action.undisturbed body

end BlockingQueue

variable {δ : Type} {B : CircularBuffer δ} {p c nelts : ℕ}

/-- **The benchmark always comes to an end, and returns if and only if `c ≤ p ≤ c + 1`**, on a queue
of either kind, as long as the numbers of the threads fit the arrays. -/
theorem suite_returns_iff (hpos : 0 < nelts) (hp : p ≤ maxThreadNum) (hc : c ≤ maxThreadNum)
    (rand : Fin p → ℕ → δ) (guarded : Bool) {S : Semaphore} (hmax : nelts ≤ S.max)
    {s₀ : SemaphoreQueue.State B (Fin p ⊕ Fin c)}
    (h₀ : SemaphoreQueue.construct B (Fin p ⊕ Fin c) S nelts = some s₀) :
    ∃ body, suite p c nelts rand = some body ∧
      (∀ (as : List _) s, as.foldlM (semaphoreSuite S guarded s₀ body).step
          (semaphoreSuite S guarded s₀ body).init = some s →
        as.length ≤ 6 * ((p + c) * nelts) ∧ ((semaphoreSuite S guarded s₀ body).Halted s →
          (Returned s.script s.state.pc ↔ c ≤ p ∧ p ≤ c + 1))) ∧
      ∀ (as : List _) s, as.foldlM (conditionSuite B guarded nelts body).step
          (conditionSuite B guarded nelts body).init = some s →
        as.length ≤ 9 * ((p + c) * nelts) ∧ ((conditionSuite B guarded nelts body).Halted s →
          (Returned s.script s.state.pc ↔ c ≤ p ∧ p ≤ c + 1)) := by
  obtain ⟨body, hsuite⟩ := Option.isSome_iff_exists.1 ((suite_isSome_iff nelts rand).2 ⟨hp, hc⟩)
  have hcalls : calls body .put + calls body .take = (p + c) * nelts := by
    rw [calls_suite_put hsuite, calls_suite_take hsuite, Nat.add_mul]
  refine ⟨body, hsuite, ?_⟩
  rw [← calls_suite_iff hpos hsuite, ← hcalls]
  constructor
  · intro as s hrun
    exact SemaphoreQueue.semaphore_queue_ends guarded hmax hpos h₀ (side_suite hsuite) hrun
  · intro as s hrun
    exact ConditionQueue.condition_queue_ends guarded hpos (side_suite hsuite) hrun

/-- A consumer begins its call, and there is no producer. -/
def loneConsumer : List (Machine.ScriptedAction (SemaphoreQueue.Action ℕ (Fin 0 ⊕ Fin 1))
    (Fin 0 ⊕ Fin 1)) :=
  [.call (.inr (Fin.last 0))]

/-- What the consumer does. -/
def loneBody : Fin 0 ⊕ Fin 1 → List (Call ℕ) := fun
  | .inl i => i.elim0
  | .inr _ => [.take]

/-- Then the `take` blocks. -/
theorem suite_returns_iff_lone :
    ∃ s₀ s, SemaphoreQueue.construct (.ofList ℕ) (Fin 0 ⊕ Fin 1) unsignedSemaphore 1 = some s₀ ∧
      suite 0 1 1 (fun _ _ => 7) = some loneBody ∧
      loneConsumer.foldlM (semaphoreSuite unsignedSemaphore true s₀ loneBody).step
        (semaphoreSuite unsignedSemaphore true s₀ loneBody).init = some s ∧
      ¬ Returned s.script s.state.pc := by
  have hmade : SemaphoreQueue.construct (.ofList ℕ) (Fin 0 ⊕ Fin 1) unsignedSemaphore 1 =
      some (.fresh _ _ 1 1) := rfl
  have hbody : suite 0 1 1 (fun _ _ => 7) = some loneBody := by
    refine congrArg some (funext fun t => ?_)
    cases t with
    | inl i => exact i.elim0
    | inr j => rfl
  have hrun : loneConsumer.foldlM (semaphoreSuite unsignedSemaphore true
      (.fresh (.ofList ℕ) _ 1 1) loneBody).step
      (semaphoreSuite unsignedSemaphore true (.fresh (.ofList ℕ) _ 1 1) loneBody).init =
      some _ := rfl
  obtain ⟨body, hsuite, hends, -⟩ := suite_returns_iff Nat.one_pos (by decide) (by decide)
    (fun (_ : Fin 0) _ => 7) true (by decide) hmade
  obtain rfl := Option.some_inj.1 (hbody.symm.trans hsuite)
  refine ⟨_, _, hmade, hbody, hrun, fun hreturned => ?_⟩
  have hiff := (hends _ _ hrun).2 ?_
  · exact absurd (hiff.1 hreturned).1 (by decide)
  · have hone : ∀ t : Fin 0 ⊕ Fin 1, t = .inr (Fin.last 0) := by
      intro t
      cases t with
      | inl i => exact i.elim0
      | inr j => rw [Subsingleton.elim j (Fin.last 0)]
    intro a
    cases a with
    | call t =>
      rw [hone t]
      rfl
    | other b =>
      cases b with
      | step t =>
        rw [hone t]
        rfl
      | _ => rfl

end Naesala
