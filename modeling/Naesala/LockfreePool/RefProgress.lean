import Naesala.Library.Potential
import Naesala.LockfreePool.RefSteps

/-!
# `incr_ref` and `decr_ref` are lock-free

`State.distance s t` bounds the steps that thread `t` takes from `s` on before a call of it takes
effect, if it is left alone. Only a successful last compare-exchange of a call, or a `get`, takes
effect. The other writes, with which `incr_ref` helps and `decr_ref` resets the counter, turn
`BACKING` into `0`, and they bring no thread farther from its effect: a thread that has met
`BACKING` has the way over the helping compare-exchange in its distance already.

**Theorem (`incr_decr_lock_free`).** In every stretch of every run, the steps that a thread takes
are at most `7`, and `7` for each call of `incr_ref`, `decr_ref` or `get`, by whatever thread, that
takes effect in the meantime, and `3` for each compare-exchange of the thread that fails spuriously.
-/

namespace Naesala

namespace LockfreeSlabPool

variable {τ β : Type} [DecidableEq τ] [DecidableEq β] {s s' : State τ β} {t u : τ}
variable {count count' : β → ℤ}

/-! ## What counts -/

/-- A step of a call of thread `t`. -/
def Action.stepOf (t : τ) : Action τ β → Bool
  | .step u _ => u = t
  | _ => false

/-- A step of thread `t` whose weak compare-exchange, if it is one, fails spuriously. -/
def Action.spuriousOf (t : τ) : Action τ β → Bool
  | .step u spurious => u = t && spurious
  | _ => false

/-- The value of the counter with which the next step completes the count of the call. -/
def Pc.last? : Pc β → Option (β × ℤ)
  | .incrCas b last | .decrCas b last => some (b, last)
  | .decrMark b => some (b, 1)
  | _ => none

/-- The action is the last compare-exchange of a call and succeeds, or `get`. -/
def Action.takesEffect (s : State τ β) : Action τ β → Bool
  | .get _ _ => true
  | .step t spurious => !spurious && (s.pc t).last?.any fun x => s.userCount x.1 = x.2
  | _ => false

/-- The steps until a call takes effect, at most, if the thread is left alone. After a `decr_ref`
that has given up the last reference there are two more before the next call. -/
def Pc.distance (count : β → ℤ) : Pc β → ℕ
  | .idle => 5
  | .incrLoad b => if count b = backing then 5 else 2
  | .incrHelp b => if count b = backing then 4 else 2
  | .incrCas b last =>
    if count b = backing then 6 else if count b = last then 1 else 3
  | .decrLoad _ => 3
  | .decrAssert b last => if last = backing ∨ count b = last then 2 else 5
  | .decrMark b => if count b = 1 then 1 else 4
  | .decrBack _ => 7
  | .decrReset _ => 6
  | .decrCas b last => if last ≠ backing ∧ count b = last then 1 else 4

def State.distance (s : State τ β) (t : τ) : ℕ := (s.pc t).distance s.userCount

/-! ## How the distances change -/

/-- Some counters are reset. -/
def Settled (count count' : β → ℤ) : Prop :=
  ∀ b, count' b = count b ∨ count b = backing ∧ count' b = 0

omit [DecidableEq β] in
theorem Pc.distance_le (count : β → ℤ) (pc : Pc β) : pc.distance count ≤ 7 := by
  cases pc <;> simp only [Pc.distance] <;> try split_ifs
  all_goals omega

omit [DecidableEq β] in
theorem Pc.one_le_distance (count : β → ℤ) (pc : Pc β) : 1 ≤ pc.distance count := by
  cases pc <;> simp only [Pc.distance] <;> try split_ifs
  all_goals omega

omit [DecidableEq β] in
/-- A thread that has not moved is no farther from its effect when counters are reset. -/
theorem Settled.distance_le (h : Settled count count') (pc : Pc β) :
    pc.distance count' ≤ pc.distance count := by
  cases pc with
  | incrLoad b | incrHelp b | incrCas b last | decrAssert b last | decrMark b | decrCas b last =>
    have hb : count' b = count b ∨ count b = -1 ∧ count' b = 0 := h b
    simp only [Pc.distance, backing]
    split_ifs <;> omega
  | _ => exact le_rfl

omit [DecidableEq β] in
theorem Settled.refl (count : β → ℤ) : Settled count count := fun _ => Or.inl rfl

theorem Settled.reset {b : β} (hb : count b = backing) :
    Settled count (Function.update count b 0) := by
  intro c
  by_cases hc : c = b
  · subst hc
    exact Or.inr ⟨hb, Function.update_self ..⟩
  · exact Or.inl (Function.update_of_ne hc ..)

/-! ## One step -/

/-- What a step of thread `u` can do: come nearer to an effect, or fail spuriously; or have one. -/
inductive Advanced (s : State τ β) (u : τ) (spurious : Bool) : State τ β → Prop
  | quiet {s₁ : State τ β} {pc : Pc β} : s₁.pc = s.pc → Settled s.userCount s₁.userCount →
      pc.distance s₁.userCount + 1 ≤ s.distance u + 3 * spurious.toNat →
      Advanced s u spurious (s₁.goto u pc)
  | effect {s₁ : State τ β} {pc : Pc β} : s₁.pc = s.pc →
      (Action.step u spurious).takesEffect s = true → Advanced s u spurious (s₁.goto u pc)

omit [DecidableEq β] in
/-- A load, a test or a failure comes nearer to the effect, or is a spurious failure, which is paid
for. -/
theorem Reads.distance_lt {spurious : Bool} {b : β} {old pc : Pc β}
    (h : Reads count spurious b old pc) :
    pc.distance count + 1 ≤ old.distance count + 3 * spurious.toNat := by
  cases h with
  | vacant hb | load hb | helpFails hb | resetFails hb => simp [Pc.distance, hb]
  | drop => simp [Pc.distance]
  | last =>
    have hone : (1 : ℤ) ≠ backing := by decide
    simp only [Pc.distance, hone, false_or]
    split_ifs <;> omega
  | notLast =>
    simp only [Pc.distance]
    split_ifs <;> omega
  | incrFails hfails =>
    rcases hfails with hne | rfl
    · simp only [Pc.distance, if_neg hne]
      split_ifs <;> omega
    · simp only [Pc.distance, Bool.toNat_true]
      split_ifs <;> omega
  | markFails hfails | decrFails hfails =>
    rcases hfails with hne | rfl
    · simp [Pc.distance, hne]
    · simp only [Pc.distance, Bool.toNat_true]
      split_ifs <;> omega

theorem Resets.distance_lt {b : β} {old pc : Pc β} (h : Resets b old pc)
    (hb : count b = backing) :
    pc.distance (Function.update count b 0) + 1 ≤ old.distance count := by
  cases h <;> simp [Pc.distance, hb]

theorem advanced {spurious : Bool} (h : s.advance u spurious = some s') :
    Advanced s u spurious s' := by
  cases stepped_of_advance h with
  | reads hreads => exact .quiet rfl (.refl _) hreads.distance_lt
  | resets hresets hb =>
    exact .quiet rfl (.reset hb) ((hresets.distance_lt hb).trans (Nat.le_add_right _ _))
  | acquires hpc hcas hnot | releases hpc hcas hnot =>
    exact .effect rfl (by simp [Action.takesEffect, hpc, Pc.last?, hcas, hnot])
  | falls hpc hcas hnot =>
    exact .effect rfl (by simp [Action.takesEffect, hpc, Pc.last?, hcas, hnot])
  | backs hpc =>
    refine .quiet rfl (.refl _) ?_
    rw [State.distance, hpc]
    simp [Pc.distance]

omit [DecidableEq β] in
theorem distance_goto_self (s : State τ β) (u : τ) (pc : Pc β) :
    (s.goto u pc).distance u = pc.distance s.userCount := by
  simp [State.distance, State.goto]

omit [DecidableEq β] in
theorem pc_goto_of_ne (s : State τ β) (htu : t ≠ u) (pc : Pc β) : (s.goto u pc).pc t = s.pc t := by
  simp [State.goto, htu]

omit [DecidableEq τ] [DecidableEq β] in
/-- A thread that stays where it is. -/
theorem distance_of_stay (hpc : s'.pc t = s.pc t) :
    (Settled s.userCount s'.userCount → s'.distance t ≤ s.distance t) ∧
      s'.distance t ≤ s.distance t + 6 := by
  have hd : s'.distance t = (s.pc t).distance s'.userCount := by rw [State.distance, hpc]
  have hle := Pc.distance_le s'.userCount (s.pc t)
  have hge := Pc.one_le_distance s.userCount (s.pc t)
  refine ⟨fun h => ?_, ?_⟩
  · rw [hd]
    exact h.distance_le _
  · have hds : s.distance t = (s.pc t).distance s.userCount := rfl
    omega

omit [DecidableEq β] in
/-- The call of a thread begins. -/
theorem distance_begin (t : τ) {pc : Pc β} (hidle : s.pc u = .idle)
    (hpc : pc.distance s.userCount ≤ 5) : (s.goto u pc).distance t ≤ s.distance t := by
  by_cases htu : t = u
  · subst htu
    rw [distance_goto_self, State.distance, hidle]
    exact hpc
  · exact (distance_of_stay (pc_goto_of_ne s htu pc)).1 (.refl _)

/-- **A step pays.** What thread `t` takes of it comes out of its distance and of the effects. -/
theorem distance_step (t : τ) (a : Action τ β) (h : s.step a = some s') :
    s'.distance t + (a.stepOf t).toNat ≤
      s.distance t + 7 * (a.takesEffect s).toNat + 3 * (a.spuriousOf t).toNat := by
  cases a with
  | step u spurious =>
    by_cases htu : u = t
    · subst htu
      simp only [Action.stepOf, Action.spuriousOf, decide_true, Bool.true_and, Bool.toNat_true]
      cases advanced h with
      | @quiet s₁ pc hpc hsettled hle =>
        have hd := distance_goto_self s₁ u pc
        omega
      | @effect s₁ pc hpc heffect =>
        have hd := distance_goto_self s₁ u pc
        have hle := Pc.distance_le s₁.userCount pc
        have hge : 1 ≤ s.distance u := Pc.one_le_distance s.userCount (s.pc u)
        rw [heffect, Bool.toNat_true]
        omega
    · have hstep : (Action.step u spurious : Action τ β).stepOf t = false := by
        simp [Action.stepOf, htu]
      have hne : t ≠ u := fun heq => htu heq.symm
      rw [hstep, Bool.toNat_false]
      cases advanced h with
      | @quiet s₁ pc hpc hsettled hle =>
        have hstay : (s₁.goto u pc).pc t = s.pc t := by rw [pc_goto_of_ne s₁ hne, hpc]
        have hle' := (distance_of_stay hstay).1 hsettled
        omega
      | @effect s₁ pc hpc heffect =>
        have hstay : (s₁.goto u pc).pc t = s.pc t := by rw [pc_goto_of_ne s₁ hne, hpc]
        have hle := (distance_of_stay hstay).2
        rw [heffect, Bool.toNat_true]
        omega
  | get u b =>
    have hpc : s'.pc t = s.pc t := by
      simp only [State.step, State.get] at h
      split_ifs at h <;> cases h <;> rfl
    have hle := (distance_of_stay hpc).2
    have heffect : (Action.get u b : Action τ β).takesEffect s = true := rfl
    rw [heffect, Bool.toNat_true]
    show s'.distance t + 0 ≤ _
    omega
  | incrRef u b =>
    simp only [State.step] at h
    split_ifs at h with hidle
    cases h
    refine distance_begin t hidle.1 ?_
    simp only [Pc.distance]
    split_ifs <;> omega
  | decrRef u b =>
    simp only [State.step] at h
    split_ifs at h with hidle
    cases h
    exact distance_begin (s := { s with begun := tick s.begun b }) t hidle (by simp [Pc.distance])

/-- **`incr_ref` and `decr_ref` are lock-free.** In every stretch of every run, the steps that a
thread takes in calls of `incr_ref` and `decr_ref` are at most seven, and seven for each call of any
thread that takes effect in the meantime, and three for each of its compare-exchanges that fails
spuriously. -/
theorem incr_decr_lock_free {as : List (Action τ β)}
    (hrun : as.foldlM (lockfreeSlabPool τ β).step s = some s') (t : τ) :
    as.countP (Action.stepOf t) ≤
      7 + 7 * (lockfreeSlabPool τ β).total (fun s a => (a.takesEffect s).toNat) s as +
        3 * as.countP (Action.spuriousOf t) := by
  have hpay := Machine.total_le (I := fun _ => True) (J := fun _ => True)
    (c := fun _ a => 1 * (a.stepOf t).toNat)
    (d := fun s a => 7 * (a.takesEffect s).toNat + 3 * (a.spuriousOf t).toNat)
    (Φ := fun s => (s.distance t : ℤ)) (fun _ _ _ _ _ => trivial)
    (fun s a s₁ _ _ hst => ⟨trivial, by have := distance_step t a hst; omega⟩) hrun trivial trivial
  rw [Machine.total_eq_countP (fun _ _ => rfl) hrun, Machine.total_add, Machine.total_mul,
    Machine.total_eq_countP (fun _ _ => rfl) hrun] at hpay
  have hle := Pc.distance_le s.userCount (s.pc t)
  have hd : s.distance t = (s.pc t).distance s.userCount := rfl
  omega

/-- Thread `false` takes a reference to the block that thread `true` is giving back, and meets
`BACKING`. -/
def helped : List (Action Bool ℕ) :=
  [.get true 0, .incrRef true 0, .step true false, .step true false, .decrRef true 0,
    .step true false, .step true false, .step true false, .incrRef false 0, .step false false,
    .step true false, .step true false, .step false false, .step false false]

/-- The three steps of thread `false` in that run, in which four calls take effect. -/
theorem incr_decr_lock_free_helped :
    ∃ s', helped.foldlM (lockfreeSlabPool Bool ℕ).step (lockfreeSlabPool Bool ℕ).init = some s' ∧
      helped.countP (Action.stepOf false) = 3 ∧
      helped.countP (Action.stepOf false) ≤ 7 +
        7 * (lockfreeSlabPool Bool ℕ).total (fun s a => (a.takesEffect s).toNat)
          (lockfreeSlabPool Bool ℕ).init helped + 3 * helped.countP (Action.spuriousOf false) := by
  have hrun : helped.foldlM (lockfreeSlabPool Bool ℕ).step (lockfreeSlabPool Bool ℕ).init =
    some _ := rfl
  exact ⟨_, hrun, rfl, incr_decr_lock_free hrun false⟩

end LockfreeSlabPool

end Naesala
