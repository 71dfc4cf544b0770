import Naesala.Library.Potential
import Naesala.Lockfree.StackSteps

/-!
# `LockfreeStack` is lock-free

`State.distance s t` is the number of steps that thread `t` needs from `s` on until a call of it
takes effect, if it is left alone. What the thread has loaded of `_top` decides: if it is still so,
then the next compare-exchange succeeds, and otherwise there is one more turn of the loop. Only a
call that takes effect changes `_top`, so the distance of a thread is a potential that pays for all
its steps but for a constant number for each such call.

**Theorem (`push_pop_lock_free`).** In every stretch of every run, the steps that a thread takes are
at most `7`, and `4` for each push or pop that takes effect in the meantime, by whatever thread, and
for each compare-exchange of the thread that fails spuriously.
-/

namespace Naesala

namespace LockfreeStack

variable {τ : Type} [DecidableEq τ] {s s' : State τ} {t u : τ}

/-- A step of a call of thread `t`. -/
def Action.stepOf (t : τ) : Action τ → Bool
  | .step u _ => u = t
  | _ => false

/-- A step of thread `t` whose compare-exchange, if it is one, fails spuriously. -/
def Action.spuriousOf (t : τ) : Action τ → Bool
  | .step u spurious => u = t && spurious
  | _ => false

/-- The steps until a call takes effect, if the thread is left alone while `_top` is `top`. -/
def Pc.distance (top : Word) : Pc → ℕ
  | .idle | .pushCombine _ | .popLoad => 4
  | .pushLoad _ _ => 3
  | .pushNext _ _ lastTopCombine => if lastTopCombine = top then 2 else 5
  | .pushCas _ _ lastTopCombine => if lastTopCombine = top then 1 else 4
  | .popNext topCombine => if topCombine = top then 3 else 7
  | .popCombine topCombine _ => if topCombine = top then 2 else 6
  | .popCas topCombine _ => if topCombine = top then 1 else 5

def State.distance (s : State τ) (t : τ) : ℕ := (s.pc t).distance s.top

theorem Pc.distance_le (top : Word) (pc : Pc) : pc.distance top ≤ 7 := by
  cases pc <;> simp only [Pc.distance] <;> try split_ifs
  all_goals omega

/-- A thread has not moved, while `_top` has. -/
theorem Pc.distance_le_add (top top' : Word) (pc : Pc) :
    pc.distance top' ≤ pc.distance top + 4 := by
  cases pc <;> simp only [Pc.distance] <;> try split_ifs
  all_goals omega

/-- What a step of thread `u` can do: come nearer to an effect, or fail spuriously; or have one. -/
inductive Advanced (s : State τ) (u : τ) (spurious : Bool) : State τ → Prop
  | quiet {s₁ : State τ} {pc : Pc} : s₁.pc = s.pc → s₁.top = s.top → s₁.history = s.history →
      pc.distance s.top + 1 ≤ s.distance u + 4 * spurious.toNat →
      Advanced s u spurious (s₁.goto u pc)
  | effect {s₁ : State τ} {e : Event τ} : s₁.pc = s.pc → s₁.history = s.history ++ [e] →
      1 ≤ s.distance u → Advanced s u spurious (s₁.goto u .idle)

omit [DecidableEq τ] in
/-- A load comes nearer to the effect, and so does a failure, unless it is spurious, which is paid
for. -/
theorem Reads.distance_lt {spurious : Bool} {old pc : Pc} (h : Reads s spurious old pc) :
    pc.distance s.top + 1 ≤ old.distance s.top + 4 * spurious.toNat := by
  cases h with
  | pushTop | popTop => simp [Pc.distance]
  | next =>
    simp only [Pc.distance]
    split_ifs <;> omega
  | pushFails hfails | popFails hfails =>
    rcases hfails with hne | rfl
    · simp [Pc.distance, Ne.symm hne]
    · simp only [Pc.distance, Bool.toNat_true]
      split_ifs <;> omega

theorem advanced {spurious : Bool} (h : s.advance u spurious = some s') :
    Advanced s u spurious s' := by
  have hd : s.distance u = (s.pc u).distance s.top := rfl
  cases stepped_of_advance h with
  | reads hreads => exact .quiet rfl rfl rfl hreads.distance_lt
  | drawsPush hpc => exact .quiet rfl rfl rfl (by rw [hd, hpc]; simp [Pc.distance])
  | drawsPop hpc | writes hpc =>
    refine .quiet rfl rfl rfl ?_
    rw [hd, hpc]
    simp only [Pc.distance]
    split_ifs <;> omega
  | pushes hpc | pops hpc | popsNull hpc =>
    exact .effect rfl rfl (by rw [hd, hpc]; simp [Pc.distance])

omit [DecidableEq τ] in
/-- A thread that stays where it is, with no effect or with one. -/
theorem distance_of_stay (hpc : s'.pc t = s.pc t)
    (h : s'.top = s.top ∧ s'.history = s.history ∨ ∃ e, s'.history = s.history ++ [e]) :
    s'.distance t + 4 * s.history.length ≤ s.distance t + 4 * s'.history.length := by
  rcases h with ⟨htop, hhistory⟩ | ⟨e, hhistory⟩
  · rw [State.distance, State.distance, hpc, htop, hhistory]
  · have hle := Pc.distance_le_add s.top s'.top (s.pc t)
    rw [State.distance, State.distance, hpc, hhistory, List.length_append, List.length_singleton]
    omega

theorem distance_begin (t : τ) {pc : Pc} (hidle : s.pc u = .idle) (hpc : pc.distance s.top = 4) :
    (s.goto u pc).distance t = s.distance t := by
  by_cases htu : u = t
  · subst htu
    rw [State.distance, State.distance, State.goto_pc_self, hidle]
    exact hpc
  · rw [State.distance, State.distance, State.goto_pc_ne s fun heq => htu heq.symm]
    rfl

/-- **A step pays.** What thread `t` takes of it comes out of its distance and of the effects. -/
theorem distance_step (t : τ) (a : Action τ) (h : s.step a = some s') :
    s'.distance t + (a.stepOf t).toNat + 4 * s.history.length ≤
      s.distance t + 4 * s'.history.length + 4 * (a.spuriousOf t).toNat := by
  cases a with
  | step u spurious =>
    by_cases htu : u = t
    · subst htu
      simp only [Action.stepOf, Action.spuriousOf, decide_true, Bool.true_and, Bool.toNat_true]
      cases advanced h with
      | @quiet s₁ pc hpc htop hhistory hle =>
        have hd : (s₁.goto u pc).distance u = pc.distance s.top := by
          rw [State.distance, State.goto_pc_self, ← htop]
          rfl
        have hlength : (s₁.goto u pc).history = s.history := hhistory
        rw [hd, hlength]
        omega
      | @effect s₁ e hpc hhistory hle =>
        have hd : (s₁.goto u .idle).distance u = 4 := by
          rw [State.distance, State.goto_pc_self]
          rfl
        have hlength : (s₁.goto u .idle).history = s.history ++ [e] := hhistory
        rw [hd, hlength, List.length_append, List.length_singleton]
        omega
    · simp only [Action.stepOf, Action.spuriousOf, htu, decide_false, Bool.false_and,
        Bool.toNat_false]
      have htu' : t ≠ u := fun heq => htu heq.symm
      cases advanced h with
      | @quiet s₁ pc hpc htop hhistory hle =>
        exact distance_of_stay (by rw [State.goto_pc_ne s₁ htu', hpc]) (Or.inl ⟨htop, hhistory⟩)
      | @effect s₁ e hpc hhistory hle =>
        exact distance_of_stay (by rw [State.goto_pc_ne s₁ htu', hpc]) (Or.inr ⟨e, hhistory⟩)
  | new u node =>
    simp only [State.step] at h
    split_ifs at h
    cases h
    exact distance_of_stay rfl (Or.inl ⟨rfl, rfl⟩)
  | write u node next =>
    simp only [State.step] at h
    split_ifs at h
    cases h
    exact distance_of_stay rfl (Or.inl ⟨rfl, rfl⟩)
  | give u v node =>
    simp only [State.step] at h
    split_ifs at h
    cases h
    exact distance_of_stay rfl (Or.inl ⟨rfl, rfl⟩)
  | push u node =>
    simp only [State.step, State.mayUse, Bool.and_eq_true, decide_eq_true_eq] at h
    split_ifs at h with huse
    cases h
    rw [distance_begin t huse.1 rfl]
    exact le_rfl
  | pop u =>
    simp only [State.step] at h
    split_ifs at h with hidle
    cases h
    rw [distance_begin t hidle rfl]
    exact le_rfl

theorem history_grows (a : Action τ) (h : s.step a = some s') : s.history <+: s'.history := by
  cases a with
  | step u spurious =>
    cases advanced h with
    | @quiet s₁ pc hpc htop hhistory hle =>
      show s.history <+: s₁.history
      rw [hhistory]
    | @effect s₁ e hpc hhistory hle =>
      show s.history <+: s₁.history
      rw [hhistory]
      exact List.prefix_append _ _
  | _ =>
    simp only [State.step] at h
    split_ifs at h
    cases h
    exact List.prefix_rfl

/-- **The stack is lock-free.** In every stretch of every run, the steps that a thread takes are at
most seven, and four for each push or pop of any thread that takes effect in the meantime, and for
each compare-exchange of the thread that fails spuriously. -/
theorem push_pop_lock_free {as : List (Action τ)}
    (hrun : as.foldlM (lockfreeStack τ).step s = some s')
    (t : τ) : ∃ effects, s'.history = s.history ++ effects ∧
      as.countP (Action.stepOf t) ≤ 7 + 4 * (effects.length + as.countP (Action.spuriousOf t)) := by
  have hgrow : s.history <+: s'.history :=
    Machine.of_foldlM (J := fun s => s.history <+: s'.history)
      (fun s a s₁ hst h => (history_grows a hst).trans h) hrun List.prefix_rfl
  obtain ⟨effects, heffects⟩ := hgrow
  refine ⟨effects, heffects.symm, ?_⟩
  have hpay := Machine.total_le (I := fun _ => True) (J := fun _ => True)
    (c := fun _ a => 1 * (a.stepOf t).toNat) (d := fun _ a => 4 * (a.spuriousOf t).toNat)
    (Φ := fun s => (s.distance t : ℤ) - 4 * s.history.length) (fun _ _ _ _ _ => trivial)
    (fun s a s₁ _ _ hst => ⟨trivial, by have := distance_step t a hst; omega⟩) hrun trivial trivial
  rw [Machine.total_eq_countP (fun _ _ => rfl) hrun, Machine.total_eq_countP (fun _ _ => rfl) hrun,
    ← heffects, List.length_append] at hpay
  have hle := Pc.distance_le s.top (s.pc t)
  have hd : s.distance t = (s.pc t).distance s.top := rfl
  push_cast at hpay
  omega

/-- Thread `false` has loaded `_top` for its push when thread `true` pushes. -/
def overtaken : List (Action Bool) :=
  [.new true 1, .new false 2, .push false 2, .step false false, .step false false] ++
    .push true 1 :: List.replicate 4 (.step true false) ++ List.replicate 5 (.step false false)

/-- The seven steps of thread `false` in that run, and the two pushes that take effect. -/
theorem push_pop_lock_free_overtaken :
    ∃ s', overtaken.foldlM (lockfreeStack Bool).step (lockfreeStack Bool).init = some s' ∧
      s'.history = [.push true 1, .push false 2] ∧ ∃ effects : List (Event Bool),
        s'.history = effects ∧ overtaken.countP (Action.stepOf false) ≤
          7 + 4 * (effects.length + overtaken.countP (Action.spuriousOf false)) := by
  have hrun : overtaken.foldlM (lockfreeStack Bool).step (lockfreeStack Bool).init = some _ := rfl
  exact ⟨_, hrun, rfl, push_pop_lock_free hrun false⟩

end LockfreeStack

end Naesala
