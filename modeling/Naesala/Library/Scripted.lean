import Mathlib.Algebra.BigOperators.Group.List.Basic
import Naesala.Library.Population
import Naesala.Library.Potential

/-!
# Threads that make the calls of their scripts

A machine leaves it open which calls its threads make. `Machine.scripted` is the machine under
threads each of which has a script, the list of the calls it makes, and then ends. Its actions are a
thread that begins its next call, and the actions of the machine that belong to calls, as far as
they are `allowed`.

`Scripted.left` adds up what is left of the scripts, where each call counts as much as `g` says. It
falls only when a call begins, by what that call counts. So if the calls raise a potential by at
most `k`, and all other steps lower it, then no run is longer than the potential at the start and `k
+ 1` steps for each call (`Scripted.length_le`); and a run that cannot go on is at its end for a
reason that can be read off its last state (`Machine.Halted`).
-/

namespace Machine

variable {σ α τ κ : Type*}

/-- No action is enabled. -/
def Halted (M : Machine σ α) (s : σ) : Prop := ∀ a, M.step s a = none

/-- A state, and what is left of the script of each thread. -/
structure Scripted (σ τ κ : Type*) where
  state : σ
  script : τ → List κ

inductive ScriptedAction (α τ : Type*) where
  /-- Thread `t` begins its next call. -/
  | call (t : τ)
  | other (a : α)

variable [DecidableEq τ] {M : Machine σ α} {invoke : τ → κ → α} {allowed : α → Bool}
  {script : τ → List κ} {s s' : Scripted σ τ κ}

/-- The machine `M` whose threads make the calls of `script`, where `invoke t c` is the action with
which thread `t` begins the call `c`. -/
def scripted (M : Machine σ α) (invoke : τ → κ → α) (allowed : α → Bool) (script : τ → List κ) :
    Machine (Scripted σ τ κ) (ScriptedAction α τ) where
  init := ⟨M.init, script⟩
  step s
    | .call t =>
      match s.script t with
      | [] => none
      | c :: rest =>
        (M.step s.state (invoke t c)).map fun u => ⟨u, Function.update s.script t rest⟩
    | .other a =>
      if allowed a then (M.step s.state a).map fun u => { s with state := u } else none

namespace Scripted

/-- What a step can be: the next call of a thread, or something else. -/
theorem step_cases {a : ScriptedAction α τ}
    (h : (M.scripted invoke allowed script).step s a = some s') :
    (∃ t c rest, s.script t = c :: rest ∧ M.step s.state (invoke t c) = some s'.state ∧
        s'.script = Function.update s.script t rest) ∨
      ∃ b, allowed b = true ∧ M.step s.state b = some s'.state ∧ s'.script = s.script := by
  cases a with
  | call t =>
    simp only [scripted] at h
    split at h
    case h_1 => cases h
    case h_2 c rest hscript =>
      obtain ⟨u, hu, rfl⟩ := Option.map_eq_some_iff.1 h
      exact Or.inl ⟨t, c, rest, hscript, hu, rfl⟩
  | other b =>
    simp only [scripted, Option.ite_none_right_eq_some] at h
    obtain ⟨hallowed, h⟩ := h
    obtain ⟨u, hu, rfl⟩ := Option.map_eq_some_iff.1 h
    exact Or.inr ⟨b, hallowed, hu, rfl⟩

/-- A thread that has a call left cannot begin it. -/
theorem call_of_halted (h : (M.scripted invoke allowed script).Halted s) {t : τ} {c : κ}
    {rest : List κ} (hscript : s.script t = c :: rest) : M.step s.state (invoke t c) = none := by
  have hstep := h (.call t)
  simp only [scripted, hscript, Option.map_eq_none_iff] at hstep
  exact hstep

theorem other_of_halted (h : (M.scripted invoke allowed script).Halted s) {a : α}
    (ha : allowed a = true) : M.step s.state a = none := by
  have hstep := h (.other a)
  simp only [scripted, ha, if_true, Option.map_eq_none_iff] at hstep
  exact hstep

section Invariant

variable {I : Scripted σ τ κ → Prop}

/-- The invariant rule, for runs given by their actions. -/
theorem invariant (h₀ : I ⟨M.init, script⟩)
    (hcall : ∀ s t c rest u, I s → s.script t = c :: rest → M.step s.state (invoke t c) = some u →
      I ⟨u, Function.update s.script t rest⟩)
    (hother : ∀ s a u, I s → allowed a = true → M.step s.state a = some u →
      I { s with state := u })
    {as : List (ScriptedAction α τ)}
    (hrun : as.foldlM (M.scripted invoke allowed script).step ⟨M.init, script⟩ = some s) : I s := by
  have hkeep : ∀ s a s', I s → (M.scripted invoke allowed script).step s a = some s' → I s' := by
    rintro s a ⟨u, script'⟩ hI hst
    obtain ⟨t, c, rest, hscript, hu, rfl⟩ | ⟨b, hb, hu, rfl⟩ := step_cases hst
    · exact hcall s t c rest u hI hscript hu
    · exact hother s b u hI hb hu
  have hall : ∀ (as : List (ScriptedAction α τ)) (s₀ s : Scripted σ τ κ), I s₀ →
      as.foldlM (M.scripted invoke allowed script).step s₀ = some s → I s := by
    intro as
    induction as with
    | nil =>
      intro s₀ s hI hrun
      cases hrun
      exact hI
    | cons a as ih =>
      intro s₀ s hI hrun
      obtain ⟨u, hu, hrest⟩ := foldlM_cons hrun
      exact ih u s (hkeep s₀ a u hI hu) hrest
  exact hall as _ s h₀ hrun

end Invariant

variable [Fintype τ] (g : κ → ℕ)

/-- What is left of the scripts, where a call `c` counts `g c`. -/
def left (script : τ → List κ) : ℕ := ∑ t, ((script t).map g).sum

theorem left_update {t : τ} {c : κ} {rest : List κ} (h : script t = c :: rest) :
    left g (Function.update script t rest) + g c = left g script := by
  have hsum := sum_update_add (f := script) (fun l : List κ => (l.map g).sum) (Finset.mem_univ t)
    rest
  rw [h, List.map_cons, List.sum_cons] at hsum
  rw [left, left]
  omega

omit [DecidableEq τ] in
theorem left_eq_zero (h : ∀ t, script t = []) : left g script = 0 := by
  rw [left]
  exact Finset.sum_eq_zero fun t _ => by rw [h t]; rfl

variable {g}

omit [DecidableEq τ] in
/-- As long as something is left that counts, some thread has a call left that does. -/
theorem exists_of_left_pos (h : 0 < left g script) : ∃ t, ∃ c ∈ script t, 0 < g c := by
  obtain ⟨t, -, ht⟩ := Finset.exists_ne_zero_of_sum_ne_zero h.ne'
  obtain ⟨n, hn, hne⟩ := List.exists_mem_ne_zero_of_sum_ne_zero ht
  obtain ⟨c, hc, rfl⟩ := List.mem_map.1 hn
  exact ⟨t, c, hc, Nat.pos_of_ne_zero hne⟩

/-- **Every run ends**, if calls raise a potential by at most `k` and all else lowers it. -/
theorem length_le {J : σ → Prop} {Φ : σ → ℕ} {k : ℕ} {as : List (ScriptedAction α τ)}
    (hcall : ∀ s t c s', J s → M.step s (invoke t c) = some s' → J s' ∧ Φ s' ≤ Φ s + k)
    (hother : ∀ s a s', J s → allowed a = true → M.step s a = some s' → J s' ∧ Φ s' < Φ s)
    (hrun : as.foldlM (M.scripted invoke allowed script).step ⟨M.init, script⟩ = some s)
    (h₀ : J M.init) :
    as.length ≤ Φ M.init + (k + 1) * left (fun _ => 1) script := by
  have hlength := Machine.length_le (M := M.scripted invoke allowed script)
    (I := fun s => J s.state) (Φ := fun s => Φ s.state + (k + 1) * left (fun _ => 1) s.script) ?_
    hrun h₀
  · exact (Nat.le_add_left _ _).trans hlength
  · rintro s a ⟨u, script'⟩ hJ hst
    obtain ⟨t, c, rest, hscript, hu, rfl⟩ | ⟨b, hb, hu, rfl⟩ := step_cases hst
    · obtain ⟨hJ', hle⟩ := hcall s.state t c u hJ hu
      have hleft := left_update (fun _ => 1) hscript
      refine ⟨hJ', ?_⟩
      show Φ u + (k + 1) * left (fun _ => 1) (Function.update s.script t rest) < _
      rw [← hleft, Nat.mul_add, Nat.mul_one]
      omega
    · obtain ⟨hJ', hlt⟩ := hother s.state b u hJ hb hu
      exact ⟨hJ', Nat.add_lt_add_right hlt _⟩

end Scripted

end Machine
