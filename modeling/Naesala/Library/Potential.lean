import Mathlib.Algebra.Group.Int.Defs
import Mathlib.Data.List.Count
import Mathlib.Tactic.Linarith
import Naesala.Library.Machine

/-!
# The potential method

`Machine.total c s as` is what the actions `as` cost, performed in order from the state `s`, where
`c` says what one action costs in a state. A potential is a number that a state has; if each step
pays for what it costs out of the potential and a credit, then so does every run
(`Machine.total_le`). A potential that is bounded from below makes the cost of a run a matter of its
credits.

Where no step has a credit, the potential bounds the length of every run (`Machine.length_le`).
-/

namespace Machine

variable {σ α : Type*} {M : Machine σ α} {c d : σ → α → ℕ} {s t : σ} {a : α} {as : List α}

/-- What the actions of a run from `s` cost. -/
def total (M : Machine σ α) (c : σ → α → ℕ) : σ → List α → ℕ
  | _, [] => 0
  | s, a :: as => c s a + ((M.step s a).map fun t => M.total c t as).getD 0

theorem total_cons (h : M.step s a = some t) :
    M.total c s (a :: as) = c s a + M.total c t as := by
  rw [total, h]
  rfl

theorem foldlM_cons (h : (a :: as).foldlM M.step s = some t) :
    ∃ u, M.step s a = some u ∧ as.foldlM M.step u = some t := by
  rw [List.foldlM_cons] at h
  exact Option.bind_eq_some_iff.1 h

/-- Where some actions cost the same in every state and the others nothing, they are counted. -/
theorem total_eq_countP {p : α → Bool} {k : ℕ} (hc : ∀ s a, c s a = k * (p a).toNat)
    (hrun : as.foldlM M.step s = some t) : M.total c s as = k * as.countP p := by
  induction as generalizing s with
  | nil => rfl
  | cons a as ih =>
    obtain ⟨u, hu, hrest⟩ := foldlM_cons hrun
    rw [total_cons hu, ih hrest, hc, List.countP_cons, ← Nat.mul_add, Nat.add_comm]
    cases p a <;> rfl

theorem total_mul (k : ℕ) (as : List α) :
    M.total (fun s a => k * c s a) s as = k * M.total c s as := by
  induction as generalizing s with
  | nil => rfl
  | cons a as ih =>
    rw [total, total, Nat.mul_add]
    cases M.step s a with
    | none => rfl
    | some t => exact congrArg (k * c s a + ·) ih

theorem total_add (as : List α) :
    M.total (fun s a => c s a + d s a) s as = M.total c s as + M.total d s as := by
  induction as generalizing s with
  | nil => rfl
  | cons a as ih =>
    rw [total, total, total]
    cases M.step s a with
    | none => rfl
    | some t =>
      have hrest : M.total (fun s a => c s a + d s a) t as = M.total c t as + M.total d t as := ih
      simp only [Option.map_some, Option.getD_some, hrest]
      omega

/-- What a step can only lose, a run can only lose. -/
theorem of_foldlM {J : σ → Prop} (hback : ∀ s a t, M.step s a = some t → J t → J s)
    (hrun : as.foldlM M.step s = some t) (ht : J t) : J s := by
  induction as generalizing s with
  | nil =>
    cases hrun
    exact ht
  | cons a as ih =>
    obtain ⟨u, hu, hrest⟩ := foldlM_cons hrun
    exact hback s a u hu (ih hrest)

/-- **The potential method.** Each step from a state with the invariant `I` pays for its cost out of
the potential and its credit, as long as it leads to a state with `J`. -/
theorem total_le {I J : σ → Prop} {Φ : σ → ℤ} (hback : ∀ s a t, M.step s a = some t → J t → J s)
    (hstep : ∀ s a t, I s → J t → M.step s a = some t → I t ∧ Φ t + c s a ≤ Φ s + d s a)
    (hrun : as.foldlM M.step s = some t) (hs : I s) (ht : J t) :
    Φ t + M.total c s as ≤ Φ s + M.total d s as := by
  induction as generalizing s with
  | nil =>
    cases hrun
    exact le_rfl
  | cons a as ih =>
    obtain ⟨u, hu, hrest⟩ := foldlM_cons hrun
    obtain ⟨hI, hpay⟩ := hstep s a u hs (of_foldlM hback hrest ht) hu
    have hrun' := ih hrest hI
    rw [total_cons hu, total_cons hu]
    push_cast
    linarith

/-- A potential that every step lowers bounds the length of every run. -/
theorem length_le {I : σ → Prop} {Φ : σ → ℕ}
    (hstep : ∀ s a t, I s → M.step s a = some t → I t ∧ Φ t < Φ s)
    (hrun : as.foldlM M.step s = some t) (hs : I s) : Φ t + as.length ≤ Φ s := by
  induction as generalizing s with
  | nil =>
    cases hrun
    exact le_rfl
  | cons a as ih =>
    obtain ⟨u, hu, hrest⟩ := foldlM_cons hrun
    obtain ⟨hI, hlt⟩ := hstep s a u hs hu
    have hrun' := ih hrest hI
    rw [List.length_cons]
    omega

end Machine
