import Mathlib.Algebra.Order.BigOperators.Group.Finset
import Mathlib.Data.Fintype.BigOperators

/-!
# Counting threads by what they are doing

`population p f` is the number of threads `t` whose `f t` meets `p`. When one thread moves, a
count changes by what that thread counted for before and after (`population_update`), which is
what a step of a machine needs.
-/

/-- The number of threads `t` with `p (f t)`. -/
def population {τ α : Type*} [Fintype τ] (p : α → Bool) (f : τ → α) : ℕ :=
  ∑ t, (p (f t)).toNat

section

variable {τ α : Type*} [Fintype τ] {p : α → Bool} {f : τ → α}

theorem population_eq_zero : population p f = 0 ↔ ∀ t, p (f t) = false := by
  simp [population, Finset.sum_eq_zero_iff]

/-- Nobody does `p` where all do `a`. -/
theorem population_const {a : α} (ha : p a = false) : population p (fun _ : τ => a) = 0 :=
  population_eq_zero.2 fun _ => ha

theorem population_pos : 0 < population p f ↔ ∃ t, p (f t) = true := by
  rw [Nat.pos_iff_ne_zero, ne_eq, population_eq_zero]
  simp

theorem toNat_le_population (t : τ) : (p (f t)).toNat ≤ population p f :=
  Finset.single_le_sum (f := fun u => (p (f u)).toNat) (fun _ _ => Nat.zero_le _)
    (Finset.mem_univ t)

omit [Fintype τ] in
theorem sum_update_add [DecidableEq τ] (g : α → ℕ) {s : Finset τ} {t : τ} (ht : t ∈ s) (a : α) :
    ∑ u ∈ s, g (Function.update f t a u) + g (f t) = ∑ u ∈ s, g (f u) + g a := by
  have hafter : ∑ u ∈ s, g (Function.update f t a u) = g a + ∑ u ∈ s \ {t}, g (f u) := by
    rw [← Finset.sum_update_of_mem ht]
    refine Finset.sum_congr rfl ?_
    intro u _
    exact Function.apply_update (fun _ => g) f t a u
  have hbefore := Finset.sum_eq_add_sum_sdiff_singleton_of_mem ht fun u => g (f u)
  rw [hafter, hbefore]
  omega

/-- **How a count changes when thread `t` moves to `a`.** -/
theorem population_update [DecidableEq τ] (t : τ) (a : α) :
    population p (Function.update f t a) + (p (f t)).toNat = population p f + (p a).toNat :=
  sum_update_add (fun b => (p b).toNat) (Finset.mem_univ t) a

end
