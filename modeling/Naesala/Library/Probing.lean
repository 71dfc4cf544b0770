import Mathlib.Algebra.Order.BigOperators.Group.Finset
import Naesala.Library.Cyclic

/-!
# Probing a cycle of slots with a step

On a cycle of `p` slots a step that is prime to `p` meets every slot once in a turn. `turn` is a
loop that goes along such a cycle, carries something with it, and gives up when it is back at
`last`.

* `exists_probe`, `probe_injective` — a turn meets every slot, and meets it once,
* `turn_stops` — the loop ends at the first slot at which it may stop, if there is one,
* `turn_gives_up` — and otherwise after one turn.
-/

namespace Cyclic

variable {p step start i e : ℕ}

/-! ## The slots of a turn -/

theorem iterate_add_mod (hi : i < p) (step j : ℕ) :
    (fun i => (i + step) % p)^[j] i = (i + j * step) % p := by
  induction j with
  | zero => rw [Nat.zero_mul, Nat.add_zero, Nat.mod_eq_of_lt hi, Function.iterate_zero_apply]
  | succ j ih =>
    rw [Function.iterate_succ_apply', ih, Nat.mod_add_mod, Nat.succ_mul, Nat.add_assoc]

theorem probe_injective (hstep : Nat.Coprime step p) {d d' : ℕ} (hd : d < p) (hd' : d' < p)
    (h : (start + d * step) % p = (start + d' * step) % p) : d = d' := by
  have hmul : d * step ≡ d' * step [MOD p] := Nat.ModEq.add_left_cancel' start h
  exact (Nat.ModEq.cancel_right_of_coprime hstep.symm hmul).eq_of_lt_of_lt hd hd'

theorem exists_probe (hstep : Nat.Coprime step p) (start : ℕ) (he : e < p) :
    ∃ d < p, (start + d * step) % p = e := by
  have hsurj : Set.SurjOn (fun d => (start + d * step) % p) (Finset.range p) (Finset.range p) := by
    refine Finset.surjOn_of_injOn_of_card_le _ ?_ ?_ le_rfl
    · intro d hd
      exact Finset.mem_coe.2 (Finset.mem_range.2 (Nat.mod_lt _ (by omega)))
    · intro d hd d' hd' heq
      exact probe_injective hstep (Finset.mem_range.1 hd) (Finset.mem_range.1 hd') heq
  obtain ⟨d, hd, heq⟩ := hsurj (Finset.mem_coe.2 (Finset.mem_range.2 he))
  exact ⟨d, Finset.mem_range.1 hd, heq⟩

end Cyclic

/-! ## A loop that gives up after a turn -/

/-- The loop `while (cont i) { acc = f acc i; i = next i; if (i == last) give up; }`, given up after
`fuel` tests in any case: where it ends, what it carries, and whether it is back at `last`. -/
def turn {ι : Type*} (cont : ℕ → Bool) (next : ℕ → ℕ) (f : ι → ℕ → ι) (last : ℕ) :
    ℕ → ℕ → ι → Option (ℕ × ι × Bool)
  | 0, _, _ => none
  | fuel + 1, i, acc =>
    if cont i then
      if next i = last then some (next i, f acc i, true)
      else turn cont next f last fuel (next i) (f acc i)
    else some (i, acc, false)

namespace Cyclic

variable {ι : Type*} {cont : ℕ → Bool} {next : ℕ → ℕ} {f : ι → ℕ → ι} {last fuel d i : ℕ} {acc : ι}

/-- What the loop carries after `d` slots. -/
def carried (next : ℕ → ℕ) (f : ι → ℕ → ι) : ℕ → ι → ℕ → ι
  | _, acc, 0 => acc
  | i, acc, d + 1 => carried next f (next i) (f acc i) d

/-- What each slot keeps, the loop keeps. -/
theorem carried_invariant {P : ι → Prop} (hacc : P acc)
    (hstep : ∀ acc, ∀ j < d, P acc → P (f acc (next^[j] i))) : P (carried next f i acc d) := by
  induction d generalizing i acc with
  | zero => exact hacc
  | succ d ih =>
    refine ih (hstep acc 0 (Nat.succ_pos d) hacc) fun acc j hj => ?_
    exact hstep acc (j + 1) (Nat.succ_lt_succ hj)

/-- **The loop stops** at the first slot at which it may. -/
theorem turn_stops (hd : d < fuel) (hstop : cont (next^[d] i) = false)
    (hcont : ∀ j < d, cont (next^[j] i) = true) (hlast : ∀ j < d, next^[j + 1] i ≠ last) :
    turn cont next f last fuel i acc = some (next^[d] i, carried next f i acc d, false) := by
  induction d generalizing i acc fuel with
  | zero =>
    obtain ⟨fuel, rfl⟩ : ∃ k, fuel = k + 1 := ⟨fuel - 1, by omega⟩
    have hi : ¬ cont i = true := by simpa using hstop
    rw [turn, if_neg hi]
    rfl
  | succ d ih =>
    obtain ⟨fuel, rfl⟩ : ∃ k, fuel = k + 1 := ⟨fuel - 1, by omega⟩
    have hi : cont i = true := hcont 0 (Nat.succ_pos d)
    have hne : next i ≠ last := hlast 0 (Nat.succ_pos d)
    rw [turn, if_pos hi, if_neg hne]
    exact ih (by omega) hstop (fun j hj => hcont (j + 1) (by omega))
      fun j hj => hlast (j + 1) (by omega)

/-- **The loop gives up** if it never may stop before it is back. -/
theorem turn_gives_up (hd : d < fuel) (hcont : ∀ j ≤ d, cont (next^[j] i) = true)
    (hlast : ∀ j < d, next^[j + 1] i ≠ last) (hback : next^[d + 1] i = last) :
    turn cont next f last fuel i acc = some (last, carried next f i acc (d + 1), true) := by
  induction d generalizing i acc fuel with
  | zero =>
    obtain ⟨fuel, rfl⟩ : ∃ k, fuel = k + 1 := ⟨fuel - 1, by omega⟩
    have hi : cont i = true := hcont 0 le_rfl
    have hnext : next i = last := hback
    rw [turn, if_pos hi, if_pos hnext, hnext]
    rfl
  | succ d ih =>
    obtain ⟨fuel, rfl⟩ : ∃ k, fuel = k + 1 := ⟨fuel - 1, by omega⟩
    have hi : cont i = true := hcont 0 (Nat.zero_le _)
    have hne : next i ≠ last := hlast 0 (Nat.succ_pos d)
    rw [turn, if_pos hi, if_neg hne]
    exact ih (by omega) (fun j hj => hcont (j + 1) (by omega))
      (fun j hj => hlast (j + 1) (by omega)) hback

end Cyclic
