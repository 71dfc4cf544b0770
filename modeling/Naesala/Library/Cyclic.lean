import Mathlib.Logic.Function.Iterate
import Mathlib.Data.Nat.ModEq
import Mathlib.Order.Nat
import Mathlib.Data.Nat.Find

/-!
# Searching a cycle of slots

`scan` is the loop `while (cont i) i = next i`, cut off after a number of tests. On a cycle of
`p` slots, stepped by `i ↦ (i + 1) % p`, `p` tests see every slot once, so the cut-off search
finds a slot if any slot ends the search, and otherwise the loop would never end.
-/

/-- The loop `while (cont i) i = next i`, given up after `fuel` tests. -/
def scan (cont : ℕ → Bool) (next : ℕ → ℕ) : ℕ → ℕ → Option ℕ
  | 0, _ => none
  | fuel + 1, i => if cont i then scan cont next fuel (next i) else some i

namespace Cyclic

variable {cont : ℕ → Bool} {next : ℕ → ℕ} {fuel p i e r : ℕ}

/-- The search returns the first slot on the path at which it may stop. -/
theorem scan_eq_some_iff :
    scan cont next fuel i = some r ↔
      ∃ d < fuel, next^[d] i = r ∧ cont r = false ∧ ∀ j < d, cont (next^[j] i) = true := by
  induction fuel generalizing i with
  | zero => simp [scan]
  | succ fuel ih =>
    cases hc : cont i with
    | true =>
      rw [scan, if_pos hc, ih]
      constructor
      · intro hp
        obtain ⟨d, hd, hr, hstop, hbefore⟩ := hp
        refine ⟨d + 1, by omega, hr, hstop, fun j hj => ?_⟩
        cases j with
        | zero => exact hc
        | succ j => exact hbefore j (by omega)
      · intro hp
        obtain ⟨d, hd, hr, hstop, hbefore⟩ := hp
        cases d with
        | zero =>
          rw [← hr, Function.iterate_zero_apply, hc] at hstop
          exact absurd hstop (by simp)
        | succ d => exact ⟨d, by omega, hr, hstop, fun j hj => hbefore (j + 1) (by omega)⟩
    | false =>
      rw [scan, if_neg (by simp [hc])]
      constructor
      · intro hp
        cases hp
        exact ⟨0, by omega, rfl, hc, fun j hj => absurd hj (by omega)⟩
      · intro hp
        obtain ⟨d, hd, hr, hstop, hbefore⟩ := hp
        cases d with
        | zero => rw [← hr, Function.iterate_zero_apply]
        | succ d =>
          have h0 := hbefore 0 (by omega)
          rw [Function.iterate_zero_apply, hc] at h0
          exact absurd h0 (by simp)

theorem exists_scan {d : ℕ} (hd : d < fuel) (hstop : cont (next^[d] i) = false) :
    ∃ r, scan cont next fuel i = some r := by
  have hex : ∃ d, d < fuel ∧ cont (next^[d] i) = false := ⟨d, hd, hstop⟩
  classical
  obtain ⟨hlt, hend⟩ := Nat.find_spec hex
  refine ⟨_, scan_eq_some_iff.2 ⟨Nat.find hex, hlt, rfl, hend, fun j hj => ?_⟩⟩
  have hmin := Nat.find_min hex hj
  cases hc : cont (next^[j] i) with
  | true => rfl
  | false => exact absurd ⟨by omega, hc⟩ hmin

theorem iterate_succ_mod (hi : i < p) (j : ℕ) :
    (fun i => (i + 1) % p)^[j] i = (i + j) % p := by
  induction j with
  | zero => exact (Nat.mod_eq_of_lt hi).symm
  | succ j ih => rw [Function.iterate_succ_apply', ih, Nat.mod_add_mod, Nat.add_assoc]

/-- Every slot of the cycle is met within one turn. -/
theorem exists_offset (hi : i < p) (he : e < p) : ∃ d < p, (i + d) % p = e := by
  rcases Nat.le_total i e with h | h
  · exact ⟨e - i, by omega, by rw [Nat.add_sub_cancel' h, Nat.mod_eq_of_lt he]⟩
  · rcases Nat.eq_or_lt_of_le h with rfl | h
    · exact ⟨0, by omega, Nat.mod_eq_of_lt hi⟩
    · refine ⟨p - i + e, by omega, ?_⟩
      rw [show i + (p - i + e) = e + p by omega, Nat.add_mod_right, Nat.mod_eq_of_lt he]

theorem offset_injective {d d' : ℕ} (hd : d < p) (hd' : d' < p)
    (h : (i + d) % p = (i + d') % p) : d = d' :=
  Nat.ModEq.eq_of_lt_of_lt (Nat.ModEq.add_left_cancel' i h) hd hd'

end Cyclic
