import Mathlib.Data.Finset.Card
import Mathlib.Data.Finset.Dedup
import Mathlib.Tactic.Linarith
import Mathlib.Tactic.Ring

/-!
# Keeping what was used last

A list without repetitions, cut to length `k` whenever something comes in front of it, against a set
that anybody manages in any way. What is in the list and not in the set weighs what it has left
before it falls out of the list (`weight`).

* `weight_sdiff_le` — what the set drops adds at most `k` for each element dropped,
* `weight_touch_le` — something in the set that comes to the front adds nothing,
* `weight_touch_of_notMem` — and if it was not in the list, everything else loses one.

With a set of at most `h ≤ k` elements, something new in a full list therefore costs at least
`k - h + 1` of the weight. `potential` adds to it `k` for each element of the set, which pays for
dropping it, and `k - h + 1` for each place of the list that is still free: then a new element of
the list is worth `k - h + 1` and one of the set `k` (`potential_touch`).
-/

namespace Paging

variable {α : Type*} [DecidableEq α] {k h : ℕ} {r x : α} {l : List α} {C D : Finset α}

/-- Move to the front of the list, or put there and cut the list to length `k`. -/
def touch (k : ℕ) (r : α) (l : List α) : List α := r :: (l.erase r).take (k - 1)

/-- What the elements of the list outside the set have left in it, `k` for the first of the list and
one less for each after it. -/
def weight : ℕ → List α → Finset α → ℕ
  | _, [], _ => 0
  | k, x :: l, C => (if x ∈ C then 0 else k) + weight (k - 1) l C

/-- The elements of the list outside the set. -/
def outside (l : List α) (C : Finset α) : ℕ := l.countP (· ∉ C)

theorem outside_cons (x : α) (l : List α) (C : Finset α) :
    outside (x :: l) C = outside l C + if x ∈ C then 0 else 1 := by
  rw [outside, List.countP_cons]
  by_cases hx : x ∈ C <;> simp [hx, outside]

/-! ## The list -/

theorem length_touch_of_mem (hr : r ∈ l) (hlen : l.length ≤ k) :
    (touch k r l).length = l.length := by
  have hpos := List.length_pos_of_mem hr
  rw [touch, List.length_cons, List.length_take, List.length_erase_of_mem hr]
  omega

theorem length_touch_of_notMem (hr : r ∉ l) (hk : 0 < k) :
    (touch k r l).length = min k (l.length + 1) := by
  rw [touch, List.length_cons, List.length_take, List.erase_of_not_mem hr]
  omega

/-! ## The weight -/

theorem weight_mono_take (n : ℕ) (l : List α) (C : Finset α) :
    weight k (l.take n) C ≤ weight k l C := by
  induction l generalizing k n with
  | nil => rw [List.take_nil]
  | cons x l ih =>
    cases n with
    | zero => exact Nat.zero_le _
    | succ n => exact Nat.add_le_add_left (ih n) _

/-- With one place less, every element outside the set has one less left. -/
theorem weight_pred (hlen : l.length ≤ k) (C : Finset α) :
    weight (k - 1) l C + outside l C = weight k l C := by
  induction l generalizing k with
  | nil => rfl
  | cons x l ih =>
    rw [List.length_cons] at hlen
    have hrest := ih (k := k - 1) (by omega)
    rw [weight, weight, outside_cons]
    split_ifs <;> omega

theorem weight_pred_le (k : ℕ) (l : List α) (C : Finset α) :
    weight (k - 1) l C ≤ weight k l C := by
  induction l generalizing k with
  | nil => exact le_rfl
  | cons x l ih =>
    have hrest := ih (k - 1)
    rw [weight, weight]
    split_ifs <;> omega

/-- Taking an element of the set out of the list, whose place goes with it, adds nothing. -/
theorem weight_erase_le (hr : r ∈ C) (hl : r ∈ l) :
    weight (k - 1) (l.erase r) C ≤ weight k l C := by
  induction l generalizing k with
  | nil => exact absurd hl List.not_mem_nil
  | cons x l ih =>
    by_cases hx : x = r
    · subst hx
      rw [List.erase_cons_head, weight, if_pos hr, Nat.zero_add]
    · have hmem : r ∈ l := (List.mem_cons.1 hl).resolve_left fun hrx => hx hrx.symm
      have hrest := ih (k := k - 1) hmem
      rw [List.erase_cons_tail (by simpa using hx), weight, weight]
      split_ifs <;> omega

/-- **An element of the set that comes to the front** adds nothing to the weight. -/
theorem weight_touch_le (hr : r ∈ C) : weight k (touch k r l) C ≤ weight k l C := by
  have htake := weight_mono_take (k := k - 1) (k - 1) (l.erase r) C
  rw [touch, weight, if_pos hr, Nat.zero_add]
  by_cases hl : r ∈ l
  · exact htake.trans (weight_erase_le hr hl)
  · rw [List.erase_of_not_mem hl] at htake ⊢
    exact htake.trans (weight_pred_le k l C)

/-- If it was not in the list, it also takes one from every element outside the set. -/
theorem weight_touch_of_notMem (hr : r ∈ C) (hl : r ∉ l) (hlen : l.length ≤ k) :
    weight k (touch k r l) C + outside l C ≤ weight k l C := by
  have htake := weight_mono_take (k := k - 1) (k - 1) l C
  rw [touch, weight, if_pos hr, Nat.zero_add, List.erase_of_not_mem hl, ← weight_pred hlen C]
  exact Nat.add_le_add_right htake _

/-- **What the set drops** adds at most `k` each. -/
theorem weight_sdiff_le (hnodup : l.Nodup) (C D : Finset α) :
    weight k l D ≤ weight k l C + k * (C \ D).card := by
  have hcount : ∀ (k : ℕ) (l : List α),
      weight k l D ≤ weight k l C + k * l.countP (· ∈ C \ D) := by
    intro k l
    induction l generalizing k with
    | nil => exact Nat.zero_le _
    | cons x l ih =>
      have hrest := ih (k - 1)
      have hless : (k - 1) * l.countP (· ∈ C \ D) ≤ k * l.countP (· ∈ C \ D) :=
        Nat.mul_le_mul_right _ (Nat.sub_le k 1)
      rw [weight, weight, List.countP_cons, Nat.mul_add]
      by_cases hx' : x ∈ D
      · rw [if_pos hx']
        omega
      · by_cases hx : x ∈ C
        · have hout : decide (x ∈ C \ D) = true := decide_eq_true (Finset.mem_sdiff.2 ⟨hx, hx'⟩)
          rw [if_neg hx', if_pos hx, if_pos hout, Nat.mul_one]
          omega
        · rw [if_neg hx', if_neg hx]
          omega
  have hcard : l.countP (· ∈ C \ D) ≤ (C \ D).card := by
    rw [List.countP_eq_length_filter, ← List.toFinset_card_of_nodup (hnodup.filter _)]
    refine Finset.card_le_card fun x hx => ?_
    rw [List.mem_toFinset, List.mem_filter] at hx
    exact of_decide_eq_true hx.2
  exact (hcount k l).trans (Nat.add_le_add_left (Nat.mul_le_mul_left k hcard) _)

/-- Where the set has something that is not in the list, the list has the more outside the set. -/
theorem length_le_outside (hnodup : l.Nodup) (hr : r ∈ C) (hl : r ∉ l) (hcard : C.card ≤ h) :
    l.length + 1 ≤ outside l C + h := by
  have hinside : l.countP (· ∈ C) ≤ (C.erase r).card := by
    rw [List.countP_eq_length_filter, ← List.toFinset_card_of_nodup (hnodup.filter _)]
    refine Finset.card_le_card fun x hx => ?_
    rw [List.mem_toFinset, List.mem_filter] at hx
    exact Finset.mem_erase.2 ⟨fun hxr => hl (hxr ▸ hx.1), of_decide_eq_true hx.2⟩
  have hsplit : l.length = l.countP (· ∈ C) + outside l C := by
    rw [outside, List.length_eq_countP_add_countP (· ∈ C)]
    simp
  have hpos : 0 < C.card := Finset.card_pos.2 ⟨r, hr⟩
  rw [Finset.card_erase_of_mem hr] at hinside
  omega

/-! ## The potential -/

/-- The weight, with what pays for the set dropping its elements and for the list filling up. -/
def potential (k h : ℕ) (l : List α) (C : Finset α) : ℕ :=
  weight k l C + k * C.card + (k - h + 1) * (k - l.length)

/-- **The set changes.** Each element that comes into it costs `k`. -/
theorem potential_change (hnodup : l.Nodup) (C D : Finset α) :
    potential k h l D ≤ potential k h l C + k * (D \ C).card := by
  have hdrop := weight_sdiff_le (k := k) hnodup C D
  have hcards : D.card + (C \ D).card = C.card + (D \ C).card := by
    have hleft := Finset.card_sdiff_add_card_inter C D
    have hright := Finset.card_sdiff_add_card_inter D C
    rw [Finset.inter_comm] at hright
    omega
  have hpaid : k * D.card + k * (C \ D).card = k * C.card + k * (D \ C).card := by
    rw [← Nat.mul_add, hcards, Nat.mul_add]
  unfold potential
  omega

/-- **The list changes.** An element of the set comes to its front, which the potential pays with
`k - h + 1` if the element was not in the list. -/
theorem potential_touch (hnodup : l.Nodup) (hlen : l.length ≤ k) (hh : 1 ≤ h) (hhk : h ≤ k)
    (hr : r ∈ C) (hcard : C.card ≤ h) :
    potential k h (touch k r l) C + (k - h + 1) * (if r ∈ l then 0 else 1) ≤
      potential k h l C := by
  unfold potential
  by_cases hl : r ∈ l
  · have hweight := weight_touch_le (k := k) (l := l) hr
    rw [if_pos hl, length_touch_of_mem hl hlen]
    omega
  · rw [if_neg hl, length_touch_of_notMem hl (by omega), Nat.mul_one]
    by_cases hroom : l.length < k
    · have hweight := weight_touch_le (k := k) (l := l) hr
      have hplace : (k - h + 1) * (k - l.length) =
          (k - h + 1) * (k - min k (l.length + 1)) + (k - h + 1) := by
        rw [min_eq_right hroom, ← Nat.mul_succ]
        congr 1
        omega
      omega
    · have hweight := weight_touch_of_notMem hr hl hlen
      have houtside := length_le_outside hnodup hr hl hcard
      have hfull : k - min k (l.length + 1) = k - l.length := by omega
      rw [hfull]
      omega

end Paging
