import Mathlib.Data.Finset.Card
import Mathlib.Data.Finset.Dedup

/-!
# Recency order

A list of touches, the last first, orders what has been touched by its last touch: `recency`
moves each to the front in turn. What stands among the first `n` there is what has been touched
at all, with fewer than `n` others since (`mem_take_recency_iff`); and a list that is cut to
length `n` after every touch is these first `n` (`take_recency_cons`).
-/

namespace Recency

variable {α : Type*} [DecidableEq α] {a b : α} {l ts : List α} {n : ℕ}

/-- What has been touched, the last touched first. -/
def recency : List α → List α
  | [] => []
  | a :: ts => a :: (recency ts).erase a

theorem mem_recency : a ∈ recency ts ↔ a ∈ ts := by
  induction ts with
  | nil => rfl
  | cons b ts ih =>
    rw [recency, List.mem_cons, List.mem_cons]
    by_cases hab : a = b
    · simp [hab]
    · rw [List.mem_erase_of_ne hab, ih]

theorem nodup_recency (ts : List α) : (recency ts).Nodup := by
  induction ts with
  | nil => exact List.nodup_nil
  | cons b ts ih =>
    rw [recency, List.nodup_cons]
    exact ⟨ih.not_mem_erase, ih.erase b⟩

/-! ## The first `n` -/

theorem mem_take_iff : a ∈ l.take n ↔ a ∈ l ∧ (l.takeWhile (· ≠ a)).length < n := by
  induction l generalizing n with
  | nil => simp
  | cons b l ih =>
    cases n with
    | zero => simp
    | succ n =>
      by_cases hab : a = b
      · subst hab
        simp
      · have hba : b ≠ a := fun h => hab h.symm
        simp [hab, hba, ih]

theorem takeWhile_erase {p : α → Bool} (hp : p b = true) (l : List α) :
    (l.erase b).takeWhile p = (l.takeWhile p).erase b := by
  induction l with
  | nil => rfl
  | cons c l ih =>
    by_cases hcb : c = b
    · subst hcb
      rw [List.erase_cons_head, List.takeWhile_cons_of_pos hp, List.erase_cons_head]
    · have hne : (c == b) = false := by simpa using hcb
      rw [List.erase_cons_tail (by simp [hne])]
      cases hpc : p c with
      | true =>
        rw [List.takeWhile_cons_of_pos hpc, List.takeWhile_cons_of_pos hpc, ih,
          List.erase_cons_tail (by simp [hne])]
      | false =>
        rw [List.takeWhile_cons_of_neg (by simp [hpc]), List.takeWhile_cons_of_neg (by simp [hpc])]
        rfl

/-- What is before `a` in the recency order is what has been touched since. -/
theorem takeWhile_recency (ts : List α) (a : α) :
    (recency ts).takeWhile (· ≠ a) = recency (ts.takeWhile (· ≠ a)) := by
  induction ts with
  | nil => rfl
  | cons b ts ih =>
    by_cases hba : b = a
    · subst hba
      simp [recency]
    · have hcons : ∀ l : List α, (b :: l).takeWhile (· ≠ a) = b :: l.takeWhile (· ≠ a) :=
        fun l => List.takeWhile_cons_of_pos (by simpa using hba)
      have herase := takeWhile_erase (p := (· ≠ a)) (b := b) (by simpa using hba) (recency ts)
      rw [recency, hcons, hcons, recency, herase, ih]

theorem length_recency (ts : List α) : (recency ts).length = ts.toFinset.card := by
  have hset : (recency ts).toFinset = ts.toFinset := by
    ext a
    simp [mem_recency]
  rw [← List.toFinset_card_of_nodup (nodup_recency ts), hset]

/-- **Among the first `n`** is what has been touched, with fewer than `n` others since. -/
theorem mem_take_recency_iff :
    a ∈ (recency ts).take n ↔ a ∈ ts ∧ (ts.takeWhile (· ≠ a)).toFinset.card < n := by
  rw [mem_take_iff, mem_recency, takeWhile_recency, length_recency]

/-! ## Cutting after every touch -/

theorem take_erase_of_mem (h : a ∈ l.take (n + 1)) :
    (l.erase a).take n = (l.take (n + 1)).erase a := by
  induction l generalizing n with
  | nil => simp at h
  | cons b l ih =>
    by_cases hba : b = a
    · subst hba
      simp
    · have hne : (b == a) = false := by simpa using hba
      rw [List.erase_cons_tail (by simp [hne]), List.take_succ_cons,
        List.erase_cons_tail (by simp [hne])]
      rw [List.take_succ_cons, List.mem_cons] at h
      have hmem : a ∈ l.take n := h.resolve_left fun hab => hba hab.symm
      cases n with
      | zero => simp at hmem
      | succ n => rw [List.take_succ_cons, ih hmem]

theorem take_erase_of_notMem (h : a ∉ l.take n) : (l.erase a).take n = l.take n := by
  induction l generalizing n with
  | nil => rfl
  | cons b l ih =>
    cases n with
    | zero => simp
    | succ n =>
      rw [List.take_succ_cons, List.mem_cons, not_or] at h
      have hne : (b == a) = false := by simpa using fun hba : b = a => h.1 hba.symm
      rw [List.erase_cons_tail (by simp [hne]), List.take_succ_cons, List.take_succ_cons, ih h.2]

/-- A touch of what is among the first `n` moves it to the front. -/
theorem take_recency_cons_of_mem (h : a ∈ (recency ts).take n) :
    (recency (a :: ts)).take n = a :: ((recency ts).take n).erase a := by
  cases n with
  | zero => simp at h
  | succ n => rw [recency, List.take_succ_cons, take_erase_of_mem h]

/-- A touch of what is not among the first `n` puts it there, and the last out. -/
theorem take_recency_cons_of_notMem (hn : 0 < n) (h : a ∉ (recency ts).take n) :
    (recency (a :: ts)).take n = a :: (recency ts).take (n - 1) := by
  obtain ⟨n, rfl⟩ : ∃ k, n = k + 1 := ⟨n - 1, by omega⟩
  have hn : a ∉ (recency ts).take n :=
    fun hmem => h ((List.take_sublist_take_left (Nat.le_succ n)).subset hmem)
  rw [recency, List.take_succ_cons, take_erase_of_notMem hn, Nat.add_sub_cancel]

end Recency
