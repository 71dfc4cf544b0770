import Mathlib.Data.Finmap

/-!
# Slots with something in them

`content n f` is the multiset of what is in the slots `0`, ..., `n - 1`, where `f i` is what slot
`i` has in it, if anything. Writing one slot puts one element in and takes one out
(`content_update`), so an algorithm that moves things about in place is a calculation with
multisets.
-/

namespace Slots

variable {α β : Type*} {n m i j : ℕ} {f f' : ℕ → Option α} {a b : α} {o : Option α}

/-- The element, if there is one. -/
def one : Option α → Multiset α
  | none => 0
  | some a => {a}

/-- What is in the first `n` slots. -/
def content (n : ℕ) (f : ℕ → Option α) : Multiset α := (Multiset.range n).filterMap f

theorem content_succ (n : ℕ) (f : ℕ → Option α) : content (n + 1) f = one (f n) + content n f := by
  rw [content, Multiset.range_succ]
  cases hf : f n with
  | none => rw [Multiset.filterMap_cons_none _ _ hf, one, zero_add, content]
  | some a => rw [Multiset.filterMap_cons_some f _ _ hf, one, Multiset.singleton_add, content]

theorem mem_content : a ∈ content n f ↔ ∃ i < n, f i = some a := by
  rw [content, Multiset.mem_filterMap]
  simp only [Multiset.mem_range]

theorem content_congr (h : ∀ i < n, f i = f' i) : content n f = content n f' := by
  induction n with
  | zero => rfl
  | succ n ih =>
    rw [content_succ, content_succ, h n (Nat.lt_succ_self n),
      ih fun i hi => h i (Nat.lt_succ_of_lt hi)]

theorem content_of_none (h : ∀ i < n, f i = none) : content n f = 0 := by
  induction n with
  | zero => rfl
  | succ n ih =>
    rw [content_succ, h n (Nat.lt_succ_self n), ih fun i hi => h i (Nat.lt_succ_of_lt hi)]
    rfl

/-- **Writing a slot.** -/
theorem content_update (hi : i < n) (f : ℕ → Option α) (o : Option α) :
    content n (Function.update f i o) + one (f i) = content n f + one o := by
  induction n with
  | zero => omega
  | succ n ih =>
    rw [content_succ, content_succ]
    by_cases hin : i = n
    · subst hin
      have hbelow : content i (Function.update f i o) = content i f :=
        content_congr fun j hj => Function.update_of_ne (Nat.ne_of_lt hj) _ _
      rw [hbelow, Function.update_self, add_comm (one o), add_comm (one (f i)), add_assoc,
        add_assoc, add_comm (one o)]
    · rw [Function.update_of_ne fun hni => hin hni.symm, add_assoc, ih (by omega), add_assoc]

theorem content_put (hi : i < n) (hf : f i = none) (a : α) :
    content n (Function.update f i (some a)) = a ::ₘ content n f := by
  have hupdate := content_update hi f (some a)
  rw [hf] at hupdate
  rw [← Multiset.singleton_add, add_comm]
  simpa [one] using hupdate

theorem content_take (hi : i < n) (hf : f i = some a) :
    content n f = a ::ₘ content n (Function.update f i none) := by
  have hupdate := content_update hi f none
  rw [hf] at hupdate
  rw [← Multiset.singleton_add, add_comm]
  simpa [one] using hupdate.symm

theorem card_content (n : ℕ) (f : ℕ → Option α) :
    Multiset.card (content n f) = (List.range n).countP fun i => (f i).isSome := by
  induction n with
  | zero => rfl
  | succ n ih =>
    rw [content_succ, Multiset.card_add, ih, List.range_succ, List.countP_append,
      List.countP_singleton, add_comm]
    cases f n <;> rfl

/-- What is in two slots is not the same, if it is nowhere twice. -/
theorem eq_of_nodup {g : α → β} (hnodup : ((content n f).map g).Nodup) (hi : i < n) (hj : j < n)
    (hfi : f i = some a) (hfj : f j = some b) (hg : g a = g b) : i = j := by
  by_contra hne
  have hb : b ∈ content n (Function.update f i none) :=
    mem_content.2 ⟨j, hj, by rw [Function.update_of_ne fun hji => hne hji.symm, hfj]⟩
  rw [content_take hi hfi, Multiset.map_cons, Multiset.nodup_cons] at hnodup
  exact hnodup.1 (Multiset.mem_map.2 ⟨b, hb, hg.symm⟩)

end Slots
