import Mathlib.Data.Set.Insert
import Mathlib.Logic.Function.Basic

/-!
# Words that are used once

Threads draw words from a source that has not given out the same word before, keep a word for a
while, and then put it into a shared cell, where others see it. `Fresh` is what this gives: a
word that a thread still keeps is kept by that thread alone and has never been seen. So a
compare-exchange that finds the word it has loaded finds a cell that nobody has written since.

Words that are not `live` may be drawn any number of times; nothing is said about them.
-/

variable {ω τ : Type*} {live : ω → Prop} {issued issued' : List ω} {seen : Set ω}
variable {pending pending' : τ → Option ω} {w w' : ω} {t : τ}

/-- `issued` are the live words drawn so far, `seen` the words that have been in a cell, and
`pending t` the word that thread `t` keeps. -/
structure Fresh (live : ω → Prop) (issued : List ω) (seen : Set ω) (pending : τ → Option ω) :
    Prop where
  seen_issued : ∀ w ∈ seen, live w → w ∈ issued
  pending_issued : ∀ t w, pending t = some w → live w → w ∈ issued
  pending_not_seen : ∀ t w, pending t = some w → live w → w ∉ seen
  pending_injective : ∀ t u w, pending t = some w → live w → pending u = some w → t = u

namespace Fresh

theorem ne (h : Fresh live issued seen pending) (hw : pending t = some w) (hlive : live w)
    (hw' : w' ∈ seen) : w ≠ w' := by
  intro heq
  exact h.pending_not_seen t w hw hlive (heq ▸ hw')

/-- Threads may forget their words. -/
theorem mono (h : Fresh live issued seen pending)
    (hle : ∀ t w, pending' t = some w → pending t = some w) : Fresh live issued seen pending' where
  seen_issued := h.seen_issued
  pending_issued t w hw := h.pending_issued t w (hle t w hw)
  pending_not_seen t w hw := h.pending_not_seen t w (hle t w hw)
  pending_injective t u w hw hlive hu := h.pending_injective t u w (hle t w hw) hlive (hle u w hu)

variable [DecidableEq τ]

theorem issue (h : Fresh live issued seen pending) (hsub : issued ⊆ issued')
    (hnew : live w → w ∈ issued' ∧ w ∉ issued) (hother : ∀ u, u ≠ t → pending' u = pending u)
    (hself : pending' t = some w) : Fresh live issued' seen pending' := by
  have hcase : ∀ u v, pending' u = some v → u = t ∧ v = w ∨ u ≠ t ∧ pending u = some v := by
    intro u v hv
    by_cases hu : u = t
    · subst hu
      rw [hself] at hv
      exact Or.inl ⟨rfl, (Option.some.inj hv).symm⟩
    · exact Or.inr ⟨hu, by rwa [← hother u hu]⟩
  refine ⟨fun v hv hlive => hsub (h.seen_issued v hv hlive), fun u v hv hlive => ?_,
    fun u v hv hlive => ?_, fun u u' v hv hlive hv' => ?_⟩
  · rcases hcase u v hv with ⟨-, rfl⟩ | ⟨-, hv⟩
    · exact (hnew hlive).1
    · exact hsub (h.pending_issued u v hv hlive)
  · rcases hcase u v hv with ⟨-, rfl⟩ | ⟨-, hv⟩
    · exact fun hseen => (hnew hlive).2 (h.seen_issued v hseen hlive)
    · exact h.pending_not_seen u v hv hlive
  · rcases hcase u v hv with ⟨rfl, rfl⟩ | ⟨-, hold⟩
    · rcases hcase u' v hv' with ⟨rfl, -⟩ | ⟨-, hold'⟩
      · rfl
      · exact absurd (h.pending_issued u' v hold' hlive) (hnew hlive).2
    · rcases hcase u' v hv' with ⟨-, rfl⟩ | ⟨-, hold'⟩
      · exact absurd (h.pending_issued u v hold hlive) (hnew hlive).2
      · exact h.pending_injective u u' v hold hlive hold'

theorem install (h : Fresh live issued seen pending) (hw : pending t = some w)
    (hother : ∀ u, u ≠ t → pending' u = pending u) (hself : pending' t = none) :
    Fresh live issued (insert w seen) pending' := by
  have hcase : ∀ u v, pending' u = some v → u ≠ t ∧ pending u = some v := by
    intro u v hv
    by_cases hu : u = t
    · subst hu
      rw [hself] at hv
      exact absurd hv (by simp)
    · exact ⟨hu, by rwa [← hother u hu]⟩
  have hmono := h.mono fun u v hv => (hcase u v hv).2
  refine { hmono with
    seen_issued := fun v hv hlive => ?_
    pending_not_seen := fun u v hv hlive => ?_ }
  · rcases hv with rfl | hv
    · exact h.pending_issued t v hw hlive
    · exact h.seen_issued v hv hlive
  · obtain ⟨hu, hold⟩ := hcase u v hv
    intro hor
    rcases hor with rfl | hseen
    · exact hu (h.pending_injective u t v hold hlive hw)
    · exact h.pending_not_seen u v hold hlive hseen

end Fresh
