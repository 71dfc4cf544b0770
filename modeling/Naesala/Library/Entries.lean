import Mathlib.Data.Set.Function
import Naesala.Library.Linked
import Naesala.Library.Ownership

/-!
# Links that enter each node once

A heap of `next` links whose nodes have owners, as in `Ownership`. Some nodes are `gone`: their
links are still there but count for nothing. `Entries` says of all other links that no two of them
lead to one node, and that what they lead to is in use, has no owner, and is not `first`.

So a chain of links from `first` never meets a node that has an owner, and does not come back to
itself. The lemmas are the ways in which a link is made and taken away.
-/

variable {τ ν : Type*} {null first n m : ν} {next next' : ν → ν} {gone gone' : Set ν}
variable {owns owns' : τ → ν → Bool} {allocated allocated' : ν → Bool} {t : τ}

/-- The links of nodes that are not `gone`, and not `null`, lead to different nodes that nobody
owns. -/
structure Entries (null : ν) (next : ν → ν) (gone : Set ν) (owns : τ → ν → Bool)
    (allocated : ν → Bool) (first : ν) : Prop where
  once : Set.InjOn next {n | n ∉ gone ∧ next n ≠ null}
  unowned : ∀ n ∉ gone, next n ≠ null → ∀ t, owns t (next n) = false
  ne_first : ∀ n ∉ gone, next n ≠ null → next n ≠ first
  mem_allocated : ∀ n ∉ gone, next n ≠ null → allocated (next n) = true
  unused : ∀ n, allocated n = false → next n = null

namespace Entries

/-- Nothing is linked yet. -/
theorem of_null (hnull : ∀ n, next n = null) : Entries null next gone owns allocated first where
  once n hn := absurd (hnull n) hn.2
  unowned n _ hn := absurd (hnull n) hn
  ne_first n _ hn := absurd (hnull n) hn
  mem_allocated n _ hn := absurd (hnull n) hn
  unused n _ := hnull n

theorem mono (h : Entries null next gone owns allocated first) (hgone : gone ⊆ gone')
    (howns : ∀ n ∉ gone', next n ≠ null → ∀ t, owns' t (next n) = true → owns t (next n) = true)
    (hallocated : ∀ n, allocated n = true → allocated' n = true) :
    Entries null next gone' owns' allocated' first where
  once := by
    refine h.once.mono ?_
    intro n hn
    exact ⟨fun hmem => hn.1 (hgone hmem), hn.2⟩
  unowned n hn hnull t := by
    have hold := h.unowned n (fun hmem => hn (hgone hmem)) hnull t
    rw [← Bool.not_eq_true] at hold ⊢
    exact fun ht => hold (howns n hn hnull t ht)
  ne_first n hn := h.ne_first n fun hmem => hn (hgone hmem)
  mem_allocated n hn hnull :=
    hallocated _ (h.mem_allocated n (fun hmem => hn (hgone hmem)) hnull)
  unused n hn := by
    refine h.unused n ?_
    rw [← Bool.not_eq_true] at hn ⊢
    exact fun hmem => hn (hallocated n hmem)

/-- Links may be taken away, and nodes that are gone come back without their links. -/
theorem cut (h : Entries null next gone owns allocated first)
    (hnext : ∀ n, next' n = next n ∧ (n ∈ gone → n ∈ gone') ∨ next' n = null) :
    Entries null next' gone' owns allocated first := by
  have hsame : ∀ n ∉ gone', next' n ≠ null → next' n = next n ∧ n ∉ gone := by
    intro n hn hnull
    obtain ⟨heq, hgone⟩ := (hnext n).resolve_right hnull
    exact ⟨heq, fun hmem => hn (hgone hmem)⟩
  refine ⟨?_, ?_, ?_, ?_, ?_⟩
  · intro n hn m hm heq
    obtain ⟨hnn, hn'⟩ := hsame n hn.1 hn.2
    obtain ⟨hmm, hm'⟩ := hsame m hm.1 hm.2
    refine h.once ⟨hn', fun hnull => hn.2 (hnn.trans hnull)⟩
      ⟨hm', fun hnull => hm.2 (hmm.trans hnull)⟩ ?_
    rw [← hnn, ← hmm, heq]
  · intro n hn hnull
    obtain ⟨hnn, hn'⟩ := hsame n hn hnull
    rw [hnn] at hnull ⊢
    exact h.unowned n hn' hnull
  · intro n hn hnull
    obtain ⟨hnn, hn'⟩ := hsame n hn hnull
    rw [hnn] at hnull ⊢
    exact h.ne_first n hn' hnull
  · intro n hn hnull
    obtain ⟨hnn, hn'⟩ := hsame n hn hnull
    rw [hnn] at hnull ⊢
    exact h.mem_allocated n hn' hnull
  · intro n hn
    rcases hnext n with ⟨heq, -⟩ | heq
    · rw [heq, h.unused n hn]
    · exact heq

/-- The path from `first` to a node that links on goes on to where it links. -/
theorem extend {l : List ν} (h : Entries null next gone owns allocated first)
    (hl : Linked next n first l) (hgone : ∀ m ∈ n :: l, m ∉ gone) (hn : next n ≠ null) :
    Linked next (next n) first (l ++ [n]) := by
  have hmem : n ∉ gone := hgone n List.mem_cons_self
  -- the link before would be a second one to the same node
  have hnot : ¬ (next n ∈ l ∨ next n = n) := by
    intro hback
    obtain ⟨m, hm, hlink⟩ := hl.exists_pred hback (h.ne_first n hmem hn)
    have hnull : next m ≠ null := by rwa [hlink]
    exact hl.ne_null hm (h.once ⟨hgone m (List.mem_cons_of_mem _ hm), hnull⟩ ⟨hmem, hn⟩ hlink)
  exact hl.extend rfl (fun heq => hnot (Or.inr heq.symm)) fun hback => hnot (Or.inl hback)

variable [DecidableEq ν]

section Owners

variable [DecidableEq τ]

/-- An owner links its node behind one that links to nothing, and gives it up. -/
theorem link {l : List ν} (h : Entries null next gone owns allocated first)
    (howned : Ownership null owns allocated l) (hfirst : first ∈ l) (ho : owns t n = true)
    (hm : next m = null) (hmem : allocated m = true) :
    Entries null (Function.update next m n) gone (updateOwns owns t n false) allocated first := by
  have hcase : ∀ k, k ≠ m → Function.update next m n k = next k :=
    fun k hk => Function.update_of_ne hk n next
  -- nothing links to `n` so far, for it has an owner
  have hnot : ∀ k ∉ gone, next k ≠ null → next k ≠ n := by
    intro k hk hnull heq
    have hfree := h.unowned k hk hnull t
    rw [heq, ho] at hfree
    cases hfree
  have hless := howned.disown t n
  refine ⟨?_, ?_, ?_, ?_, ?_⟩
  · intro k hk k' hk' heq
    by_cases hkm : k = m
    · by_cases hkm' : k' = m
      · rw [hkm, hkm']
      · have hk'' := hk'.2
        rw [hcase k' hkm'] at heq hk''
        rw [hkm, Function.update_self] at heq
        exact absurd heq.symm (hnot k' hk'.1 hk'')
    · have hk'' := hk.2
      rw [hcase k hkm] at heq hk''
      by_cases hkm' : k' = m
      · rw [hkm', Function.update_self] at heq
        exact absurd heq (hnot k hk.1 hk'')
      · have hk''' := hk'.2
        rw [hcase k' hkm'] at heq hk'''
        exact h.once ⟨hk.1, hk''⟩ ⟨hk'.1, hk'''⟩ heq
  · intro k hk hnull u
    by_cases hkm : k = m
    · rw [hkm, Function.update_self]
      exact howned.free_of_disown ho u
    · rw [hcase k hkm] at hnull ⊢
      rw [updateOwns_apply, if_neg fun heq => hnot k hk hnull heq.2]
      exact h.unowned k hk hnull u
  · intro k hk hnull
    by_cases hkm : k = m
    · rw [hkm, Function.update_self]
      intro heq
      subst heq
      exact howned.notMem ho hfirst
    · rw [hcase k hkm] at hnull ⊢
      exact h.ne_first k hk hnull
  · intro k hk hnull
    by_cases hkm : k = m
    · rw [hkm, Function.update_self]
      exact howned.owns_allocated t n ho
    · rw [hcase k hkm] at hnull ⊢
      exact h.mem_allocated k hk hnull
  · intro k hk
    have hkm : k ≠ m := by
      intro heq
      subst heq
      rw [hmem] at hk
      cases hk
    rw [hcase k hkm]
    exact h.unused k hk

/-- The first node is gone, and gets an owner; the node it links to is the first one. -/
theorem remove (h : Entries null next gone owns allocated first) (hfirst : first ∉ gone)
    (hnull : next first ≠ null) (t : τ) :
    Entries null next (insert first gone) (updateOwns owns t first true) allocated
      (next first) := by
  have hout : ∀ k ∉ insert first gone, k ≠ first ∧ k ∉ gone :=
    fun k hk => ⟨fun heq => hk (Or.inl heq), fun hmem => hk (Or.inr hmem)⟩
  refine ⟨?_, ?_, ?_, ?_, h.unused⟩
  · refine h.once.mono ?_
    intro k hk
    exact ⟨(hout k hk.1).2, hk.2⟩
  · intro k hk hknull u
    have hne := h.ne_first k (hout k hk).2 hknull
    rw [updateOwns_apply, if_neg fun heq => hne heq.2]
    exact h.unowned k (hout k hk).2 hknull u
  · intro k hk hknull heq
    exact (hout k hk).1 (h.once ⟨(hout k hk).2, hknull⟩ ⟨hfirst, hnull⟩ heq)
  · intro k hk
    exact h.mem_allocated k (hout k hk).2

end Owners

end Entries
