import Mathlib.Data.List.Basic
import Mathlib.Logic.Function.Basic

/-!
# Nodes and their owners

Nodes that are never deallocated are in a container or have an owner, or are not in use yet.
`Ownership` says that the two exclude each other and that a node has one owner; the lemmas are
the ways in which a node changes hands.
-/

variable {τ ν : Type*} {null : ν} {owns : τ → ν → Bool} {allocated : ν → Bool}
variable {l l' : List ν} {t u : τ} {n m : ν}

/-- `l` are the nodes in the container, and `owns t n` says that thread `t` owns node `n`. -/
structure Ownership (null : ν) (owns : τ → ν → Bool) (allocated : ν → Bool) (l : List ν) :
    Prop where
  unowned : ∀ n ∈ l, ∀ t, owns t n = false
  exclusive : ∀ t u n, owns t n = true → owns u n = true → t = u
  ne_null : ∀ t n, owns t n = true → n ≠ null
  mem_allocated : ∀ n ∈ l, allocated n = true
  owns_allocated : ∀ t n, owns t n = true → allocated n = true

/-- Whether thread `t` owns node `n` is now `b`. -/
def updateOwns [DecidableEq τ] [DecidableEq ν] (owns : τ → ν → Bool) (t : τ) (n : ν) (b : Bool) :
    τ → ν → Bool :=
  Function.update owns t (Function.update (owns t) n b)

theorem updateOwns_apply [DecidableEq τ] [DecidableEq ν] (owns : τ → ν → Bool) (t u : τ) (n m : ν)
    (b : Bool) : updateOwns owns t n b u m = if u = t ∧ m = n then b else owns u m := by
  unfold updateOwns
  by_cases hu : u = t
  · subst hu
    by_cases hm : m = n
    · subst hm
      simp
    · simp [hm]
  · simp [hu]

theorem updateOwns_of_ne [DecidableEq τ] [DecidableEq ν] (hu : u ≠ t) (b : Bool) :
    updateOwns owns t n b u m = owns u m := by
  rw [updateOwns_apply, if_neg fun heq => hu heq.1]

namespace Ownership

theorem notMem (h : Ownership null owns allocated l) (ho : owns t n = true) : n ∉ l := by
  intro hmem
  rw [h.unowned n hmem t] at ho
  exact absurd ho (by simp)

theorem ne_of_ne (h : Ownership null owns allocated l) (ho : owns t n = true) (hu : u ≠ t)
    (hm : owns u m = true) : m ≠ n := by
  intro heq
  subst heq
  exact hu (h.exclusive u t m hm ho)

/-- Nobody owns anything yet. -/
theorem of_unowned (hl : ∀ n ∈ l, allocated n = true) :
    Ownership null (fun (_ : τ) _ => false) allocated l where
  unowned _ _ _ := rfl
  exclusive _ _ _ h := absurd h Bool.false_ne_true
  ne_null _ _ h := absurd h Bool.false_ne_true
  mem_allocated := hl
  owns_allocated _ _ h := absurd h Bool.false_ne_true

theorem subset (h : Ownership null owns allocated l) (hsub : l' ⊆ l) :
    Ownership null owns allocated l' where
  unowned n hn := h.unowned n (hsub hn)
  exclusive := h.exclusive
  ne_null := h.ne_null
  mem_allocated n hn := h.mem_allocated n (hsub hn)
  owns_allocated := h.owns_allocated

theorem enter (h : Ownership null owns allocated l)
    (hl : ∀ m ∈ l', m ∈ l ∨ (∀ t, owns t m = false) ∧ allocated m = true) :
    Ownership null owns allocated l' where
  unowned n hn := (hl n hn).elim (h.unowned n) And.left
  exclusive := h.exclusive
  ne_null := h.ne_null
  mem_allocated n hn := (hl n hn).elim (h.mem_allocated n) And.right
  owns_allocated := h.owns_allocated

variable [DecidableEq τ] [DecidableEq ν]

theorem own (h : Ownership null owns allocated l) (hnull : n ≠ null) (hmem : n ∉ l)
    (hfree : ∀ u, owns u n = false) (halloc : allocated n = true) (t : τ) :
    Ownership null (updateOwns owns t n true) allocated l where
  unowned m hm u := by
    have hne : m ≠ n := fun heq => hmem (heq ▸ hm)
    rw [updateOwns_apply, if_neg fun hum => hne hum.2]
    exact h.unowned m hm u
  exclusive u v m hu hv := by
    rw [updateOwns_apply] at hu hv
    by_cases hm : m = n
    · subst hm
      simp only [and_true, hfree, Bool.if_false_right, Bool.and_true, decide_eq_true_eq] at hu hv
      rw [hu, hv]
    · simp only [hm, and_false, if_false] at hu hv
      exact h.exclusive u v m hu hv
  ne_null u m hu := by
    rw [updateOwns_apply] at hu
    split_ifs at hu with hum
    · rw [hum.2]
      exact hnull
    · exact h.ne_null u m hu
  mem_allocated := h.mem_allocated
  owns_allocated u m hu := by
    rw [updateOwns_apply] at hu
    split_ifs at hu with hum
    · rw [hum.2]
      exact halloc
    · exact h.owns_allocated u m hu

theorem disown (h : Ownership null owns allocated l) (t : τ) (n : ν) :
    Ownership null (updateOwns owns t n false) allocated l := by
  have hsub : ∀ {u m}, updateOwns owns t n false u m = true → owns u m = true := by
    intro u m hu
    rw [updateOwns_apply] at hu
    split_ifs at hu
    exact hu
  refine ⟨fun m hm u => ?_, fun u v m hu hv => ?_, fun u m hu => ?_, h.mem_allocated,
    fun u m hu => ?_⟩
  · rw [← Bool.not_eq_true]
    intro hu
    exact h.notMem (hsub hu) hm
  · exact h.exclusive u v m (hsub hu) (hsub hv)
  · exact h.ne_null u m (hsub hu)
  · exact h.owns_allocated u m (hsub hu)

/-- Nobody owns a node that its owner has given up. -/
theorem free_of_disown (h : Ownership null owns allocated l) (ho : owns t n = true) (u : τ) :
    updateOwns owns t n false u n = false := by
  rw [updateOwns_apply]
  split_ifs with hu
  · rfl
  · rw [← Bool.not_eq_true]
    exact fun hun => hu ⟨h.exclusive u t n hun ho, rfl⟩

/-- An owner puts its node into the container. -/
theorem insert (h : Ownership null owns allocated l) (ho : owns t n = true)
    (hl : ∀ m ∈ l', m = n ∨ m ∈ l) : Ownership null (updateOwns owns t n false) allocated l' := by
  have hd := h.disown t n
  refine { hd with unowned := fun m hm u => ?_, mem_allocated := fun m hm => ?_ }
  · rcases hl m hm with rfl | hm
    · exact h.free_of_disown ho u
    · exact hd.unowned m hm u
  · rcases hl m hm with rfl | hm
    · exact h.owns_allocated t m ho
    · exact h.mem_allocated m hm

/-- A node leaves the container and gets an owner. -/
theorem remove (h : Ownership null owns allocated l) (hn : n ∈ l) (hnull : n ≠ null)
    (hmem : n ∉ l') (hsub : l' ⊆ l) (t : τ) :
    Ownership null (updateOwns owns t n true) allocated l' :=
  (h.subset hsub).own hnull hmem (h.unowned n hn) (h.mem_allocated n hn) t

/-- An owner hands its node to another thread. -/
theorem give (h : Ownership null owns allocated l) (ho : owns t n = true) (u : τ) :
    Ownership null (updateOwns (updateOwns owns t n false) u n true) allocated l :=
  (h.disown t n).own (h.ne_null t n ho) (h.notMem ho) (h.free_of_disown ho)
    (h.owns_allocated t n ho) u

theorem allocate (h : Ownership null owns allocated l) (hnull : n ≠ null)
    (hnew : allocated n = false) (t : τ) :
    Ownership null (updateOwns owns t n true) (Function.update allocated n true) l := by
  have hmono : ∀ m, allocated m = true → Function.update allocated n true m = true := by
    intro m hm
    by_cases hmn : m = n
    · simp [hmn]
    · simpa [hmn] using hm
  have hunused : n ∉ l := fun hmem => by simp [h.mem_allocated n hmem] at hnew
  have hfree : ∀ u, owns u n = false := by
    intro u
    rw [← Bool.not_eq_true]
    exact fun hu => by simp [h.owns_allocated u n hu] at hnew
  have h' : Ownership null owns (Function.update allocated n true) l :=
    { h with
      mem_allocated := fun m hm => hmono m (h.mem_allocated m hm)
      owns_allocated := fun u m hu => hmono m (h.owns_allocated u m hu) }
  exact h'.own hnull hunused hfree (by simp) t

end Ownership
