import Mathlib.Logic.Function.Basic
import Mathlib.Data.List.Nodup

/-!
# Linked chains in a heap

A heap of `next` links is a function from nodes to nodes, with a node `null` that ends a
chain. `Linked next null p l` says that the chain from `p` is finite and visits exactly the
nodes `l`, in order. A chain is determined by its first node, so it never visits a node twice.

`Linked.Reaches` is the relation that needs no list. Any node may be taken for `null`: then the
chain is the path to that node, which `Linked.extend` makes longer. The frame rule `Linked.congr`
and the three updates (`Linked.push`, `Linked.tail`, `Linked.append`) are what the containers built
on such links do to their chains.
-/

variable {ν : Type*} {next next' : ν → ν} {null p : ν} {l l' : List ν}

/-- Following `next` from `p` visits exactly the nodes `l` and then stops at `null`. -/
def Linked (next : ν → ν) (null : ν) : ν → List ν → Prop
  | p, [] => p = null
  | p, a :: l => p = a ∧ a ≠ null ∧ Linked next null (next a) l

namespace Linked

@[simp] theorem nil_iff : Linked next null p [] ↔ p = null := Iff.rfl

@[simp] theorem cons_iff {a : ν} :
    Linked next null p (a :: l) ↔ p = a ∧ a ≠ null ∧ Linked next null (next a) l := Iff.rfl

/-- The chain from a node is unique. -/
theorem unique (h : Linked next null p l) (h' : Linked next null p l') : l = l' := by
  induction l generalizing p l' with
  | nil =>
    cases l' with
    | nil => rfl
    | cons b l' => exact absurd (h'.1.symm.trans h) h'.2.1
  | cons a l ih =>
    cases l' with
    | nil => exact absurd (h.1.symm.trans h') h.2.1
    | cons b l' =>
      obtain ⟨rfl, -, h⟩ := h
      obtain ⟨rfl, -, h'⟩ := h'
      rw [ih h h']

theorem ne_null (h : Linked next null p l) {a : ν} (ha : a ∈ l) : a ≠ null := by
  induction l generalizing p with
  | nil => exact absurd ha List.not_mem_nil
  | cons b l ih =>
    rcases List.mem_cons.1 ha with rfl | ha
    · exact h.2.1
    · exact ih h.2.2 ha

theorem suffix {a : ν} {r : List ν} (h : Linked next null p (l ++ a :: r)) :
    Linked next null a (a :: r) := by
  induction l generalizing p with
  | nil => exact cons_iff.2 ⟨rfl, h.2⟩
  | cons b l ih => exact ih h.2.2

/-- A chain never comes back to a node: the chain from there would be its own proper part. -/
theorem nodup (h : Linked next null p l) : l.Nodup := by
  induction l generalizing p with
  | nil => exact List.nodup_nil
  | cons a l ih =>
    refine List.nodup_cons.2 ⟨fun ha => ?_, ih h.2.2⟩
    obtain ⟨l₁, l₂, rfl⟩ := List.append_of_mem ha
    have hlen := congrArg List.length (unique (suffix h.2.2) (cons_iff.2 ⟨rfl, h.2⟩))
    simp only [List.length_cons, List.length_append] at hlen
    omega

/-- **The frame rule**: links off the chain do not matter. -/
theorem congr (h : Linked next null p l) (heq : ∀ a ∈ l, next' a = next a) :
    Linked next' null p l := by
  induction l generalizing p with
  | nil => exact h
  | cons a l ih =>
    refine ⟨h.1, h.2.1, ?_⟩
    rw [heq a List.mem_cons_self]
    exact ih h.2.2 fun b hb => heq b (List.mem_cons_of_mem _ hb)

theorem head_eq {a : ν} (h : Linked next null p (a :: l)) : p = a := h.1

theorem tail {a : ν} (h : Linked next null p (a :: l)) : Linked next null (next a) l := h.2.2

theorem exists_cons (h : Linked next null p l) (hp : p ≠ null) :
    ∃ r, l = p :: r ∧ Linked next null (next p) r := by
  cases l with
  | nil => exact absurd h hp
  | cons a r => obtain ⟨rfl, -, h⟩ := h; exact ⟨r, rfl, h⟩

theorem eq_concat {a : ν} (h : Linked next null p l) (ha : a ∈ l) (hnext : next a = null) :
    ∃ r, l = r ++ [a] := by
  obtain ⟨l₁, l₂, rfl⟩ := List.append_of_mem ha
  have hrest : Linked next null (next a) l₂ := (suffix h).tail
  cases l₂ with
  | nil => exact ⟨l₁, rfl⟩
  | cons b l₂ => exact absurd (hrest.head_eq.symm.trans hnext) hrest.2.1

theorem next_mem {a : ν} (h : Linked next null p l) (ha : a ∈ l) :
    next a = null ∨ next a ∈ l := by
  obtain ⟨l₁, l₂, rfl⟩ := List.append_of_mem ha
  have hrest : Linked next null (next a) l₂ := (suffix h).tail
  cases l₂ with
  | nil => exact Or.inl hrest
  | cons b l₂ =>
    refine Or.inr ?_
    rw [hrest.head_eq]
    simp

/-- Every node of a chain but the first, and its end, is linked to by one on the chain. -/
theorem exists_pred {a : ν} (h : Linked next null p l) (ha : a ∈ l ∨ a = null) (hne : a ≠ p) :
    ∃ b ∈ l, next b = a := by
  induction l generalizing p with
  | nil =>
    rcases ha with ha | rfl
    · exact absurd ha List.not_mem_nil
    · exact absurd h.symm hne
  | cons c l ih =>
    obtain ⟨rfl, -, h⟩ := h
    by_cases hnext : a = next p
    · exact ⟨p, List.mem_cons_self, hnext.symm⟩
    · have ha' : a ∈ l ∨ a = null := ha.imp_left fun hmem => (List.mem_cons.1 hmem).resolve_left hne
      obtain ⟨b, hb, hba⟩ := ih h ha' hnext
      exact ⟨b, List.mem_cons_of_mem _ hb, hba⟩

/-- A chain that ends in a node goes on from there: its end moves to the node's `next`. -/
theorem extend {q : ν} (h : Linked next null p l) (hnext : next null = q) (hnull : null ≠ q)
    (hq : q ∉ l) : Linked next q p (l ++ [null]) := by
  induction l generalizing p with
  | nil =>
    have hp : p = null := h
    subst hp
    exact ⟨rfl, hnull, hnext⟩
  | cons a l ih =>
    obtain ⟨rfl, ha, h⟩ := h
    have hne : p ≠ q := by
      intro heq
      subst heq
      exact hq List.mem_cons_self
    exact ⟨rfl, hne, ih h fun hmem => hq (List.mem_cons_of_mem _ hmem)⟩

theorem join {t : ν} (h : Linked next t p l) (h' : Linked next null t l')
    (hnull : ∀ a ∈ l, a ≠ null) : Linked next null p (l ++ l') := by
  induction l generalizing p with
  | nil =>
    have hp : p = t := h
    rwa [hp]
  | cons a l ih =>
    exact ⟨h.1, hnull a List.mem_cons_self,
      ih h.2.2 fun b hb => hnull b (List.mem_cons_of_mem _ hb)⟩

theorem push (h : Linked next null (next p) l) (hp : p ≠ null) : Linked next null p (p :: l) :=
  ⟨rfl, hp, h⟩

/-- Following `next` from `p` comes to the node `q`, which is not `null`. -/
inductive Reaches (next : ν → ν) (null : ν) : ν → ν → Prop
  | refl {p : ν} : p ≠ null → Reaches next null p p
  | step {p q : ν} : p ≠ null → Reaches next null (next p) q → Reaches next null p q

/-- What a chain reaches is on it. -/
theorem mem_of_reaches {q : ν} (h : Linked next null p l) (hq : Reaches next null p q) :
    q ∈ l := by
  induction hq generalizing l with
  | refl hp =>
    obtain ⟨r, rfl, -⟩ := h.exists_cons hp
    exact List.mem_cons_self
  | step hp _ ih =>
    obtain ⟨r, rfl, hr⟩ := h.exists_cons hp
    exact List.mem_cons_of_mem _ (ih hr)

theorem reaches_of_mem {q : ν} (h : Linked next null p l) (hq : q ∈ l) :
    Reaches next null p q := by
  induction l generalizing p with
  | nil => exact absurd hq List.not_mem_nil
  | cons a l ih =>
    obtain ⟨rfl, hp, h⟩ := h
    rcases List.mem_cons.1 hq with rfl | hq
    · exact .refl hp
    · exact .step hp (ih h hq)

section Update

variable [DecidableEq ν] {n v : ν}

theorem update_of_notMem (h : Linked next null p l) (hn : n ∉ l) :
    Linked (Function.update next n v) null p l :=
  h.congr fun a ha => Function.update_of_ne (fun hna => hn (by rwa [← hna])) v next

/-- A node taken out: the one before it now links to the one after it. -/
theorem unlink {t a : ν} (h : Linked next null p (l ++ t :: a :: l')) :
    Linked (Function.update next t (next a)) null p (l ++ t :: l') := by
  induction l generalizing p with
  | nil =>
    obtain ⟨rfl, hp, ha⟩ := h
    have hnotMem : p ∉ l' := fun hmem =>
      (List.nodup_cons.1 (nodup ⟨rfl, hp, ha⟩)).1 (List.mem_cons_of_mem _ hmem)
    refine ⟨rfl, hp, ?_⟩
    rw [Function.update_self]
    exact ha.tail.update_of_notMem hnotMem
  | cons b l ih =>
    obtain ⟨rfl, hp, hl⟩ := h
    have hpt : p ≠ t := by
      intro heq
      subst heq
      exact (List.nodup_cons.1 (nodup ⟨rfl, hp, hl⟩)).1 (by simp)
    refine ⟨rfl, hp, ?_⟩
    rw [Function.update_of_ne hpt]
    exact ih hl

/-- A chain put behind another one: the last node of the first now links to the second. -/
theorem append {t q : ν} (h : Linked next null p (l ++ [t])) (h' : Linked next null q l')
    (hdisj : ∀ a ∈ l', a ∉ l ++ [t]) :
    Linked (Function.update next t q) null p (l ++ t :: l') := by
  induction l generalizing p with
  | nil =>
    obtain ⟨rfl, hp, -⟩ := h
    refine ⟨rfl, hp, ?_⟩
    rw [Function.update_self]
    exact h'.update_of_notMem fun hmem => hdisj p hmem (by simp)
  | cons a l ih =>
    obtain ⟨rfl, ha, hl⟩ := h
    have hat : p ≠ t := by
      intro heq
      subst heq
      exact (List.nodup_cons.1 (nodup ⟨rfl, ha, hl⟩)).1 (by simp)
    refine ⟨rfl, ha, ?_⟩
    rw [Function.update_of_ne hat]
    exact ih hl fun b hb hmem => hdisj b hb (List.mem_cons_of_mem _ hmem)

/-- A new last node: the old last node, which linked to `null`, now links to it. -/
theorem snoc {t : ν} (h : Linked next null p (l ++ [t])) (hn : n ∉ l ++ [t]) (hnull : n ≠ null)
    (hnext : next n = null) :
    Linked (Function.update next t n) null p (l ++ [t, n]) := by
  refine h.append ⟨rfl, hnull, hnext⟩ fun a ha => ?_
  rwa [List.mem_singleton.1 ha]

end Update

end Linked
