import Mathlib.Algebra.Group.Nat.Defs
import Mathlib.Data.List.Perm.Basic

/-!
# Merge sort from the bottom up

A list is sorted in one pass, with an array of runs: the run at level `i` is empty or has `2 ^ i`
elements, and what is at a higher level came earlier. `carry` adds a run at the lowest level like
one to a binary counter, merging it with the runs on its way, and `collect` merges the runs in the
end.

`SameOrder` says that two lists have the same elements, and those that the order does not tell apart
in the same sequence. A sorted list is determined by it (`SameOrder.eq_of_sorted`).

**Theorem (`collect_carryAll`).** With `n` levels, any list of fewer than `2 ^ n` elements is
sorted, stably: the result is that of `List.mergeSort`.
-/

namespace BottomUp

variable {α : Type*} {le : α → α → Bool} {xs ys zs l l' : List α} {ps : List (List α)} {a b : α}
variable {i : ℕ}

/-! ## Lists in the same order -/

/-- The order does not tell the elements apart. -/
def alike (le : α → α → Bool) (a b : α) : Bool := le a b && le b a

/-- A permutation that keeps the sequence of elements that are alike. -/
structure SameOrder (le : α → α → Bool) (l l' : List α) : Prop where
  perm : l.Perm l'
  filter : ∀ a, l.filter (alike le a) = l'.filter (alike le a)

namespace SameOrder

theorem refl (l : List α) : SameOrder le l l := ⟨List.Perm.refl l, fun _ => rfl⟩

theorem symm (h : SameOrder le xs ys) : SameOrder le ys xs :=
  ⟨h.perm.symm, fun a => (h.filter a).symm⟩

theorem trans (h : SameOrder le xs ys) (h' : SameOrder le ys zs) : SameOrder le xs zs :=
  ⟨h.perm.trans h'.perm, fun a => (h.filter a).trans (h'.filter a)⟩

theorem append_left (l : List α) (h : SameOrder le xs ys) : SameOrder le (l ++ xs) (l ++ ys) := by
  refine ⟨h.perm.append_left l, fun a => ?_⟩
  rw [List.filter_append, List.filter_append, h.filter a]

theorem append_right (l : List α) (h : SameOrder le xs ys) : SameOrder le (xs ++ l) (ys ++ l) := by
  refine ⟨h.perm.append_right l, fun a => ?_⟩
  rw [List.filter_append, List.filter_append, h.filter a]

theorem length_eq (h : SameOrder le xs ys) : xs.length = ys.length := h.perm.length_eq

/-- There is only one sorted list in an order. -/
theorem eq_of_sorted (total : ∀ a b, le a b || le b a) (h : SameOrder le xs ys)
    (hxs : xs.Pairwise (le · ·)) (hys : ys.Pairwise (le · ·)) : xs = ys := by
  induction xs generalizing ys with
  | nil => exact (List.nil_perm.1 h.perm).symm
  | cons x xs ih =>
    cases ys with
    | nil => exact absurd (List.perm_nil.1 h.perm) (List.cons_ne_nil x xs)
    | cons y ys =>
      have hself : ∀ z, le z z = true := fun z => by simpa using total z z
      rw [List.pairwise_cons] at hxs hys
      -- both heads are least, so they are alike, and the first one of these
      have hxy : le x y = true := by
        rcases List.mem_cons.1 (h.perm.mem_iff.2 List.mem_cons_self) with heq | hmem
        · rw [heq]
          exact hself x
        · exact hxs.1 y hmem
      have hyx : le y x = true := by
        rcases List.mem_cons.1 (h.perm.mem_iff.1 List.mem_cons_self) with heq | hmem
        · rw [heq]
          exact hself y
        · exact hys.1 x hmem
      have hhead := h.filter x
      rw [List.filter_cons_of_pos (by simp [alike, hself]),
        List.filter_cons_of_pos (by simp [alike, hxy, hyx])] at hhead
      obtain rfl := (List.cons_eq_cons.1 hhead).1
      have hrest : SameOrder le xs ys := by
        refine ⟨(List.perm_cons x).1 h.perm, fun a => ?_⟩
        have hfilter := h.filter a
        rw [List.filter_cons, List.filter_cons] at hfilter
        split_ifs at hfilter
        · exact (List.cons_eq_cons.1 hfilter).2
        · exact hfilter
      rw [ih hrest hxs.2 hys.2]

end SameOrder

/-! ## Merging -/

section

variable (trans : ∀ a b c, le a b → le b c → le a c)

include trans

/-- Merging keeps the order: of elements that are alike, those of the first list come first. -/
theorem sameOrder_merge (hxs : xs.Pairwise (le · ·)) :
    SameOrder le (List.merge xs ys le) (xs ++ ys) := by
  refine ⟨List.merge_perm_append le, fun a => ?_⟩
  induction xs generalizing ys with
  | nil => simp
  | cons x xs ih =>
    induction ys with
    | nil => simp
    | cons y ys ihy =>
      rw [List.cons_merge_cons]
      split_ifs with hle
      · rw [List.filter_cons, ih hxs.tail, List.cons_append, List.filter_cons]
      · rw [List.filter_cons, ihy, List.filter_append, List.filter_append,
          List.filter_cons (x := y)]
        split_ifs with ha
        · -- then nothing in the first list is like `a`
          have hnone : (x :: xs).filter (alike le a) = [] := by
            rw [List.filter_eq_nil_iff]
            intro z hz halike
            simp only [alike, Bool.and_eq_true] at ha halike
            have hxz : le x z = true := by
              rcases List.mem_cons.1 hz with rfl | hz
              · exact absurd (trans _ _ _ halike.2 ha.1) hle
              · exact (List.pairwise_cons.1 hxs).1 z hz
            exact hle (trans _ _ _ hxz (trans _ _ _ halike.2 ha.1))
          rw [hnone, List.nil_append, List.nil_append]
        · rfl

variable (total : ∀ a b, le a b || le b a)

include total

theorem sameOrder_mergeSort (l : List α) : SameOrder le (l.mergeSort le) l := by
  refine ⟨List.mergeSort_perm l le, fun a => ?_⟩
  have hsorted : (l.filter (alike le a)).Pairwise (le · ·) := by
    refine List.pairwise_of_forall_mem_list ?_
    intro b hb c hc
    have hb' := (List.mem_filter.1 hb).2
    have hc' := (List.mem_filter.1 hc).2
    simp only [alike, Bool.and_eq_true] at hb' hc'
    exact trans _ _ _ hb'.2 hc'.1
  have hsub := (List.sublist_mergeSort trans total hsorted List.filter_sublist).filter (alike le a)
  rw [List.filter_filter] at hsub
  simp only [Bool.and_self] at hsub
  refine (hsub.eq_of_length ?_).symm
  exact ((List.mergeSort_perm l le).filter _).length_eq.symm

/-! ## Runs -/

end

/-- Add a run at the lowest level. It is merged with the runs on its way up to the first level
without a run; there is `none` if all levels have one. -/
def carry (le : α → α → Bool) (cur : List α) : List (List α) → Option (List (List α))
  | [] => none
  | [] :: ps => some (cur :: ps)
  | (a :: l) :: ps => (carry le (List.merge (a :: l) cur le) ps).map ([] :: ·)

/-- Add the elements of a list one by one. -/
def carryAll (le : α → α → Bool) : List (List α) → List α → Option (List (List α))
  | ps, [] => some ps
  | ps, a :: l => (carry le [a] ps).bind fun ps => carryAll le ps l

/-- Merge the runs with `l`, from the lowest level on. -/
def collect (le : α → α → Bool) : List (List α) → List α → List α
  | [], l => l
  | p :: ps, l => collect le ps (List.merge p l le)

/-- Levels without runs need not be merged. -/
theorem collect_append_nil {ps' : List (List α)} (hnil : ∀ p ∈ ps', p = []) (l : List α) :
    collect le (ps ++ ps') l = collect le ps l := by
  induction ps generalizing l with
  | nil =>
    induction ps' generalizing l with
    | nil => rfl
    | cons p ps' ih =>
      have hp : p = [] := hnil p List.mem_cons_self
      subst hp
      show collect le ps' (List.merge [] l le) = l
      rw [List.nil_merge]
      exact ih (fun q hq => hnil q (List.mem_cons_of_mem _ hq)) l
  | cons p ps ih => exact ih (List.merge p l le)

/-- The elements in the order in which they came. -/
def arrived (ps : List (List α)) : List α := ps.reverse.flatten

theorem arrived_cons (p : List α) (ps : List (List α)) : arrived (p :: ps) = arrived ps ++ p := by
  rw [arrived, List.reverse_cons, List.flatten_append]
  simp [arrived]

/-- Nothing came to levels without runs. -/
theorem arrived_append_nil {ps' : List (List α)} (hnil : ∀ p ∈ ps', p = []) :
    arrived (ps ++ ps') = arrived ps := by
  have hflat : ps'.reverse.flatten = [] :=
    List.flatten_eq_nil_iff.2 fun p hp => hnil p (List.mem_reverse.1 hp)
  rw [arrived, List.reverse_append, List.flatten_append, hflat, List.nil_append, arrived]

/-- From level `i` on, the runs are sorted and of the length of their levels, or empty. -/
def Levels (le : α → α → Bool) : ℕ → List (List α) → Prop
  | _, [] => True
  | i, p :: ps => (p = [] ∨ p.length = 2 ^ i) ∧ p.Pairwise (le · ·) ∧ Levels le (i + 1) ps

theorem levels_replicate (le : α → α → Bool) (i n : ℕ) : Levels le i (List.replicate n []) := by
  induction n generalizing i with
  | zero => trivial
  | succ n ih => exact ⟨Or.inl rfl, List.Pairwise.nil, ih (i + 1)⟩

theorem arrived_replicate (n : ℕ) : arrived (List.replicate n ([] : List α)) = [] := by
  rw [arrived, List.reverse_replicate]
  simp

section

variable (trans : ∀ a b c, le a b → le b c → le a c) (total : ∀ a b, le a b || le b a)

include trans total

/-- **One run.** Unless all levels are occupied, it is added behind what was there. -/
theorem carry_spec {cur : List α} (hps : Levels le i ps) (hcur : cur.Pairwise (le · ·))
    (hlength : cur.length = 2 ^ i) :
    (∃ ps', carry le cur ps = some ps' ∧ Levels le i ps' ∧ ps'.length = ps.length ∧
      SameOrder le (arrived ps') (arrived ps ++ cur)) ∨
    (arrived ps).length + 2 ^ i = 2 ^ (i + ps.length) := by
  induction ps generalizing i cur with
  | nil => exact Or.inr (by simp [arrived])
  | cons p ps ih =>
    obtain ⟨hp, hsorted, hrest⟩ := hps
    cases p with
    | nil =>
      refine Or.inl ⟨cur :: ps, rfl, ⟨Or.inr hlength, hcur, hrest⟩, rfl, ?_⟩
      rw [arrived_cons, arrived_cons, List.append_nil]
      exact .refl _
    | cons a l =>
      have hp' : (a :: l).length = 2 ^ i := hp.resolve_left (List.cons_ne_nil a l)
      have hmerged := List.pairwise_merge trans total (a :: l) cur hsorted hcur
      have horder : SameOrder le (List.merge (a :: l) cur le) (a :: l ++ cur) :=
        sameOrder_merge trans hsorted
      have hdouble : (List.merge (a :: l) cur le).length = 2 ^ (i + 1) := by
        rw [horder.length_eq, List.length_append, hp', hlength, Nat.pow_succ]
        omega
      rcases ih hrest hmerged hdouble with ⟨ps', hcarry, hlevels, hlen, hsame⟩ | hfull
      · refine Or.inl ⟨[] :: ps', by rw [carry, hcarry]; rfl, ⟨Or.inl rfl, .nil, hlevels⟩,
          by rw [List.length_cons, List.length_cons, hlen], ?_⟩
        rw [arrived_cons, arrived_cons, List.append_nil, List.append_assoc]
        exact hsame.trans (horder.append_left _)
      · refine Or.inr ?_
        rw [arrived_cons, List.length_append, hp', List.length_cons,
          show i + (ps.length + 1) = i + 1 + ps.length by omega, ← hfull, Nat.pow_succ]
        omega

/-- **All elements.** -/
theorem carryAll_spec (hps : Levels le 0 ps)
    (hroom : (arrived ps).length + l.length < 2 ^ ps.length) :
    ∃ ps', carryAll le ps l = some ps' ∧ Levels le 0 ps' ∧ ps'.length = ps.length ∧
      SameOrder le (arrived ps') (arrived ps ++ l) := by
  induction l generalizing ps with
  | nil => exact ⟨ps, rfl, hps, rfl, by rw [List.append_nil]; exact .refl _⟩
  | cons a l ih =>
    rw [List.length_cons] at hroom
    rcases carry_spec trans total hps (List.pairwise_singleton _ a) rfl with
      ⟨ps₁, hcarry, hlevels, hlen, hsame⟩ | hfull
    · have hlen₁ := hsame.length_eq
      rw [List.length_append, List.length_singleton] at hlen₁
      obtain ⟨ps', hall, hlevels', hlen', hsame'⟩ := ih hlevels (by rw [hlen]; omega)
      refine ⟨ps', by rw [carryAll, hcarry, Option.bind_some, hall], hlevels', hlen'.trans hlen, ?_⟩
      have hsnoc := hsame.append_right l
      rw [List.append_assoc, List.singleton_append] at hsnoc
      exact hsame'.trans hsnoc
    · rw [Nat.zero_add] at hfull
      omega

/-- **The last merges.** -/
theorem collect_spec (hps : Levels le i ps) (hl : l.Pairwise (le · ·)) :
    (collect le ps l).Pairwise (le · ·) ∧ SameOrder le (collect le ps l) (arrived ps ++ l) := by
  induction ps generalizing i l with
  | nil => exact ⟨hl, .refl l⟩
  | cons p ps ih =>
    obtain ⟨-, hsorted, hrest⟩ := hps
    have hmerged := List.pairwise_merge trans total p l hsorted hl
    obtain ⟨hcollect, hsame⟩ := ih hrest hmerged
    refine ⟨hcollect, hsame.trans ?_⟩
    rw [arrived_cons, List.append_assoc]
    exact (sameOrder_merge trans hsorted).append_left _

/-- **Sorting from the bottom up** is sorting. -/
theorem collect_carryAll {n : ℕ} (hroom : l.length < 2 ^ n) :
    ∃ ps, carryAll le (List.replicate n []) l = some ps ∧ ps.length = n ∧
      collect le ps [] = l.mergeSort le := by
  obtain ⟨ps, hall, hlevels, hlen, hsame⟩ := carryAll_spec trans total (l := l)
    (levels_replicate le 0 n) (by simpa [arrived_replicate] using hroom)
  rw [arrived_replicate, List.nil_append] at hsame
  obtain ⟨hsorted, hcollect⟩ := collect_spec trans total hlevels List.Pairwise.nil
  rw [List.append_nil] at hcollect
  refine ⟨ps, hall, by rw [hlen, List.length_replicate], ?_⟩
  have horder := (hcollect.trans hsame).trans (sameOrder_mergeSort trans total l).symm
  exact horder.eq_of_sorted total hsorted (List.pairwise_mergeSort trans total l)

end

end BottomUp
