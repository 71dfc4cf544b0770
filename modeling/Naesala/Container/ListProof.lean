import Naesala.Container.List

/-!
# `List` is a sequence of nodes

`Represents` says what the lists stand for: the chain from `_start` visits the nodes of a
sequence and ends at `_end`, and no node is in two sequences. It is a statement about the whole
heap of links, since a write to one node's link could be a write into any chain. Each operation
has one lemma, which says that it succeeds and what the lists stand for after it.

**Theorem (`represents_sequences`).** In every run in which a node that is pushed is in no list
and no list is appended to itself, each call is defined, the lists are the sequences that the
same calls make of the empty ones, and each call has returned what it returns there.

**Theorem (`freesAll_iff_empty`).** The destructor stops when `_start` and `_end` are the same
node, which is one node too early: it destroys all nodes of the list but the last.
-/

namespace Naesala

namespace Lists

open Linked

variable {ι ν : Type} [DecidableEq ι] [DecidableEq ν] {null : ν}
variable {s : Lists ι ν} {c : ι → List ν} {l m : ι} {node : ν}

/-- The lists stand for the sequences `c`. -/
structure Represents (null : ν) (s : Lists ι ν) (c : ι → List ν) : Prop where
  linked : ∀ l, Linked s.next null (s.start l) (c l)
  end_eq : ∀ l, s.end l = (c l).getLastD null
  disjoint : ∀ l m n, n ∈ c l → n ∈ c m → l = m

namespace Represents

omit [DecidableEq ι] in
theorem empty_iff (h : Represents null s c) : s.empty null l = true ↔ c l = [] := by
  rw [empty, decide_eq_true_eq]
  have hl := h.linked l
  constructor
  · intro hnull
    cases hc : c l with
    | nil => rfl
    | cons a r =>
      rw [hc, cons_iff] at hl
      exact absurd (hl.1.symm.trans hnull.symm) hl.2.1
  · intro hnil
    rw [hnil, nil_iff] at hl
    exact hl.symm

omit [DecidableEq ι] [DecidableEq ν] in
/-- A list that is not empty, as its first nodes and its `_end`. -/
theorem exists_end (h : Represents null s c) (hne : c l ≠ []) :
    ∃ r, c l = r ++ [s.end l] ∧ s.end l ≠ null := by
  have hlast : c l = (c l).dropLast ++ [s.end l] := by
    rw [h.end_eq l, List.getLastD_eq_getLast?, List.getLast?_eq_some_getLast hne,
      Option.getD_some, List.dropLast_append_getLast]
  refine ⟨_, hlast, (h.linked l).ne_null ?_⟩
  rw [hlast]
  exact List.mem_append_right _ List.mem_cons_self

omit [DecidableEq ι] [DecidableEq ν] in
theorem notMem_of_not_reaches (h : Represents null s c)
    (hfree : ∀ k, ¬ Reaches s.next null (s.start k) node) (k : ι) : node ∉ c k :=
  fun hmem => hfree k ((h.linked k).reaches_of_mem hmem)

omit [DecidableEq ν] in
/-- **One list at a time**: list `l` now stands for `r`, and the chains of the others are as they
were. -/
theorem change (h : Represents null s c) {s' : Lists ι ν} {r : List ν}
    (hstart : ∀ k, k ≠ l → s'.start k = s.start k) (hend : ∀ k, k ≠ l → s'.end k = s.end k)
    (hnext : ∀ k, k ≠ l → ∀ a ∈ c k, s'.next a = s.next a)
    (hlinked : Linked s'.next null (s'.start l) r) (hlast : s'.end l = r.getLastD null)
    (hr : ∀ n ∈ r, ∀ k, n ∈ c k → k = l) : Represents null s' (Function.update c l r) where
  linked k := by
    by_cases hk : k = l
    · subst hk
      rwa [Function.update_self]
    · rw [Function.update_of_ne hk, hstart k hk]
      exact (h.linked k).congr (hnext k hk)
  end_eq k := by
    by_cases hk : k = l
    · subst hk
      rwa [Function.update_self]
    · rw [Function.update_of_ne hk, hend k hk]
      exact h.end_eq k
  disjoint k m n hk hm := by
    rw [Function.update_apply] at hk hm
    split_ifs at hk hm with hkl hml hml
    · rw [hkl, hml]
    · rw [hkl, hr n hk m hm]
    · rw [hml, hr n hm k hk]
    · exact h.disjoint k m n hk hm

omit [DecidableEq ι] in
theorem setNext (h : Represents null s c) (hnode : ∀ k, node ∉ c k) (link : ν) :
    Represents null { s with next := Function.update s.next node link } c where
  linked k := (h.linked k).update_of_notMem (hnode k)
  end_eq := h.end_eq
  disjoint := h.disjoint

theorem push (h : Represents null s c) (hnull : node ≠ null) (hnode : ∀ k, node ∉ c k) (l : ι) :
    ∃ s', s.push null l node = some s' ∧
      Represents null s' (Function.update c l (c l ++ [node])) := by
  have h₁ := h.setNext hnode null
  have hr : ∀ n ∈ c l ++ [node], ∀ k, n ∈ c k → k = l := by
    intro n hn k hk
    rcases List.mem_append.1 hn with hn | hn
    · exact h.disjoint k l n hk hn
    · rw [List.mem_singleton.1 hn] at hk
      exact absurd hk (hnode k)
  by_cases hnil : c l = []
  · have hempty : s.empty null l = true := h.empty_iff.2 hnil
    refine ⟨{ s with
        next := Function.update s.next node null
        start := Function.update s.start l node
        «end» := Function.update s.end l node }, ?_, h₁.change ?_ ?_ ?_ ?_ ?_ hr⟩
    · simp [Lists.push, Lists.setNext, hnull, Lists.empty, setStart, setEnd] at hempty ⊢
      simp [hempty]
    · exact fun k hk => Function.update_of_ne hk _ _
    · exact fun k hk => Function.update_of_ne hk _ _
    · exact fun _ _ _ _ => rfl
    · rw [hnil]
      exact ⟨Function.update_self _ _ _, hnull, Function.update_self _ _ _⟩
    · simp
  · have hempty : s.empty null l = false := by
      rw [← Bool.not_eq_true, h.empty_iff]
      exact hnil
    obtain ⟨r, hcl, hne⟩ := h.exists_end hnil
    refine ⟨{ s with
        next := Function.update (Function.update s.next node null) (s.end l) node
        «end» := Function.update s.end l node }, ?_, h₁.change ?_ ?_ ?_ ?_ ?_ hr⟩
    · simp [Lists.push, Lists.setNext, hnull, hne, Lists.empty, setEnd] at hempty ⊢
      simp [hempty]
    · exact fun _ _ => rfl
    · exact fun k hk => Function.update_of_ne hk _ _
    · intro k hk a ha
      refine Function.update_of_ne (fun heq => hk ?_) _ _
      exact h.disjoint k l a ha (by rw [hcl, heq]; simp)
    · have hlinked := h₁.linked l
      have hnot := hnode l
      rw [hcl] at hlinked hnot
      rw [hcl, List.append_assoc]
      exact hlinked.snoc hnot hnull (Function.update_self _ _ _)
    · simp

theorem pop (h : Represents null s c) (l : ι) :
    ∃ s', s.pop null l = some (s', (c l).headD null) ∧
      Represents null s' (Function.update c l (c l).tail) := by
  have hl := h.linked l
  cases hcl : c l with
  | nil =>
    have hempty : s.empty null l = true := h.empty_iff.2 hcl
    rw [hcl, nil_iff] at hl
    refine ⟨s, ?_, ?_⟩
    · simp [Lists.pop, hempty, hl]
    · rw [List.tail_nil, ← hcl, Function.update_eq_self]
      exact h
  | cons a r =>
    rw [hcl, cons_iff] at hl
    obtain ⟨hstart, ha, hrest⟩ := hl
    have hempty : s.empty null l = false := by
      rw [← Bool.not_eq_true, h.empty_iff, hcl]
      exact List.cons_ne_nil a r
    have hnodup : (a :: r).Nodup := hcl ▸ (h.linked l).nodup
    have har : a ∉ r := (List.nodup_cons.1 hnodup).1
    refine ⟨{ next := Function.update s.next a null
              start := Function.update s.start l (s.next a)
              «end» := if null = s.next a then Function.update s.end l null else s.end },
      ?_, h.change ?_ ?_ ?_ ?_ ?_ ?_⟩
    · by_cases hlast : null = s.next a
      · simp [Lists.pop, hempty, setStart, setEnd, Lists.setNext, hstart, ha, ← hlast]
      · simp [Lists.pop, hempty, setStart, Lists.setNext, hstart, ha, hlast]
    · exact fun k hk => Function.update_of_ne hk _ _
    · intro k hk
      show (if null = s.next a then Function.update s.end l null else s.end) k = s.end k
      split_ifs
      · exact Function.update_of_ne hk _ _
      · rfl
    · intro k hk b hb
      refine Function.update_of_ne (fun heq => hk ?_) _ _
      exact h.disjoint k l b hb (by rw [hcl, heq]; exact List.mem_cons_self)
    · show Linked (Function.update s.next a null) null (Function.update s.start l (s.next a) l) r
      rw [Function.update_self]
      exact hrest.update_of_notMem har
    · show (if null = s.next a then Function.update s.end l null else s.end) l = r.getLastD null
      cases r with
      | nil => rw [if_pos (nil_iff.1 hrest).symm, Function.update_self, List.getLastD_nil]
      | cons b r =>
        rw [if_neg fun hnull => hrest.2.1 (hrest.1.symm.trans hnull.symm), h.end_eq l, hcl]
        simp
    · intro n hn k hk
      exact h.disjoint k l n hk (by rw [hcl]; exact List.mem_cons_of_mem a hn)

omit [DecidableEq ν] in
theorem emptied (h : Represents null s c) (m : ι) :
    Represents null
      { s with start := Function.update s.start m null, «end» := Function.update s.end m null }
      (Function.update c m []) :=
  h.change (fun _ hk => Function.update_of_ne hk _ _) (fun _ hk => Function.update_of_ne hk _ _)
    (fun _ _ _ _ => rfl) (Function.update_self _ _ _) (Function.update_self _ _ _)
    fun _ hn => absurd hn List.not_mem_nil

omit [DecidableEq ν] in
theorem eq_of_mem_emptied (h : Represents null s c) {n : ν} (hn : n ∈ c l ++ c m) {k : ι}
    (hk : n ∈ Function.update c m [] k) : k = l := by
  rw [Function.update_apply] at hk
  split_ifs at hk with hkm
  · exact absurd hk List.not_mem_nil
  · rcases List.mem_append.1 hn with hn | hn
    · exact h.disjoint k l n hk hn
    · exact absurd (h.disjoint k m n hk hn) hkm

theorem append (h : Represents null s c) (hlm : l ≠ m) :
    ∃ s', s.append null l m = some s' ∧
      Represents null s' (Function.update (Function.update c l (c l ++ c m)) m []) := by
  by_cases hm : c m = []
  · have hempty : s.empty null m = true := h.empty_iff.2 hm
    refine ⟨s, by simp [Lists.append, hempty], ?_⟩
    rwa [hm, List.append_nil, Function.update_eq_self, ← hm, Function.update_eq_self]
  · have hempty : s.empty null m = false := by
      rw [← Bool.not_eq_true, h.empty_iff]
      exact hm
    -- first `m` gives its nodes up, then `l` takes them
    have h₁ := h.emptied m
    have hstart : ∀ f : ι → ν, ∀ a k, k ≠ l →
        Function.update (Function.update f l a) m null k = Function.update f m null k := by
      intro f a k hk
      rw [Function.update_comm hlm, Function.update_of_ne hk]
    have hat : ∀ f : ι → ν, ∀ a, Function.update (Function.update f l a) m null l = a := by
      intro f a
      rw [Function.update_of_ne hlm, Function.update_self]
    have hr : ∀ n ∈ c l ++ c m, ∀ k, n ∈ Function.update c m [] k → k = l :=
      fun _ hn _ hk => h.eq_of_mem_emptied hn hk
    obtain ⟨q, hq, hqnull⟩ := h.exists_end hm
    have hlast : s.end m = (c l ++ c m).getLastD null := by
      rw [hq]
      simp
    rw [Function.update_comm hlm]
    -- an empty list takes over both pointers; the last node of another gets linked
    by_cases hl : c l = []
    · have hempty' : s.empty null l = true := h.empty_iff.2 hl
      refine ⟨{ s with
          start := Function.update (Function.update s.start l (s.start m)) m null
          «end» := Function.update (Function.update s.end l (s.end m)) m null }, ?_,
        h₁.change (hstart _ _) (hstart _ _) ?_ ?_ ?_ hr⟩
      · simp [Lists.append, hempty, hempty', setStart, setEnd]
      · exact fun _ _ _ _ => rfl
      · show Linked s.next null (Function.update (Function.update s.start l (s.start m)) m null l) _
        rw [hat, hl]
        exact h.linked m
      · exact (hat _ _).trans hlast
    · have hempty' : s.empty null l = false := by
        rw [← Bool.not_eq_true, h.empty_iff]
        exact hl
      obtain ⟨r, hcl, hne⟩ := h.exists_end hl
      refine ⟨{ s with
          next := Function.update s.next (s.end l) (s.start m)
          start := Function.update s.start m null
          «end» := Function.update (Function.update s.end l (s.end m)) m null }, ?_,
        h₁.change ?_ (hstart _ _) ?_ ?_ ?_ hr⟩
      · simp [Lists.append, hempty, hempty', Lists.setNext, hne, setStart, setEnd]
      · exact fun _ _ => rfl
      · intro k hk a ha
        refine Function.update_of_ne (fun heq => hk ?_) _ _
        exact hr a (List.mem_append_left _ (by rw [hcl, heq]; simp)) k ha
      · show Linked _ null (Function.update s.start m null l) _
        rw [Function.update_of_ne hlm]
        have hlinked := h.linked l
        rw [hcl] at hlinked ⊢
        rw [List.append_assoc]
        refine hlinked.append (h.linked m) fun a ha hmem => hlm ?_
        exact h.disjoint l m a (by rwa [hcl]) ha
      · exact (hat _ _).trans hlast

end Represents

/-! ## Runs -/

/-- The lists are the sequences that the calls make, and have returned the same. -/
structure Inv (null : ν) (o : Observed ι ν) : Prop where
  represents : Represents null o.lists (replay null o.calls).1
  results : o.results = (replay null o.calls).2

variable {o o' : Observed ι ν}

/-- **A call is defined and keeps the invariant.** -/
theorem Inv.step (h : Inv null o) {a : Call ι ν} (ha : Allowed null o a) :
    ∃ o', (lists ι ν null).step o a = some o' ∧ Inv null o' := by
  have hcall : ∃ s' result, o.lists.call null a = some (s', result) ∧
      Represents null s' (a.onSequences null (replay null o.calls).1).1 ∧
      result = (a.onSequences null (replay null o.calls).1).2 := by
    cases a with
    | push l node =>
      obtain ⟨s', hs', h'⟩ :=
        h.represents.push ha.1 (h.represents.notMem_of_not_reaches ha.2) l
      exact ⟨s', none, by rw [call, hs']; rfl, h', rfl⟩
    | append l m =>
      obtain ⟨s', hs', h'⟩ := h.represents.append ha
      exact ⟨s', none, by rw [call, hs']; rfl, h', rfl⟩
    | pop l =>
      obtain ⟨s', hs', h'⟩ := h.represents.pop l
      exact ⟨s', _, by rw [call, hs']; rfl, h', rfl⟩
  obtain ⟨s', result, hs', h', hresult⟩ := hcall
  refine ⟨⟨s', a :: o.calls, result :: o.results⟩, ?_, h', ?_⟩
  · simp only [lists, hs', Option.map_some]
  · show result :: o.results = (replay null (a :: o.calls)).2
    rw [hresult, h.results]
    rfl

theorem Inv.init : Inv null (lists ι ν null).init where
  represents := ⟨fun _ => rfl, fun _ => rfl, fun _ _ _ hn => absurd hn List.not_mem_nil⟩
  results := rfl

theorem Inv.reach (ho : (lists ι ν null).Reach (Allowed null) o) : Inv null o := by
  refine ho.invariant Inv.init fun o a o' h ha hst => ?_
  obtain ⟨o'', hst', h'⟩ := h.step ha
  rw [hst'] at hst
  cases hst
  exact h'

omit [DecidableEq ν] in
theorem Inv.allowed_push (h : Inv null o) (hnull : node ≠ null)
    (hnode : ∀ k, node ∉ (replay null o.calls).1 k) (l : ι) : Allowed null o (.push l node) :=
  ⟨hnull, fun k hk => hnode k ((h.represents.linked k).mem_of_reaches hk)⟩

/-- **`List` represents a sequence.** In every run in which a pushed node is in no list and no
list is appended to itself, the next such call is defined, the calls have returned what they
return on sequences, and each list is empty, with both pointers null, or the chain from `_start`
visits its sequence and ends at `_end`; no node is on the chains of two lists. -/
theorem represents_sequences (ho : (lists ι ν null).Reach (Allowed null) o) :
    (∀ a, Allowed null o a → ((lists ι ν null).step o a).isSome) ∧
      o.results = (replay null o.calls).2 ∧
      (∀ l, (o.lists.start l = null ∧ o.lists.end l = null ∧ (replay null o.calls).1 l = []) ∨
        ∃ r, (replay null o.calls).1 l = r ++ [o.lists.end l] ∧
          Linked o.lists.next null (o.lists.start l) (r ++ [o.lists.end l]) ∧
          o.lists.next (o.lists.end l) = null) ∧
      ∀ l m node, Reaches o.lists.next null (o.lists.start l) node →
        Reaches o.lists.next null (o.lists.start m) node → l = m := by
  have h := Inv.reach ho
  refine ⟨?_, h.results, ?_, ?_⟩
  · intro a ha
    obtain ⟨o', ho', -⟩ := h.step ha
    rw [ho']
    rfl
  · intro l
    have hl := h.represents.linked l
    by_cases hnil : (replay null o.calls).1 l = []
    · have hend := h.represents.end_eq l
      rw [hnil] at hl hend
      exact Or.inl ⟨hl, hend, hnil⟩
    · obtain ⟨r, hr, -⟩ := h.represents.exists_end hnil
      rw [hr] at hl
      exact Or.inr ⟨r, hr, hl, hl.suffix.tail⟩
  · intro l m node hl hm
    exact h.represents.disjoint l m node ((h.represents.linked l).mem_of_reaches hl)
      ((h.represents.linked m).mem_of_reaches hm)

/-- Two nodes in two lists, one list appended to the other, and one node popped. -/
theorem represents_sequences_two :
    ∃ o : Observed (Fin 2) ℕ, (lists (Fin 2) ℕ 0).Reach (Allowed 0) o ∧
      o.results = [some 1, none, none, none] ∧ o.results = (replay 0 o.calls).2 := by
  have h₁ : (lists (Fin 2) ℕ 0).Reach (Allowed 0) (lists (Fin 2) ℕ 0).init := .init
  have h₂ := h₁.step (a := Call.push 0 1)
    ((Inv.reach h₁).allowed_push (by decide) (by decide) 0) rfl
  have h₃ := h₂.step (a := Call.push 1 2)
    ((Inv.reach h₂).allowed_push (by decide) (by decide) 1) rfl
  have hne : (0 : Fin 2) ≠ 1 := by decide
  have h₄ := h₃.step (a := Call.append 0 1) hne rfl
  have h₅ := h₄.step (a := Call.pop 0) trivial rfl
  exact ⟨_, h₅, rfl, (represents_sequences h₅).2.1⟩

/-! ## The destructor -/

/-- **The destructor's loop**: `_start` and `_end` differ as long as the list has two nodes, and
`pop` takes the first. -/
theorem Represents.destruct_eq (h : Represents null s c) (fuel : ℕ) :
    s.destruct null l fuel = if (c l).length - 1 < fuel then some (c l).dropLast else none := by
  induction fuel generalizing s c with
  | zero => rfl
  | succ fuel ih =>
    have hl := h.linked l
    have hend := h.end_eq l
    have hnodup := hl.nodup
    obtain ⟨s', hpop, h'⟩ := h.pop l
    cases hc : c l with
    | nil =>
      rw [hc] at hl hend
      rw [destruct, if_neg fun hne => hne (hl.trans hend.symm)]
      exact (if_pos (Nat.succ_pos fuel)).symm
    | cons a r =>
      rw [hc] at hl hend hnodup hpop h'
      cases r with
      | nil =>
        rw [destruct, if_neg fun hne => hne (hl.head_eq.trans hend.symm)]
        exact (if_pos (Nat.succ_pos fuel)).symm
      | cons b r =>
        have hlast : s.end l ∈ b :: r := by
          rw [hend, List.getLastD_cons, List.getLastD_eq_getLast?,
            List.getLast?_eq_some_getLast (List.cons_ne_nil b r), Option.getD_some]
          exact List.getLast_mem _
        have hne : s.start l ≠ s.end l := by
          intro heq
          rw [← heq, hl.head_eq] at hlast
          exact (List.nodup_cons.1 hnodup).1 hlast
        have hrest := ih h'
        rw [Function.update_self] at hrest
        simp only [destruct, if_pos hne, hpop, Option.bind_eq_bind, Option.bind_some, hrest,
          List.tail_cons, List.length_cons, Nat.add_sub_cancel, List.headD_cons,
          Nat.succ_lt_succ_iff]
        split_ifs
        · rfl
        · rfl

/-- **The destructor leaks the last node.** In every run, the destructor of a list comes to its
end and destroys the nodes of the list but the last, so it frees all of them exactly if the list
is empty. -/
theorem freesAll_iff_empty (ho : (lists ι ν null).Reach (Allowed null) o) (l : ι) :
    (∃ fuel, o.lists.destruct null l fuel = some ((replay null o.calls).1 l).dropLast) ∧
      (o.lists.FreesAll null l ↔ o.lists.empty null l = true) := by
  have h := (Inv.reach ho).represents
  have hends : o.lists.destruct null l ((replay null o.calls).1 l).length.succ =
      some ((replay null o.calls).1 l).dropLast := by
    rw [h.destruct_eq, if_pos (by omega)]
  refine ⟨⟨_, hends⟩, ?_⟩
  rw [h.empty_iff]
  constructor
  · intro hfrees
    obtain ⟨fuel, d, hd, -, hmem⟩ := hfrees
    rw [h.destruct_eq] at hd
    split_ifs at hd
    cases hd
    by_contra hne
    obtain ⟨r, hr, -⟩ := h.exists_end hne
    have hlinked := h.linked l
    have hnodup := hlinked.nodup
    -- the last node is in the list, and the loop has stopped before it
    have hreaches : o.lists.end l ∈ ((replay null o.calls).1 l).dropLast :=
      (hmem _).2 (hlinked.reaches_of_mem (by rw [hr]; simp))
    rw [hr, List.dropLast_concat] at hreaches
    rw [hr] at hnodup
    exact (List.nodup_append.1 hnodup).2.2 _ hreaches _ List.mem_cons_self rfl
  · intro hnil
    have hlinked := h.linked l
    rw [hnil] at hlinked hends
    exact ⟨_, _, hends, List.nodup_nil, fun n => ⟨fun hn => absurd hn List.not_mem_nil,
      fun hn => absurd (hlinked.mem_of_reaches hn) List.not_mem_nil⟩⟩

/-- A list whose one node was popped. -/
theorem freesAll_iff_empty_popped :
    ∃ o : Observed (Fin 1) ℕ, (lists (Fin 1) ℕ 0).Reach (Allowed 0) o ∧ o.results = [some 1, none] ∧
      o.lists.FreesAll 0 0 := by
  have h₁ : (lists (Fin 1) ℕ 0).Reach (Allowed 0) (lists (Fin 1) ℕ 0).init := .init
  have h₂ := h₁.step (a := Call.push 0 1)
    ((Inv.reach h₁).allowed_push (by decide) (by decide) 0) rfl
  have h₃ := h₂.step (a := Call.pop 0) trivial rfl
  exact ⟨_, h₃, rfl, (freesAll_iff_empty h₃ 0).2.2 rfl⟩

/-- A list of one node: the two pointers are equal, and the node is never destroyed. -/
theorem not_freesAll_one :
    ∃ o : Observed (Fin 1) ℕ, (lists (Fin 1) ℕ 0).Reach (Allowed 0) o ∧ o.lists.start 0 = 1 ∧
      ¬ o.lists.FreesAll 0 0 := by
  have h₁ : (lists (Fin 1) ℕ 0).Reach (Allowed 0) (lists (Fin 1) ℕ 0).init := .init
  have h₂ := h₁.step (a := Call.push 0 1)
    ((Inv.reach h₁).allowed_push (by decide) (by decide) 0) rfl
  refine ⟨_, h₂, rfl, fun hfrees => ?_⟩
  obtain ⟨fuel, d, hd, -, hmem⟩ := hfrees
  have hin : 1 ∈ d := (hmem 1).2 (.refl (by decide))
  cases fuel with
  | zero => cases hd
  | succ fuel =>
    cases hd
    exact absurd hin List.not_mem_nil

end Lists

end Naesala
