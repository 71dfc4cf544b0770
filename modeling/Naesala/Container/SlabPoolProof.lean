import Naesala.Container.SlabPool

/-!
# `SlabPool::back` leaves the node on the live chain

The chain from `_free` is what it should be: a node's link is written by `get`, which has just
taken the node off that chain, and by `back`, which puts it there. But `back` does not take the
node off the chain from `_live`. The link of a handed-out node is still the one that its last
`get` wrote, to the node that `get` had returned before; so if the live chain visits the
handed-out nodes and no others, it visits all nodes that `get` has ever returned, in order. After
a `back`, one of these is not handed out, or has been returned twice.

**Theorem (`apart_iff_no_back`).** In every run, the two chains are apart exactly as long as
`back` has not been called.
-/

namespace Naesala

namespace SlabPool

variable {s s' : SlabPool} {n node : ℕ}

/-! ## The nodes that `get` has returned -/

def Event.got : Event → Option ℕ
  | .get node => some node
  | .back _ => none

/-- The nodes returned by the calls of `get`, the last one in front. -/
def gets (s : SlabPool) : List ℕ := s.history.filterMap Event.got

/-- The first occurrence of an element splits a list in one way. -/
theorem first_unique {l₁ l₂ r₁ r₂ : List ℕ} (h : l₁ ++ n :: r₁ = l₂ ++ n :: r₂) (h₁ : n ∉ l₁)
    (h₂ : n ∉ l₂) : r₁ = r₂ := by
  induction l₁ generalizing l₂ with
  | nil =>
    cases l₂ with
    | nil => exact (List.cons.inj h).2
    | cons b l₂ => exact absurd (List.cons.inj h).1 fun heq => h₂ (heq ▸ List.mem_cons_self)
  | cons a l₁ ih =>
    cases l₂ with
    | nil => exact absurd (List.cons.inj h).1 fun heq => h₁ (heq ▸ List.mem_cons_self)
    | cons b l₂ =>
      exact ih (List.cons.inj h).2 (fun hn => h₁ (List.mem_cons_of_mem _ hn))
        fun hn => h₂ (List.mem_cons_of_mem _ hn)

/-! ## The invariant -/

/-- What every run keeps. -/
structure Inv (s : SlabPool) : Prop where
  free_chain : ∃ l, Linked s.next 0 s.free l ∧ ∀ n, n ∈ l ↔ s.Returned n
  live_eq : s.live = s.gets.headD 0
  mem_gets : ∀ n, n ∈ s.gets ↔ n ≠ 0 ∧ n ≤ s.made
  /-- The link of a handed-out node is to what `get` returned before it. -/
  next_out : ∀ n, s.out n = true →
    ∃ l r, s.gets = l ++ n :: r ∧ n ∉ l ∧ s.next n = r.headD 0
  clean : (∀ n, Event.back n ∉ s.history) → s.gets.Nodup ∧ ∀ n ∈ s.gets, s.out n = true
  spoiled : ∀ n, Event.back n ∈ s.history → (∃ m ∈ s.gets, s.out m = false) ∨ ¬ s.gets.Nodup

theorem Inv.out_mem (h : Inv s) (hn : s.out n = true) : n ∈ s.gets := by
  obtain ⟨l, r, hgets, -, -⟩ := h.next_out n hn
  rw [hgets]
  exact List.mem_append_right _ List.mem_cons_self

/-- Taking a node off the free chain. -/
theorem take_of_free (hfree : s.free ≠ 0) :
    s.take = ({ s with free := s.next s.free }, s.free) := by
  rw [take, if_pos hfree]

theorem take_of_none (hfree : s.free = 0) :
    s.take = ({ s with
      next := Function.update s.next (s.made + 1) 0, made := s.made + 1 }, s.made + 1) := by
  rw [take, if_neg fun hne => hne hfree]

/-- **What taking a node does**: it comes off the free chain or is new, and the links of the
handed-out nodes stay. -/
theorem Inv.take (h : Inv s) :
    (∃ l, Linked s.take.1.next 0 s.take.1.free l ∧
      ∀ n, n ∈ l ↔ n ≠ s.take.2 ∧ n ≠ 0 ∧ n ≤ s.take.1.made ∧ s.out n = false) ∧
      s.out s.take.2 = false ∧ (∀ n, s.out n = true → s.take.1.next n = s.next n) ∧
      (∀ n, n ≠ 0 ∧ n ≤ s.take.1.made ↔ n = s.take.2 ∨ n ≠ 0 ∧ n ≤ s.made) ∧
      s.take.1.live = s.live ∧ s.take.1.out = s.out ∧ s.take.1.history = s.history := by
  obtain ⟨l, hl, hmem⟩ := h.free_chain
  by_cases hfree : s.free = 0
  · have hnew : s.out (s.made + 1) = false := by
      rw [← Bool.not_eq_true]
      intro hout
      have := (h.mem_gets _).1 (h.out_mem hout)
      omega
    rw [take_of_none hfree]
    refine ⟨⟨l, ?_, fun n => ?_⟩, hnew, fun n hn => ?_, fun n => ?_, rfl, rfl, rfl⟩
    · refine hl.update_of_notMem fun hin => ?_
      have := ((hmem _).1 hin).2.1
      omega
    · rw [hmem, Returned]
      show _ ↔ n ≠ s.made + 1 ∧ n ≠ 0 ∧ n ≤ s.made + 1 ∧ s.out n = false
      constructor
      · intro hp
        obtain ⟨h0, hle, hout⟩ := hp
        exact ⟨by omega, h0, by omega, hout⟩
      · intro hp
        obtain ⟨hne, h0, hle, hout⟩ := hp
        exact ⟨h0, by omega, hout⟩
    · refine Function.update_of_ne (fun heq => ?_) _ _
      rw [heq, hnew] at hn
      exact absurd hn Bool.false_ne_true
    · show n ≠ 0 ∧ n ≤ s.made + 1 ↔ n = s.made + 1 ∨ n ≠ 0 ∧ n ≤ s.made
      omega
  · obtain ⟨r, rfl, hr⟩ := hl.exists_cons hfree
    have hfirst := (hmem s.free).1 List.mem_cons_self
    rw [take_of_free hfree]
    refine ⟨⟨r, hr, fun n => ?_⟩, hfirst.2.2, fun _ _ => rfl, fun n => ?_, rfl, rfl, rfl⟩
    · have hnodup := List.nodup_cons.1 hl.nodup
      have hn := hmem n
      rw [Returned, List.mem_cons] at hn
      show n ∈ r ↔ n ≠ s.free ∧ n ≠ 0 ∧ n ≤ s.made ∧ s.out n = false
      constructor
      · intro hin
        exact ⟨fun heq => hnodup.1 (heq ▸ hin), hn.1 (Or.inr hin)⟩
      · intro hp
        obtain ⟨hne, hret⟩ := hp
        exact (hn.2 hret).resolve_left hne
    · constructor
      · exact Or.inr
      · intro hor
        rcases hor with rfl | hn
        · exact ⟨hfirst.1, hfirst.2.1⟩
        · exact hn

/-- A node that is returned once more, or was among the returned ones and is not handed out. -/
theorem Inv.spoiled_get (h : Inv s) {ret : ℕ} (hback : Event.back n ∈ s.history) :
    (∃ m ∈ ret :: s.gets, Function.update s.out ret true m = false) ∨ ¬ (ret :: s.gets).Nodup := by
  rcases h.spoiled n hback with ⟨m, hm, hout⟩ | hdup
  · by_cases hmr : m = ret
    · exact Or.inr fun hnodup => (List.nodup_cons.1 hnodup).1 (hmr ▸ hm)
    · refine Or.inl ⟨m, List.mem_cons_of_mem _ hm, ?_⟩
      rwa [Function.update_of_ne hmr]
  · exact Or.inr fun hnodup => hdup (List.nodup_cons.1 hnodup).2

/-- **`get` keeps the invariant.** -/
theorem Inv.get (h : Inv s) : Inv (s.call .get) := by
  obtain ⟨⟨l, hl, hmem⟩, hret, hnext, hmade, hlive, hsame, hhist⟩ := h.take
  have hcall : s.call .get = { s.take.1 with
      next := Function.update s.take.1.next s.take.2 s.live
      live := s.take.2
      out := Function.update s.out s.take.2 true
      history := .get s.take.2 :: s.history } := by
    rw [← hlive, ← hsame, ← hhist]
    rfl
  have hgets : (s.call .get).gets = s.take.2 :: s.gets := by
    rw [hcall]
    rfl
  have hout : ∀ n, (s.call .get).out n = true ↔ n = s.take.2 ∨ s.out n = true := by
    intro n
    rw [hcall]
    show Function.update s.out s.take.2 true n = true ↔ _
    rw [Function.update_apply]
    split_ifs with hn
    · simp [hn]
    · simp [hn]
  have hnotMem : s.take.2 ∉ l := fun hin => ((hmem _).1 hin).1 rfl
  refine ⟨⟨l, ?_, fun n => ?_⟩, ?_, fun n => ?_, fun n hn => ?_, fun hclean => ?_,
    fun n hn => ?_⟩
  · rw [hcall]
    exact hl.update_of_notMem hnotMem
  · rw [hmem, Returned, ← Bool.not_eq_true, ← Bool.not_eq_true, hout, not_or, hcall]
    tauto
  · rw [hgets, hcall]
    rfl
  · rw [hgets, List.mem_cons, h.mem_gets, hcall]
    exact (hmade n).symm
  · rw [hgets, hcall]
    show ∃ l r, s.take.2 :: s.gets = l ++ n :: r ∧ n ∉ l ∧
      Function.update s.take.1.next s.take.2 s.live n = r.headD 0
    -- the node taken links to what `get` returned before it; the others link as they did
    by_cases hnr : n = s.take.2
    · subst hnr
      exact ⟨[], s.gets, rfl, List.not_mem_nil, by rw [Function.update_self, h.live_eq]⟩
    · have hold := ((hout n).1 hn).resolve_left hnr
      obtain ⟨l, r, hsplit, hnl, hlink⟩ := h.next_out n hold
      refine ⟨s.take.2 :: l, r, by rw [hsplit]; rfl, ?_, ?_⟩
      · rw [List.mem_cons, not_or]
        exact ⟨hnr, hnl⟩
      · rw [Function.update_of_ne hnr, hnext n hold, hlink]
  · -- without a `back`, all that `get` has returned is out, and the node taken is not
    rw [hcall] at hclean
    have hold := h.clean fun n hn => hclean n (List.mem_cons_of_mem _ hn)
    rw [hgets]
    refine ⟨List.nodup_cons.2 ⟨fun hin => ?_, hold.1⟩, fun n hn => ?_⟩
    · rw [hold.2 _ hin] at hret
      exact absurd hret (by simp)
    · rw [hout]
      rcases List.mem_cons.1 hn with rfl | hn
      · exact Or.inl rfl
      · exact Or.inr (hold.2 n hn)
  · rw [hgets]
    rw [hcall] at hn ⊢
    refine h.spoiled_get (n := n) ?_
    rcases List.mem_cons.1 hn with heq | hn
    · cases heq
    · exact hn

theorem back_fst (s : SlabPool) (node : ℕ) :
    (s.back node).1 = { s with next := Function.update s.next node s.free, free := node } := by
  unfold back
  split_ifs with hfree
  · rw [hfree]
  · rfl

theorem call_back (s : SlabPool) (node : ℕ) :
    s.call (.back node) = { s with
      next := Function.update s.next node s.free
      free := node
      out := Function.update s.out node false
      history := .back node :: s.history } := by
  show { (s.back node).1 with
    out := Function.update (s.back node).1.out node false
    history := Event.back node :: (s.back node).1.history } = _
  rw [back_fst]

/-- **`back` keeps the invariant.** -/
theorem Inv.back (h : Inv s) (hnode : s.out node = true) : Inv (s.call (.back node)) := by
  obtain ⟨l, hl, hmem⟩ := h.free_chain
  have hcall : s.call (.back node) = { s with
      next := Function.update s.next node s.free
      free := node
      out := Function.update s.out node false
      history := .back node :: s.history } := call_back s node
  have hgets : (s.call (.back node)).gets = s.gets := by
    rw [hcall]
    rfl
  have hout : ∀ n, (s.call (.back node)).out n = true ↔ n ≠ node ∧ s.out n = true := by
    intro n
    rw [hcall]
    show Function.update s.out node false n = true ↔ _
    rw [Function.update_apply]
    split_ifs with hn
    · simp [hn]
    · simp [hn]
  have hmade := (h.mem_gets node).1 (h.out_mem hnode)
  have hnotMem : node ∉ l := by
    intro hin
    have hret := ((hmem node).1 hin).2.2
    rw [hnode] at hret
    exact absurd hret (by simp)
  refine ⟨⟨node :: l, ?_, fun n => ?_⟩, ?_, fun n => ?_, fun n hn => ?_, fun hclean => ?_,
    fun n _ => ?_⟩
  · rw [hcall]
    refine Linked.push ?_ hmade.1
    show Linked (Function.update s.next node s.free) 0 (Function.update s.next node s.free node) l
    rw [Function.update_self]
    exact hl.update_of_notMem hnotMem
  · rw [List.mem_cons, hmem, Returned, Returned, ← Bool.not_eq_true, ← Bool.not_eq_true, hout,
      hcall]
    show n = node ∨ n ≠ 0 ∧ n ≤ s.made ∧ ¬ s.out n = true ↔
      n ≠ 0 ∧ n ≤ s.made ∧ ¬ (n ≠ node ∧ s.out n = true)
    constructor
    · intro hor
      rcases hor with rfl | ⟨h0, hle, hout⟩
      · exact ⟨hmade.1, hmade.2, fun hn => hn.1 rfl⟩
      · exact ⟨h0, hle, fun hn => hout hn.2⟩
    · intro hp
      obtain ⟨h0, hle, hor⟩ := hp
      by_cases hn : n = node
      · exact Or.inl hn
      · exact Or.inr ⟨h0, hle, fun hout => hor ⟨hn, hout⟩⟩
  · rw [hgets, hcall]
    exact h.live_eq
  · rw [hgets, hcall]
    exact h.mem_gets n
  · obtain ⟨hne, hold⟩ := (hout n).1 hn
    obtain ⟨l, r, hsplit, hnl, hlink⟩ := h.next_out n hold
    refine ⟨l, r, by rw [hgets, hsplit], hnl, ?_⟩
    rw [hcall]
    show Function.update s.next node s.free n = r.headD 0
    rw [Function.update_of_ne hne, hlink]
  · -- there has been a `back` now
    rw [hcall] at hclean
    exact absurd List.mem_cons_self (hclean node)
  · refine Or.inl ⟨node, ?_, ?_⟩
    · rw [hgets]
      exact h.out_mem hnode
    · rw [← Bool.not_eq_true, hout]
      exact fun hn => hn.1 rfl

theorem Inv.construct : Inv construct where
  free_chain := ⟨[], rfl, fun _ => ⟨fun hn => absurd hn List.not_mem_nil,
    fun hn => absurd (Nat.le_zero.1 hn.2.1) hn.1⟩⟩
  live_eq := rfl
  mem_gets _ := ⟨fun hn => absurd hn List.not_mem_nil, fun hn => absurd (Nat.le_zero.1 hn.2) hn.1⟩
  next_out _ hn := absurd hn Bool.false_ne_true
  clean _ := ⟨List.nodup_nil, fun _ hn => absurd hn List.not_mem_nil⟩
  spoiled _ hn := absurd hn List.not_mem_nil

theorem Inv.reach (hs : slabPool.Reach Allowed s) : Inv s := by
  refine hs.invariant Inv.construct fun s a s' h ha hst => ?_
  cases hst
  cases a with
  | get => exact h.get
  | back node => exact h.back ha

/-! ## The live chain -/

/-- The nodes on a chain of handed-out nodes are those that `get` has returned, in order: after
the nodes `a`, the chain follows the rest. -/
theorem Inv.chain_eq (h : Inv s) {a b l : List ℕ} {p : ℕ} (hgets : s.gets = a ++ b)
    (hp : p = b.headD 0) (hl : Linked s.next 0 p l) (hnodup : (a ++ l).Nodup)
    (hout : ∀ n ∈ l, s.out n = true) : l = b := by
  have hb : ∀ n ∈ b, n ≠ 0 := fun n hn =>
    ((h.mem_gets n).1 (by rw [hgets]; exact List.mem_append_right _ hn)).1
  induction l generalizing a b p with
  | nil =>
    cases b with
    | nil => rfl
    | cons m b => exact absurd (hp.symm.trans hl) (hb m List.mem_cons_self)
  | cons n l ih =>
    obtain ⟨rfl, hp0, hl⟩ := hl
    cases b with
    | nil => exact absurd hp hp0
    | cons m b =>
      obtain rfl : p = m := hp
      obtain ⟨l₁, r₁, hsplit, hnotMem, hlink⟩ := h.next_out p (hout p List.mem_cons_self)
      have hpa : p ∉ a := by
        intro hin
        exact (List.nodup_append.1 hnodup).2.2 p hin p List.mem_cons_self rfl
      have hr : r₁ = b := first_unique (hsplit.symm.trans hgets) hnotMem hpa
      rw [ih (a := a ++ [p]) (b := b) (by rw [hgets]; simp) (by rw [hlink, hr]) hl
        (by simpa using hnodup) (fun n hn => hout n (List.mem_cons_of_mem _ hn))
        fun n hn => hb n (List.mem_cons_of_mem _ hn)]

/-- Without a `back`, the live chain is what `get` has returned. -/
theorem Inv.linked_gets (h : Inv s) (hclean : ∀ n, Event.back n ∉ s.history) :
    Linked s.next 0 s.live s.gets := by
  obtain ⟨hnodup, hout⟩ := h.clean hclean
  have hrest : ∀ a b, s.gets = a ++ b → Linked s.next 0 (b.headD 0) b := by
    intro a b hgets
    induction b generalizing a with
    | nil => rfl
    | cons n b ih =>
      have hn : n ∈ s.gets := by rw [hgets]; simp
      obtain ⟨l₁, r₁, hsplit, hnotMem, hlink⟩ := h.next_out n (hout n hn)
      have hna : n ∉ a := by
        intro hin
        rw [hgets] at hnodup
        exact (List.nodup_append.1 hnodup).2.2 n hin n List.mem_cons_self rfl
      refine ⟨rfl, ((h.mem_gets n).1 hn).1, ?_⟩
      rw [hlink, first_unique (hsplit.symm.trans hgets) hnotMem hna]
      exact ih (a ++ [n]) (by rw [hgets]; simp)
  rw [h.live_eq]
  exact hrest [] s.gets rfl

/-! ## The destructor -/

theorem destroyLoop_eq {next : ℕ → ℕ} {l d : List ℕ} {p fuel : ℕ} (hl : Linked next 0 p l)
    (hfresh : ∀ n ∈ l, n ∉ d) (hfuel : l.length ≤ fuel) :
    destroyLoop next fuel p d = some (l.reverse ++ d) := by
  induction l generalizing p d fuel with
  | nil =>
    rw [Linked.nil_iff.1 hl]
    cases fuel with
    | zero => rfl
    | succ fuel => rfl
  | cons n l ih =>
    have hnodup := List.nodup_cons.1 hl.nodup
    obtain ⟨rfl, hp, hl⟩ := hl
    obtain ⟨m, rfl⟩ := Nat.exists_eq_succ_of_ne_zero hp
    cases fuel with
    | zero => exact absurd hfuel (Nat.not_succ_le_zero _)
    | succ fuel =>
      rw [destroyLoop, if_neg (hfresh _ List.mem_cons_self),
        ih hl ?_ (Nat.le_of_succ_le_succ hfuel)]
      · simp
      · intro n hn hin
        rcases List.mem_cons.1 hin with rfl | hin
        · exact hnodup.1 hn
        · exact hfresh n (List.mem_cons_of_mem _ hn) hin

/-! ## The two chains -/

theorem Inv.apart_of_clean (h : Inv s) (hclean : ∀ n, Event.back n ∉ s.history) : s.Apart := by
  obtain ⟨hnodup, hout⟩ := h.clean hclean
  have hlive := h.linked_gets hclean
  have hnone : ∀ n, ¬ s.Returned n := by
    intro n hn
    have hn' := hout n ((h.mem_gets n).2 ⟨hn.1, hn.2.1⟩)
    rw [hn.2.2] at hn'
    exact absurd hn' (by simp)
  obtain ⟨l, hl, hmem⟩ := h.free_chain
  have hnil : l = [] := List.eq_nil_iff_forall_not_mem.2 fun n hn => hnone n ((hmem n).1 hn)
  subst hnil
  refine ⟨⟨s.gets, hlive, hnodup, fun n => ⟨hout n, h.out_mem⟩⟩, ⟨[], hl, List.nodup_nil, hmem⟩,
    fun n _ hn => absurd (hl.mem_of_reaches hn) List.not_mem_nil,
    s.gets.length, s.gets.reverse, ?_, List.nodup_reverse.2 hnodup, fun n => ?_⟩
  · rw [destruct, destroyLoop_eq hlive (fun _ _ => List.not_mem_nil) (Nat.le_refl _),
      List.append_nil]
    exact destroyLoop_eq hl (fun _ hn => absurd hn List.not_mem_nil) (Nat.zero_le _)
  · rw [List.mem_reverse]
    exact h.mem_gets n

theorem Inv.clean_of_apart (h : Inv s) (hapart : s.Apart) : ∀ n, Event.back n ∉ s.history := by
  intro n hback
  obtain ⟨l, hl, hnodup, hmem⟩ := hapart.live_chain
  have heq : l = s.gets := h.chain_eq (a := []) rfl h.live_eq hl hnodup fun n hn => (hmem n).1 hn
  subst heq
  rcases h.spoiled n hback with ⟨m, hm, hout⟩ | hdup
  · rw [(hmem m).1 hm] at hout
    exact absurd hout (by simp)
  · exact hdup hnodup

/-- **The chains are apart exactly as long as nothing is returned.** In every run in which `back`
is given handed-out nodes, the live chain visits the handed-out nodes and the free chain the
returned ones, each once, and the destructor destroys each node once, if and only if no call of
the run was a `back`. -/
theorem apart_iff_no_back (hs : slabPool.Reach Allowed s) :
    s.Apart ↔ ∀ n, Event.back n ∉ s.history :=
  ⟨(Inv.reach hs).clean_of_apart, (Inv.reach hs).apart_of_clean⟩

/-- Two calls of `get`. -/
theorem apart_iff_no_back_two :
    ∃ s, slabPool.Reach Allowed s ∧ s.out 1 = true ∧ s.out 2 = true ∧ s.Apart := by
  have hrun := slabPool.reach_of_run Allowed [.get, .get] rfl
  refine ⟨_, hrun, rfl, rfl, (apart_iff_no_back hrun).2 fun n hn => ?_⟩
  have hmem : Event.back n ∈ [Event.get 2, Event.get 1] := hn
  simp at hmem

/-- `get`, `back` and `get` of one node: the node links to itself, and the live chain has no
end. -/
theorem not_apart_after_reuse : ∃ s, slabPool.Reach Allowed s ∧ s.next 1 = 1 ∧ ¬ s.Apart := by
  have hrun := slabPool.reach_of_run Allowed [.get, .back 1, .get] rfl
  refine ⟨_, hrun, rfl, fun hapart => ?_⟩
  obtain ⟨l, hl, -, -⟩ := hapart.live_chain
  obtain ⟨r, rfl, hr⟩ := hl.exists_cons (by decide)
  have hlen := congrArg List.length (hl.unique hr)
  rw [List.length_cons] at hlen
  omega

end SlabPool

end Naesala
