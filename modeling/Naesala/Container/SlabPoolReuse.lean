import Mathlib.Data.List.Basic
import Mathlib.Data.List.Nodup
import Naesala.Container.SlabPoolProof

/-!
# What `SlabPool` hands out

`get` writes the link of the node it returns, and that node has just left the chain from `_free`;
`back` writes the link of a node that is handed out, so not on that chain either. Hence the free
chain is a stack: the nodes that were returned and not handed out again, the last one in front.

`handedOut` and `freed` read the calls so far, and do not look at the chains.

**Theorem (`get_reuses`).** In every run, `get` returns the last returned node that is free, or
else a new one, and the nodes made are as many as were ever handed out at one time.
-/

namespace Naesala

namespace SlabPool

variable {s : SlabPool} {n node : ℕ}

/-! ## What the calls say -/

/-- The nodes that are handed out after the calls. -/
def handedOut : List Event → List ℕ
  | [] => []
  | .get node :: h => node :: handedOut h
  | .back node :: h => (handedOut h).erase node

/-- The nodes that are returned and free after the calls, the last returned one in front. -/
def freed : List Event → List ℕ
  | [] => []
  | .get node :: h => (freed h).erase node
  | .back node :: h => node :: freed h

/-- The most nodes that were handed out at one time. -/
def peak : List Event → ℕ
  | [] => 0
  | e :: h => max (handedOut (e :: h)).length (peak h)

/-! ## The invariant -/

/-- The free chain is the stack of the returned nodes, and the counts agree. -/
structure Reuse (s : SlabPool) : Prop where
  inv : Inv s
  free_chain : Linked s.next 0 s.free (freed s.history)
  mem_handedOut : ∀ n, n ∈ handedOut s.history ↔ s.out n = true
  nodup : (handedOut s.history).Nodup
  made_eq : s.made = (freed s.history).length + (handedOut s.history).length
  peak_eq : peak s.history = s.made

/-- The free nodes are those that are made and not handed out. -/
theorem Reuse.mem_freed (h : Reuse s) : n ∈ freed s.history ↔ s.Returned n := by
  obtain ⟨l, hl, hmem⟩ := h.inv.free_chain
  rw [h.free_chain.unique hl, hmem]

/-- **Which node `get` takes.** -/
theorem Reuse.take_eq (h : Reuse s) :
    (∃ r, freed s.history = s.take.2 :: r ∧ s.take.1.made = s.made ∧
      Linked s.take.1.next 0 s.take.1.free r) ∨
    (freed s.history = [] ∧ s.take.2 = s.made + 1 ∧ s.take.1.made = s.made + 1 ∧
      s.take.1.free = 0) := by
  by_cases hfree : s.free = 0
  · rw [take_of_none hfree]
    have hnil : freed s.history = [] := h.free_chain.unique hfree
    exact Or.inr ⟨hnil, rfl, rfl, hfree⟩
  · rw [take_of_free hfree]
    obtain ⟨r, hr, hlinked⟩ := h.free_chain.exists_cons hfree
    exact Or.inl ⟨r, hr, rfl, hlinked⟩

theorem mem_erase_iff {l : List ℕ} (hl : l.Nodup) {f : ℕ → Bool}
    (hmem : ∀ n, n ∈ l ↔ f n = true) :
    n ∈ l.erase node ↔ Function.update f node false n = true := by
  rw [hl.mem_erase_iff, hmem, Function.update_apply]
  split_ifs with heq
  · simp [heq]
  · simp [heq]

theorem mem_cons_iff {l : List ℕ} {f : ℕ → Bool} (hmem : ∀ n, n ∈ l ↔ f n = true) :
    n ∈ node :: l ↔ Function.update f node true n = true := by
  rw [List.mem_cons, hmem, Function.update_apply]
  split_ifs with heq
  · simp [heq]
  · simp [heq]

/-- **`get` keeps the free chain a stack.** -/
theorem Reuse.get (h : Reuse s) : Reuse (s.call .get) := by
  obtain ⟨-, hret, -, -, -, hsame, hhist⟩ := h.inv.take
  have hnot : s.take.2 ∉ handedOut s.history := by
    rw [h.mem_handedOut, hret]
    exact Bool.false_ne_true
  have hout : ∀ n, n ∈ s.take.2 :: handedOut s.history ↔ (s.call .get).out n = true := by
    intro n
    show _ ↔ Function.update s.take.1.out s.take.2 true n = true
    rw [hsame]
    exact mem_cons_iff h.mem_handedOut
  have hhistory : (s.call .get).history = .get s.take.2 :: s.history := by
    rw [← hhist]
    rfl
  have hmade := h.made_eq
  have hpeak := h.peak_eq
  rcases h.take_eq with ⟨r, hr, hsame', hlinked⟩ | ⟨hnil, hnew, hone, hfree⟩
  · -- the first node of the stack leaves it
    have hfreed : freed (s.call .get).history = r := by
      rw [hhistory, freed, hr, List.erase_cons_head]
    have hnodup : (s.take.2 :: r).Nodup := hr ▸ h.free_chain.nodup
    rw [hr, List.length_cons] at hmade
    refine ⟨h.inv.get, ?_, ?_, ?_, ?_, ?_⟩
    · rw [hfreed]
      exact hlinked.update_of_notMem (List.nodup_cons.1 hnodup).1
    · rwa [hhistory]
    · rw [hhistory]
      exact List.nodup_cons.2 ⟨hnot, h.nodup⟩
    · rw [hfreed, hhistory, handedOut, List.length_cons]
      show s.take.1.made = _
      omega
    · rw [hhistory, peak, handedOut, List.length_cons]
      show _ = s.take.1.made
      omega
  · have hfreed : freed (s.call .get).history = [] := by
      rw [hhistory, freed, hnil]
      rfl
    rw [hnil, List.length_nil] at hmade
    refine ⟨h.inv.get, ?_, ?_, ?_, ?_, ?_⟩
    · rw [hfreed]
      exact hfree
    · rwa [hhistory]
    · rw [hhistory]
      exact List.nodup_cons.2 ⟨hnot, h.nodup⟩
    · rw [hfreed, hhistory, handedOut, List.length_cons, List.length_nil]
      show s.take.1.made = _
      omega
    · rw [hhistory, peak, handedOut, List.length_cons]
      show _ = s.take.1.made
      omega

/-- **`back` puts the node on the stack.** -/
theorem Reuse.back (h : Reuse s) (hnode : s.out node = true) : Reuse (s.call (.back node)) := by
  have hcall : s.call (.back node) = { s with
      next := Function.update s.next node s.free
      free := node
      out := Function.update s.out node false
      history := .back node :: s.history } := call_back s node
  have hmem := (h.mem_handedOut node).2 hnode
  have hpos := List.length_pos_of_mem hmem
  have hlen := List.length_erase_of_mem hmem
  have hmade := h.made_eq
  have hpeak := h.peak_eq
  have hnot : node ∉ freed s.history := by
    rw [h.mem_freed, Returned, hnode]
    simp
  refine ⟨h.inv.back hnode, ?_, fun n => ?_, ?_, ?_, ?_⟩
  · rw [hcall]
    refine Linked.push ?_ ((h.inv.mem_gets node).1 (h.inv.out_mem hnode)).1
    show Linked (Function.update s.next node s.free) 0 (Function.update s.next node s.free node) _
    rw [Function.update_self]
    exact h.free_chain.update_of_notMem hnot
  · rw [hcall]
    exact mem_erase_iff h.nodup h.mem_handedOut
  · rw [hcall]
    exact h.nodup.erase node
  · rw [hcall]
    show s.made = (node :: freed s.history).length + ((handedOut s.history).erase node).length
    rw [List.length_cons]
    omega
  · rw [hcall]
    show max ((handedOut s.history).erase node).length (peak s.history) = s.made
    omega

theorem Reuse.construct : Reuse construct where
  inv := Inv.construct
  free_chain := rfl
  mem_handedOut _ := ⟨fun hn => absurd hn List.not_mem_nil, fun hn => absurd hn Bool.false_ne_true⟩
  nodup := List.nodup_nil
  made_eq := rfl
  peak_eq := rfl

theorem Reuse.reach (hs : slabPool.Reach Allowed s) : Reuse s := by
  refine hs.invariant Reuse.construct fun s a s' h ha hst => ?_
  cases hst
  cases a with
  | get => exact h.get
  | back node => exact h.back ha

/-- **`SlabPool` reuses before it allocates, and hands out no node twice.** In every run in which
`back` is given handed-out nodes, the node that `get` returns is not handed out; it is the last
returned node that is free, if there is one, and otherwise the one new node; and the nodes made
so far are as many as were ever handed out at one time. -/
theorem get_reuses (hs : slabPool.Reach Allowed s) :
    (∀ n, n ∈ handedOut s.history ↔ s.out n = true) ∧
      s.get.2 ∉ handedOut s.history ∧
      (∀ n, (freed s.history).head? = some n → s.get.2 = n ∧ s.get.1.made = s.made) ∧
      (freed s.history = [] → s.get.2 = s.made + 1 ∧ s.get.1.made = s.made + 1) ∧
      s.made = peak s.history := by
  have h := Reuse.reach hs
  refine ⟨h.mem_handedOut, ?_, fun n hn => ?_, fun hnil => ?_, h.peak_eq.symm⟩
  · show s.take.2 ∉ handedOut s.history
    rw [h.mem_handedOut, h.inv.take.2.1]
    exact Bool.false_ne_true
  · show s.take.2 = n ∧ s.take.1.made = s.made
    rcases h.take_eq with ⟨r, hr, hmade, -⟩ | ⟨hnil, -, -, -⟩
    · rw [hr] at hn
      exact ⟨Option.some.inj hn, hmade⟩
    · rw [hnil] at hn
      cases hn
  · show s.take.2 = s.made + 1 ∧ s.take.1.made = s.made + 1
    rcases h.take_eq with ⟨r, hr, -, -⟩ | ⟨-, hnew, hmade, -⟩
    · rw [hr] at hnil
      cases hnil
    · exact ⟨hnew, hmade⟩

/-- Two nodes are handed out and returned, and the last one comes back first. -/
theorem get_reuses_two :
    ∃ s, slabPool.Reach Allowed s ∧ freed s.history = [1, 2] ∧ s.get.2 = 1 ∧
      s.made = peak s.history := by
  have hrun := slabPool.reach_of_run Allowed [.get, .get, .back 2, .back 1] rfl
  have h := get_reuses hrun
  exact ⟨_, hrun, rfl, (h.2.2.1 1 rfl).1, h.2.2.2.2⟩

end SlabPool

end Naesala
