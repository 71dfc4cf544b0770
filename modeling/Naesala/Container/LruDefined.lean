import Mathlib.Data.List.Basic
import Mathlib.Data.List.Nodup
import Naesala.Container.LruProof

/-!
# Where the list operations of `LRU` are defined

`splice` needs a node, and a place that is not among the nodes it moves; `back` and `pop_back`
need a node in the list. A node that the index names is on the list once, so the place behind it
is not before it, and the splices are always defined. `Set` of a new key looks for the last node
when the cache is full, and a cache of capacity `0` is full when it is empty.

**Theorem (`defined_iff`).** In every state that calls reach, for every capacity, the index and
the list are in step, and the next call is defined unless it is a `Set` and the capacity is `0`.
-/

namespace Naesala

namespace Lru

variable {K V : Type} [DecidableEq K] {s : Lru K V} {key : K} {ite : ℕ} {value : V}

/-- The index has exactly the keys of the list, each of which is there once, and each entry
points at the node with its key; there are at most `capacity_` nodes. -/
structure InStep (s : Lru K V) : Prop where
  mem_iff : ∀ key, key ∈ s.index ↔ key ∈ s.cache.map LruNode.first
  keys_nodup : (s.cache.map LruNode.first).Nodup
  ids_nodup : (s.cache.map LruNode.id).Nodup
  points : ∀ key ite, s.index.lookup key = some ite → ∃ n ∈ s.cache, n.id = ite ∧ n.first = key
  length_le : s.cache.length ≤ s.capacity

/-- The precondition of `cache.splice(std::next(ite, 1), cache, cache.begin(), ite)`: `ite` is a
node of the list, and what stands behind it is not among the nodes before it. -/
def SpliceDefined (cache : List (LruNode K V)) (ite : ℕ) : Prop :=
  ∃ before n after, cache = before ++ n :: after ∧ n.id = ite ∧
    (∀ m ∈ before, m.id ≠ ite) ∧ ∀ p ∈ after.head?, ∀ m ∈ before, m.id ≠ p.id

/-- The preconditions of the list operations of a call. -/
def Defined (s : Lru K V) : Call K V → Prop
  | .get key => ∀ ite, s.index.lookup key = some ite → SpliceDefined s.cache ite
  | .set key _ => (∀ ite, s.index.lookup key = some ite → SpliceDefined s.cache ite) ∧
    (key ∉ s.index → Multiset.card s.index.entries = s.capacity → s.cache ≠ [])

theorem Coherent.inStep (hC : Coherent s) : InStep s where
  mem_iff _ := hC.mem_iff
  keys_nodup := hC.keys_nodup
  ids_nodup := hC.ids_nodup
  points key ite hite := by
    obtain ⟨n, hn, hkey, hid⟩ := hC.lookup_iff.1 hite
    exact ⟨n, hn, hid, hkey⟩
  length_le := hC.length_le

/-- The splice of a hit is defined. -/
theorem Coherent.spliceDefined (hC : Coherent s) (hite : s.index.lookup key = some ite) :
    SpliceDefined s.cache ite := by
  obtain ⟨before, n, after, hsplit, -, hid, hother, -⟩ := hC.exists_splice hite
  refine ⟨before, n, after, hsplit, hid, fun m hm => hother m (List.mem_append_left _ hm), ?_⟩
  intro p hp m hm heq
  have hids := hC.ids_nodup
  rw [hsplit, List.map_append, List.map_cons] at hids
  have hin : p.id ∈ (after.map LruNode.id) := List.mem_map_of_mem (List.mem_of_mem_head? hp)
  exact (List.nodup_append.1 hids).2.2 _ (List.mem_map_of_mem hm) _
    (List.mem_cons_of_mem _ hin) heq

/-- A full cache has a last node, unless its capacity is `0`. -/
theorem Coherent.set_defined (hC : Coherent s) (hne : s.capacity ≠ 0) :
    s.Defined (.set key value) := by
  refine ⟨fun _ hite => hC.spliceDefined hite, fun _ hfull hnil => hne ?_⟩
  rw [hC.card_entries, hnil] at hfull
  exact hfull.symm

/-! ## Runs -/

variable {c notExist : ℕ} {o : Observed K V}

theorem not_defined_of_zero : ¬ (construct 0 notExist : Lru K V).Defined (.set key value) :=
  fun hdef => hdef.2 Finmap.notMem_empty rfl rfl

theorem step_set_zero : (lru K V 0 notExist).init.step (.set key value) = none := rfl

/-- A cache of capacity `0` stays as it is made: `Get` misses, and `Set` is undefined. -/
theorem eq_init_of_zero (hs : (lru K V 0 notExist).Reachable o) :
    o = (lru K V 0 notExist).init := by
  refine hs.invariant (I := fun o => o = (lru K V 0 notExist).init) rfl fun o a o' h _ hst => ?_
  subst h
  cases a with
  | get key =>
    cases hst
    rfl
  | set key value => cases hst

theorem Inv.reach_all (hs : (lru K V c notExist).Reachable o) : Inv c notExist o := by
  rcases Nat.eq_zero_or_pos c with rfl | hc
  · rw [eq_init_of_zero hs]
    exact Inv.init 0 notExist
  · exact Inv.reach hc hs

/-- **`LRU` is in step, and undefined exactly in a `Set` at capacity `0`.** For every capacity, in
every state that calls reach, the index has exactly the keys of the list, each once and with the
node of the key, and there are at most `c` nodes; the preconditions of the list operations of the
next call hold, and it has a result, exactly if the capacity is not `0` or the call is a `Get`. -/
theorem defined_iff (hs : (lru K V c notExist).Reachable o) :
    InStep o.lru ∧ o.lru.capacity = c ∧ ∀ a : Call K V,
      (o.lru.Defined a ↔ c ≠ 0 ∨ ∃ key, a = .get key) ∧
      ((o.step a).isSome ↔ c ≠ 0 ∨ ∃ key, a = .get key) := by
  have h := Inv.reach_all hs
  have hC := h.coherent
  refine ⟨hC.inStep, h.capacity, fun a => ?_⟩
  cases a with
  | get key =>
    refine ⟨⟨fun _ => Or.inr ⟨key, rfl⟩, fun _ _ hite => hC.spliceDefined hite⟩,
      ⟨fun _ => Or.inr ⟨key, rfl⟩, fun _ => ?_⟩⟩
    by_cases hkey : key ∈ o.lru.index
    · obtain ⟨before, n, after, -, -, hget⟩ := hC.get_of_mem hkey
      simp only [Observed.step, hget, Option.map_some, Option.isSome_some]
    · simp only [Observed.step, get_of_notMem hkey, Option.map_some, Option.isSome_some]
  | set key value =>
    have hor : (c ≠ 0 ∨ ∃ k, Call.set key value = .get k) ↔ c ≠ 0 := by
      refine ⟨fun hor => hor.resolve_right fun hget => ?_, Or.inl⟩
      obtain ⟨k, hk⟩ := hget
      cases hk
    rw [hor]
    rcases Nat.eq_zero_or_pos c with rfl | hc
    · -- the cache is empty, so its first `Set` would have to evict what is not there
      obtain rfl := eq_init_of_zero hs
      refine ⟨⟨fun hdef => absurd hdef not_defined_of_zero, fun hne => absurd rfl hne⟩,
        ⟨fun hsome => ?_, fun hne => absurd rfl hne⟩⟩
      rw [step_set_zero] at hsome
      cases hsome
    · obtain ⟨o', hst, -⟩ := h.step hc (.set key value)
      have hne : c ≠ 0 := Nat.ne_of_gt hc
      rw [hst]
      exact ⟨⟨fun _ => hne, fun _ => hC.set_defined (by rwa [h.capacity])⟩,
        ⟨fun _ => hne, fun _ => rfl⟩⟩

/-- A cache of capacity one, where a second key evicts the first. -/
theorem defined_iff_one :
    ∃ o : Observed ℕ ℕ, (lru ℕ ℕ 1 0).Reachable o ∧ o.touches = [2, 1] ∧ InStep o.lru ∧
      o.lru.Defined (.set 3 30) := by
  have hrun := (lru ℕ ℕ 1 0).reach_of_run (fun _ _ => True) [.set 1 10, .set 2 20] rfl
  have h := defined_iff hrun
  exact ⟨_, hrun, rfl, h.1, (h.2.2 (.set 3 30)).1.2 (Or.inl (by decide))⟩

/-- The first `Set` of a cache of capacity `0`. -/
theorem not_defined_first :
    ∃ o : Observed ℕ ℕ, (lru ℕ ℕ 0 0).Reachable o ∧ ¬ o.lru.Defined (.set 1 10) ∧
      o.step (.set 1 10) = none :=
  ⟨_, .init, not_defined_of_zero, step_set_zero⟩

end Lru

end Naesala
