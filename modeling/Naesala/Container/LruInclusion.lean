import Naesala.Container.LruProof

/-!
# A larger `LRU` has what a smaller one has

Two caches get the same calls. A call that hits only in the larger one reorders that one alone,
and the two make room at different times, so the caches run apart. What they keep is that the
pairs of the smaller cache are a sublist of the pairs of the larger one, and are all of them as
long as the smaller cache is not full.

**Theorem (`smaller_included`).** For capacities `1 ≤ c ≤ c'`, after any calls, each key of the
smaller cache is in the larger one with the same value and in the same order, and a `Get` that
hits in the smaller cache hits in the larger one with the same value.
-/

namespace Naesala

namespace Lru

variable {K V : Type} [DecidableEq K] {s s' : Lru K V} {key : K} {value : V}

/-! ## The pairs of a cache -/

/-- The keys with their values, the key used last in front. -/
def contents (s : Lru K V) : List (K × V) := s.cache.map fun n => (n.first, n.second)

omit [DecidableEq K] in
theorem map_fst_contents (s : Lru K V) : s.contents.map Prod.fst = s.cache.map LruNode.first := by
  rw [contents, List.map_map]
  rfl

omit [DecidableEq K] in
theorem length_contents (s : Lru K V) : s.contents.length = s.cache.length := List.length_map _

theorem Coherent.mem_contents (hC : Coherent s) :
    key ∈ s.index ↔ ∃ value, (key, value) ∈ s.contents := by
  rw [hC.mem_iff, ← map_fst_contents, List.mem_map]
  constructor
  · intro hp
    obtain ⟨⟨k, value⟩, hmem, rfl⟩ := hp
    exact ⟨value, hmem⟩
  · intro hp
    obtain ⟨value, hmem⟩ := hp
    exact ⟨(key, value), hmem, rfl⟩

omit [DecidableEq K] in
theorem Coherent.value_unique (hC : Coherent s) {value' : V} (h : (key, value) ∈ s.contents)
    (h' : (key, value') ∈ s.contents) : value = value' := by
  have hnodup := hC.keys_nodup
  rw [← map_fst_contents] at hnodup
  exact congrArg Prod.snd (List.inj_on_of_nodup_map hnodup h h' rfl)

/-- The pairs of the other keys. -/
def others (key : K) (l : List (K × V)) : List (K × V) := l.filter fun p => p.1 ≠ key

/-- The nodes around a node are those of the other keys. -/
theorem Coherent.contents_around (hC : Coherent s) {before after : List (LruNode K V)}
    {n : LruNode K V} (hsplit : s.cache = before ++ n :: after) :
    (before ++ after).map (fun n => (n.first, n.second)) = others n.first s.contents := by
  have hnodup := hC.keys_nodup
  rw [hsplit, List.map_append, List.map_cons, List.nodup_middle, List.nodup_cons,
    ← List.map_append] at hnodup
  have hother : ∀ m ∈ before ++ after, m.first ≠ n.first := by
    intro m hm heq
    exact hnodup.1 (heq ▸ List.mem_map_of_mem hm)
  have hkeep : others n.first ((before ++ after).map fun n => (n.first, n.second)) =
      (before ++ after).map fun n => (n.first, n.second) := by
    refine List.filter_eq_self.2 fun p hp => ?_
    obtain ⟨m, hm, rfl⟩ := List.mem_map.1 hp
    simpa using hother m hm
  rw [← hkeep, contents, hsplit]
  simp [others]

omit [DecidableEq K] in
theorem mem_of_split {before after : List (LruNode K V)} {n : LruNode K V}
    (hsplit : s.cache = before ++ n :: after) : (n.first, n.second) ∈ s.contents := by
  refine List.mem_map.2 ⟨n, ?_, rfl⟩
  rw [hsplit]
  exact List.mem_append_right _ List.mem_cons_self

/-! ## What a call does to the pairs -/

/-- A call, without its result. -/
def call (s : Lru K V) : Call K V → Option (Lru K V)
  | .get key => (s.get key).map Prod.fst
  | .set key value => s.set key value

/-- The value that a key has after a call that is about it. -/
def Call.valueAfter : Call K V → V → V
  | .get _, old => old
  | .set _ v, _ => v

/-- The key a call is about. -/
def Call.subject : Call K V → K
  | .get k => k
  | .set k _ => k

/-- **A call that hits** moves the pair of its key to the front. -/
theorem Coherent.call_hit (hC : Coherent s) (a : Call K V)
    (hmem : (a.subject, value) ∈ s.contents) :
    ∃ s', s.call a = some s' ∧ Coherent s' ∧ s'.capacity = s.capacity ∧
      s'.contents = (a.subject, a.valueAfter value) :: others a.subject s.contents ∧
      s'.contents.length = s.contents.length := by
  have hindex : a.subject ∈ s.index := hC.mem_contents.2 ⟨value, hmem⟩
  cases a with
  | get key =>
    have hkey : key ∈ s.index := hindex
    obtain ⟨before, n, after, hsplit, rfl, hget⟩ := hC.get_of_mem hkey
    have hvalue : n.second = value := hC.value_unique (mem_of_split hsplit) hmem
    refine ⟨_, by rw [call, hget]; rfl, hC.front hsplit n.second, rfl, ?_, ?_⟩
    · show (n.first, n.second) :: (before ++ after).map (fun n => (n.first, n.second)) = _
      rw [hC.contents_around hsplit, hvalue]
      rfl
    · rw [length_contents, length_contents, hsplit]
      exact List.perm_middle.symm.length_eq
  | set key value' =>
    have hkey : key ∈ s.index := hindex
    obtain ⟨before, n, after, hsplit, rfl, hset⟩ := hC.set_of_mem hkey value'
    refine ⟨_, by rw [call, hset], hC.front hsplit value', rfl, ?_, ?_⟩
    · show (n.first, value') :: (before ++ after).map (fun n => (n.first, n.second)) = _
      rw [hC.contents_around hsplit]
      rfl
    · rw [length_contents, length_contents, hsplit]
      exact (List.perm_middle (a := n)).symm.length_eq

theorem call_get_miss (hkey : key ∉ s.index) : s.call (.get key) = some s := by
  rw [call, get_of_notMem hkey]
  rfl

/-- **A `Set` that misses** cuts the list and puts its pair in front. -/
theorem Coherent.call_set_miss (hC : Coherent s) (hcap : 1 ≤ s.capacity) (hkey : key ∉ s.index)
    (value : V) :
    ∃ s', s.call (.set key value) = some s' ∧ Coherent s' ∧ s'.capacity = s.capacity ∧
      s'.contents = (key, value) :: s.contents.take (s.capacity - 1) := by
  obtain ⟨s', i, hset, hC', hcache, hcap', -⟩ := hC.set_of_notMem hcap hkey value
  refine ⟨s', hset, hC', hcap', ?_⟩
  rw [contents, hcache, List.map_cons, List.map_take]
  rfl

/-! ## Two caches -/

/-- The machine of two caches that get the same calls. -/
def both (K V : Type) [DecidableEq K] (c c' notExist notExist' : ℕ) :
    Machine (Lru K V × Lru K V) (Call K V) where
  init := (construct c notExist, construct c' notExist')
  step s a := do
    let small ← s.1.call a
    let large ← s.2.call a
    some (small, large)

/-- The pairs of the smaller cache are among those of the larger one, in the same order, and are
all of them as long as the smaller cache is not full. -/
structure Included (c c' : ℕ) (s : Lru K V × Lru K V) : Prop where
  small : Coherent s.1
  large : Coherent s.2
  capacity_small : s.1.capacity = c
  capacity_large : s.2.capacity = c'
  sublist : s.1.contents.Sublist s.2.contents
  eq_of_room : s.1.contents.length < c → s.1.contents = s.2.contents

variable {c c' notExist notExist' : ℕ} {p : Lru K V × Lru K V}

theorem Included.mem_large (h : Included c c' p) (hkey : key ∈ p.1.index) : key ∈ p.2.index := by
  obtain ⟨value, hmem⟩ := h.small.mem_contents.1 hkey
  exact h.large.mem_contents.2 ⟨value, h.sublist.subset hmem⟩

/-- Where the two caches run apart, the smaller one is full. -/
theorem Included.full_of_apart (h : Included c c' p) (hkey : key ∉ p.1.index)
    (hkey' : key ∈ p.2.index) : c ≤ p.1.contents.length := by
  refine Nat.le_of_not_lt fun hroom => hkey ?_
  obtain ⟨value, hmem⟩ := h.large.mem_contents.1 hkey'
  rw [← h.eq_of_room hroom] at hmem
  exact h.small.mem_contents.2 ⟨value, hmem⟩

theorem Included.sublist_others (h : Included c c' p) (hkey : key ∉ p.1.index) :
    p.1.contents.Sublist (others key p.2.contents) := by
  have hself : others key p.1.contents = p.1.contents := by
    refine List.filter_eq_self.2 fun q hq => ?_
    have hne : q.1 ≠ key := fun heq => hkey (h.small.mem_contents.2 ⟨q.2, heq ▸ hq⟩)
    simpa using hne
  rw [← hself]
  exact h.sublist.filter _

omit [DecidableEq K] in
theorem Included.sublist_take (h : Included c c' p) (hcc : c ≤ c') :
    (p.1.contents.take (c - 1)).Sublist (p.2.contents.take (c' - 1)) := by
  have hlen : p.2.contents.length ≤ c' := by
    rw [length_contents, ← h.capacity_large]
    exact h.large.length_le
  by_cases hroom : p.1.contents.length < c
  · rw [h.eq_of_room hroom]
    exact (List.take_prefix_take_left (by omega)).sublist
  · have hlen' : p.1.contents.length ≤ c := by
      rw [length_contents, ← h.capacity_small]
      exact h.small.length_le
    by_cases hfull : p.2.contents.length = c'
    · rw [← hfull, show c = p.1.contents.length by omega, ← List.dropLast_eq_take,
        ← List.dropLast_eq_take]
      have hdrop := h.sublist.reverse.tail.reverse
      rwa [List.tail_reverse, List.tail_reverse, List.reverse_reverse,
        List.reverse_reverse] at hdrop
    · rw [List.take_of_length_le (show p.2.contents.length ≤ c' - 1 by omega)]
      exact (List.take_sublist _ _).trans h.sublist

/-- **A call that hits in the smaller cache.** -/
theorem Included.hit (h : Included c c' p) (a : Call K V)
    (hmem : (a.subject, value) ∈ p.1.contents) :
    ∃ q, (both K V c c' notExist notExist').step p a = some q ∧ Included c c' q := by
  obtain ⟨s, hs, hC, hcap, hcontents, hlen⟩ := h.small.call_hit a hmem
  obtain ⟨s', hs', hC', hcap', hcontents', -⟩ := h.large.call_hit a (h.sublist.subset hmem)
  refine ⟨(s, s'), ?_, hC, hC', hcap.trans h.capacity_small, hcap'.trans h.capacity_large, ?_, ?_⟩
  · simp only [both, hs, hs', Option.bind_eq_bind, Option.bind_some]
  · show s.contents.Sublist s'.contents
    rw [hcontents, hcontents']
    exact (h.sublist.filter _).cons_cons _
  · show s.contents.length < c → s.contents = s'.contents
    intro hroom
    rw [hcontents, hcontents', h.eq_of_room (by rwa [← hlen])]

/-- **A `Get` that misses in the smaller cache** may still reorder the larger one. -/
theorem Included.get_miss (h : Included c c' p) (hkey : key ∉ p.1.index) :
    ∃ q, (both K V c c' notExist notExist').step p (.get key) = some q ∧ Included c c' q := by
  have hs := call_get_miss hkey
  by_cases hkey' : key ∈ p.2.index
  · obtain ⟨value, hmem⟩ := h.large.mem_contents.1 hkey'
    obtain ⟨s', hs', hC', hcap', hcontents', -⟩ := h.large.call_hit (.get key) hmem
    refine ⟨(p.1, s'), ?_, h.small, hC', h.capacity_small, hcap'.trans h.capacity_large, ?_, ?_⟩
    · simp only [both, hs, hs', Option.bind_eq_bind, Option.bind_some]
    · show p.1.contents.Sublist s'.contents
      rw [hcontents']
      exact (h.sublist_others hkey).cons _
    · intro hroom
      exact absurd (h.full_of_apart hkey hkey') (Nat.not_le_of_lt hroom)
  · refine ⟨p, ?_, h⟩
    simp only [both, hs, call_get_miss hkey', Option.bind_eq_bind, Option.bind_some]

/-- **A `Set` that misses in the smaller cache**, whether or not it hits in the larger one. -/
theorem Included.set_miss (h : Included c c' p) (hc : 1 ≤ c) (hcc : c ≤ c')
    (hkey : key ∉ p.1.index) (value : V) :
    ∃ q, (both K V c c' notExist notExist').step p (.set key value) = some q ∧
      Included c c' q := by
  obtain ⟨s, hs, hC, hcap, hcontents⟩ :=
    h.small.call_set_miss (by rw [h.capacity_small]; exact hc) hkey value
  rw [h.capacity_small] at hcontents
  by_cases hkey' : key ∈ p.2.index
  · obtain ⟨old, hmem⟩ := h.large.mem_contents.1 hkey'
    obtain ⟨s', hs', hC', hcap', hcontents', -⟩ := h.large.call_hit (.set key value) hmem
    refine ⟨(s, s'), ?_, hC, hC', hcap.trans h.capacity_small, hcap'.trans h.capacity_large,
      ?_, ?_⟩
    · simp only [both, hs, hs', Option.bind_eq_bind, Option.bind_some]
    · show s.contents.Sublist s'.contents
      rw [hcontents, hcontents']
      exact ((List.take_sublist _ _).trans (h.sublist_others hkey)).cons_cons _
    · show s.contents.length < c → s.contents = s'.contents
      intro hroom
      have hfull := h.full_of_apart hkey hkey'
      rw [hcontents, List.length_cons, List.length_take] at hroom
      omega
  · obtain ⟨s', hs', hC', hcap', hcontents'⟩ :=
      h.large.call_set_miss (by rw [h.capacity_large]; omega) hkey' value
    rw [h.capacity_large] at hcontents'
    refine ⟨(s, s'), ?_, hC, hC', hcap.trans h.capacity_small, hcap'.trans h.capacity_large,
      ?_, ?_⟩
    · simp only [both, hs, hs', Option.bind_eq_bind, Option.bind_some]
    · show s.contents.Sublist s'.contents
      rw [hcontents, hcontents']
      exact (h.sublist_take hcc).cons_cons _
    · show s.contents.length < c → s.contents = s'.contents
      intro hroom
      rw [hcontents, List.length_cons, List.length_take] at hroom
      rw [hcontents, hcontents', ← h.eq_of_room (by omega), List.take_of_length_le (by omega),
        List.take_of_length_le (by omega)]

/-- **A call is defined on both caches and keeps the inclusion.** -/
theorem Included.step (h : Included c c' p) (hc : 1 ≤ c) (hcc : c ≤ c') (a : Call K V) :
    ∃ q, (both K V c c' notExist notExist').step p a = some q ∧ Included c c' q := by
  by_cases hkey : a.subject ∈ p.1.index
  · obtain ⟨value, hmem⟩ := h.small.mem_contents.1 hkey
    exact h.hit a hmem
  · cases a with
    | get key => exact h.get_miss hkey
    | set key value => exact h.set_miss hc hcc hkey value

theorem Included.init (c c' notExist notExist' : ℕ) :
    Included c c' (both K V c c' notExist notExist').init where
  small := ⟨rfl, List.nodup_nil, fun _ hn => absurd hn List.not_mem_nil, Nat.zero_le _⟩
  large := ⟨rfl, List.nodup_nil, fun _ hn => absurd hn List.not_mem_nil, Nat.zero_le _⟩
  capacity_small := rfl
  capacity_large := rfl
  sublist := List.Sublist.refl _
  eq_of_room _ := rfl

theorem Included.reach (hc : 1 ≤ c) (hcc : c ≤ c')
    (hp : (both K V c c' notExist notExist').Reachable p) : Included c c' p := by
  refine hp.invariant (Included.init c c' notExist notExist') fun p a q h _ hst => ?_
  obtain ⟨q', hst', h'⟩ := h.step hc hcc a
  rw [hst'] at hst
  cases hst
  exact h'

/-- What a `Get` that hits returns: a reference to a node with the value of the key. -/
theorem Coherent.get_eq (hC : Coherent s) (hmem : (key, value) ∈ s.contents) :
    ∃ s' r, s.get key = some (s', r) ∧ ∀ objects, r.read objects s' = some value := by
  obtain ⟨before, n, after, hsplit, rfl, hget⟩ := hC.get_of_mem (hC.mem_contents.2 ⟨value, hmem⟩)
  refine ⟨_, _, hget, fun objects => ?_⟩
  rw [← hC.value_unique (mem_of_split hsplit) hmem]
  exact Ref.read_front objects rfl

/-- **A larger cache never loses a hit.** After any calls on a cache of capacity `c ≥ 1` and one
of capacity `c' ≥ c`, the next call is defined on both, the keys of the smaller cache are in the
larger one in the same order, and a `Get` of such a key returns the same value from both. -/
theorem smaller_included (hc : 1 ≤ c) (hcc : c ≤ c')
    (hp : (both K V c c' notExist notExist').Reachable p) :
    (∀ a, ((both K V c c' notExist notExist').step p a).isSome) ∧
      (p.1.cache.map LruNode.first).Sublist (p.2.cache.map LruNode.first) ∧
      (∀ n ∈ p.1.cache, ∃ n' ∈ p.2.cache, n'.first = n.first ∧ n'.second = n.second) ∧
      ∀ key ∈ p.1.index, key ∈ p.2.index ∧ ∃ value s s' r r',
        p.1.get key = some (s, r) ∧ p.2.get key = some (s', r') ∧
          ∀ objects, r.read objects s = some value ∧ r'.read objects s' = some value := by
  have h := Included.reach hc hcc hp
  refine ⟨?_, ?_, ?_, ?_⟩
  · intro a
    obtain ⟨q, hq, -⟩ := h.step hc hcc a
    rw [hq]
    rfl
  · rw [← map_fst_contents, ← map_fst_contents]
    exact h.sublist.map _
  · intro n hn
    have hmem : (n.first, n.second) ∈ p.2.contents :=
      h.sublist.subset (List.mem_map_of_mem hn)
    obtain ⟨n', hn', heq⟩ := List.mem_map.1 hmem
    exact ⟨n', hn', congrArg Prod.fst heq, congrArg Prod.snd heq⟩
  · intro key hkey
    obtain ⟨value, hmem⟩ := h.small.mem_contents.1 hkey
    obtain ⟨s, r, hget, hread⟩ := h.small.get_eq hmem
    obtain ⟨s', r', hget', hread'⟩ := h.large.get_eq (h.sublist.subset hmem)
    exact ⟨h.mem_large hkey, value, s, s', r, r', hget, hget',
      fun objects => ⟨hread objects, hread' objects⟩⟩

/-- With capacities one and two, after `Set` of `1`, `Set` of `2` and `Get` of `1`, which misses
in the smaller cache, both caches have `2`. -/
theorem smaller_included_one_two :
    ∃ p : Lru ℕ ℕ × Lru ℕ ℕ, (both ℕ ℕ 1 2 0 0).Reachable p ∧ 2 ∈ p.1.index ∧ 1 ∉ p.1.index ∧
      ∃ value s s' r r', p.1.get 2 = some (s, r) ∧ p.2.get 2 = some (s', r') ∧
        ∀ objects, r.read objects s = some value ∧ r'.read objects s' = some value := by
  have hrun := (both ℕ ℕ 1 2 0 0).reach_of_run (fun _ _ => True)
    [.set 1 10, .set 2 20, .get 1] rfl
  have hincl := smaller_included (by decide) (by decide) hrun
  exact ⟨_, hrun, by decide, by decide, (hincl.2.2.2 2 (by decide)).2⟩

end Lru

end Naesala
