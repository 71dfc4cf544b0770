import Naesala.Container.Lru
import Naesala.Library.Pairs
import Naesala.Library.Recency

/-!
# `LRU` keeps the keys used last

`Coherent` is what ties `index_` to `cache_`: the index has one entry for each node, with its
key and its address. Under it an operation is what it should be on the list of nodes: a hit
moves a node to the front, a miss of `Set` cuts the list to make room and puts a node in front.
The keys of the list are therefore the first ones of the recency order of all touches.

**Theorem (`get_eq_expected`).** In every run of a program with a cache of capacity `c ≥ 1`, every
call is defined. `Get` of a key returns the value of its last `Set` if fewer than `c` other keys
have been touched since the key was, and the not-exist value otherwise, as long as the object that
the constructor was given outlives the cache with its value. Where it does not, a `Get` that misses
reads an object that is dead or has another value.
-/

namespace Naesala

namespace Lru

open Recency

variable {K V : Type} [DecidableEq K] {s s' : Lru K V} {key : K} {value : V} {ite : ℕ}
variable {before after : List (LruNode K V)} {n : LruNode K V}

/-! ## The index and the list -/

/-- The index entry of a node. -/
def entry (n : LruNode K V) : K × ℕ := (n.first, n.id)

/-- The index has the entries of the nodes, which are at most `capacity_`. -/
structure Coherent (s : Lru K V) : Prop where
  pairs : (s.cache.map entry : Multiset (K × ℕ)) = s.index.pairs id
  ids_nodup : (s.cache.map LruNode.id).Nodup
  ids_lt : ∀ n ∈ s.cache, n.id < s.nextId
  length_le : s.cache.length ≤ s.capacity

theorem Coherent.lookup_iff (hC : Coherent s) :
    s.index.lookup key = some ite ↔ ∃ n ∈ s.cache, n.first = key ∧ n.id = ite := by
  have hpair : (key, ite) ∈ s.index.pairs id ↔ s.index.lookup key = some ite := by
    rw [Finmap.mem_pairs]
    simp
  rw [← hpair, ← hC.pairs, Multiset.mem_coe, List.mem_map]
  simp [entry]

theorem Coherent.mem_iff (hC : Coherent s) :
    key ∈ s.index ↔ key ∈ s.cache.map LruNode.first := by
  rw [Finmap.mem_iff, List.mem_map]
  constructor
  · intro hp
    obtain ⟨ite, hite⟩ := hp
    obtain ⟨n, hn, hkey, -⟩ := hC.lookup_iff.1 hite
    exact ⟨n, hn, hkey⟩
  · intro hp
    obtain ⟨n, hn, hkey⟩ := hp
    exact ⟨n.id, hC.lookup_iff.2 ⟨n, hn, hkey, rfl⟩⟩

omit [DecidableEq K] in
theorem Coherent.card_entries (hC : Coherent s) :
    Multiset.card s.index.entries = s.cache.length := by
  rw [← Finmap.card_pairs id, ← hC.pairs, Multiset.coe_card, List.length_map]

omit [DecidableEq K] in
theorem Coherent.keys_nodup (hC : Coherent s) : (s.cache.map LruNode.first).Nodup := by
  have hnodup := Finmap.nodup_map_fst_pairs id s.index
  rw [← hC.pairs, Multiset.map_coe, Multiset.coe_nodup, List.map_map] at hnodup
  exact hnodup

/-! ## Splicing -/

omit [DecidableEq K] in
theorem spliceFront_eq (hbefore : ∀ m ∈ before, m.id ≠ n.id) (after : List (LruNode K V)) :
    spliceFront (before ++ n :: after) n.id = some (n :: (before ++ after)) := by
  have hspan : (before ++ n :: after).span (fun m => m.id ≠ n.id) = (before, n :: after) := by
    rw [List.span_eq_takeWhile_dropWhile, List.takeWhile_append_of_pos,
      List.dropWhile_append_of_pos]
    · simp
    · simpa using hbefore
    · simpa using hbefore
  unfold spliceFront
  rw [hspan]

/-- The node of a key in the index, and the splice that moves it to the front. -/
theorem Coherent.exists_splice (hC : Coherent s) (hite : s.index.lookup key = some ite) :
    ∃ before n after, s.cache = before ++ n :: after ∧ n.first = key ∧ n.id = ite ∧
      (∀ m ∈ before ++ after, m.id ≠ ite) ∧
      spliceFront s.cache ite = some (n :: (before ++ after)) := by
  obtain ⟨n, hn, hkey, rfl⟩ := hC.lookup_iff.1 hite
  obtain ⟨before, after, hsplit⟩ := List.append_of_mem hn
  have hids := hC.ids_nodup
  rw [hsplit, List.map_append, List.map_cons, List.nodup_middle, List.nodup_cons,
    ← List.map_append] at hids
  have hother : ∀ m ∈ before ++ after, m.id ≠ n.id := by
    intro m hm heq
    exact hids.1 (List.mem_map.2 ⟨m, hm, heq⟩)
  refine ⟨before, n, after, hsplit, hkey, rfl, hother, ?_⟩
  rw [hsplit]
  exact spliceFront_eq (fun m hm => hother m (List.mem_append_left _ hm)) after

omit [DecidableEq K] in
theorem Coherent.front (hC : Coherent s) (hsplit : s.cache = before ++ n :: after) (value : V) :
    Coherent { s with cache := { n with second := value } :: (before ++ after) } := by
  have hperm : ∀ {β : Type} (f : LruNode K V → β), f { n with second := value } = f n →
      (({ n with second := value } :: (before ++ after)).map f).Perm (s.cache.map f) := by
    intro β f hf
    rw [List.map_cons, hf, hsplit, ← List.map_cons]
    exact List.perm_middle.symm.map f
  refine ⟨?_, ?_, fun m hm => ?_, ?_⟩
  · rw [← hC.pairs]
    exact Multiset.coe_eq_coe.2 (hperm entry rfl)
  · exact (hperm LruNode.id rfl).nodup_iff.2 hC.ids_nodup
  · have hid : m.id ∈ s.cache.map LruNode.id :=
      (hperm LruNode.id rfl).subset (List.mem_map_of_mem hm)
    obtain ⟨m', hm', heq⟩ := List.mem_map.1 hid
    rw [← heq]
    exact hC.ids_lt m' hm'
  · have hlen := (hperm LruNode.id rfl).length_eq
    rw [List.length_map, List.length_map] at hlen
    show ({ n with second := value } :: (before ++ after)).length ≤ s.capacity
    rw [hlen]
    exact hC.length_le

/-- **What a `Get` that hits does.** -/
theorem Coherent.get_of_mem (hC : Coherent s) (hkey : key ∈ s.index) :
    ∃ before n after, s.cache = before ++ n :: after ∧ n.first = key ∧
      s.get key = some ({ s with cache := n :: (before ++ after) }, .node n.id) := by
  obtain ⟨ite, hite⟩ := Finmap.mem_iff.1 hkey
  obtain ⟨before, n, after, hsplit, hfirst, hid, -, hsplice⟩ := hC.exists_splice hite
  refine ⟨before, n, after, hsplit, hfirst, ?_⟩
  unfold get
  rw [hite, hid]
  simp only [hsplice, Option.bind_eq_bind, Option.bind_some]

/-- **What a `Get` that misses does.** -/
theorem get_of_notMem (hkey : key ∉ s.index) : s.get key = some (s, .object s.kNotExist) := by
  unfold get
  rw [Finmap.lookup_eq_none.2 hkey]

omit [DecidableEq K] in
theorem Ref.read_front (objects : ℕ → Option V) (hcache : s.cache = n :: after) :
    (Ref.node n.id).read objects s = some n.second := by
  have hfind : s.cache.find? (fun m => m.id = n.id) = some n := by
    rw [hcache]
    exact List.find?_cons_of_pos (decide_eq_true rfl)
  rw [Ref.read, hfind, Option.map_some]

/-- **What a `Set` of a key in the cache does.** -/
theorem Coherent.set_of_mem (hC : Coherent s) (hkey : key ∈ s.index) (value : V) :
    ∃ before n after, s.cache = before ++ n :: after ∧ n.first = key ∧
      s.set key value =
        some { s with cache := { n with second := value } :: (before ++ after) } := by
  obtain ⟨ite, hite⟩ := Finmap.mem_iff.1 hkey
  obtain ⟨before, n, after, hsplit, hfirst, hid, hother, hsplice⟩ := hC.exists_splice hite
  refine ⟨before, n, after, hsplit, hfirst, ?_⟩
  have hassign : assign (n :: (before ++ after)) ite value =
      { n with second := value } :: (before ++ after) := by
    rw [assign, List.map_cons, if_pos hid]
    congr 1
    refine (List.map_congr_left fun m hm => ?_).trans (List.map_id _)
    rw [if_neg (hother m hm)]
    rfl
  unfold set
  rw [hite]
  simp only [hsplice, hassign, Option.bind_eq_bind, Option.bind_some]

/-! ## Making room -/

theorem Coherent.dropLast (hC : Coherent s) {init : List (LruNode K V)}
    (hsplit : s.cache = init ++ [n]) :
    Coherent { s with index := s.index.erase n.first, cache := init } := by
  have hmem : n ∈ s.cache := by simp [hsplit]
  have hlookup : s.index.lookup n.first = some n.id := hC.lookup_iff.2 ⟨n, hmem, rfl, rfl⟩
  have hsub : init.Sublist s.cache := by
    rw [hsplit]
    exact List.sublist_append_left _ _
  refine ⟨?_, hC.ids_nodup.sublist (hsub.map _), fun m hm => hC.ids_lt m (hsub.subset hm),
    hsub.length_le.trans hC.length_le⟩
  have hpairs := hC.pairs
  rw [Finmap.pairs_of_lookup id hlookup, hsplit, List.map_append, ← Multiset.coe_add,
    List.map_singleton, Multiset.coe_singleton, add_comm, Multiset.singleton_add] at hpairs
  exact (Multiset.cons_inj_right _).1 hpairs

/-- **What making room does**: it keeps all but the last of a full cache. -/
theorem Coherent.evict (hC : Coherent s) (hcap : 1 ≤ s.capacity) :
    ∃ s', s.evict = some s' ∧ Coherent s' ∧ s'.cache = s.cache.take (s.capacity - 1) ∧
      s'.capacity = s.capacity ∧ s'.kNotExist = s.kNotExist := by
  have hlen := hC.length_le
  unfold Lru.evict
  rw [hC.card_entries]
  by_cases hfull : s.cache.length = s.capacity
  · rw [if_pos hfull]
    rcases List.eq_nil_or_concat s.cache with hnil | ⟨init, n, hsplit⟩
    · rw [hnil, List.length_nil] at hfull
      omega
    · rw [List.concat_eq_append] at hsplit
      have hinit : s.cache.dropLast = init := by rw [hsplit, List.dropLast_concat]
      have hlast : s.cache.getLast? = some n := by rw [hsplit, List.getLast?_concat]
      refine ⟨_, ?_, hC.dropLast hsplit, ?_, rfl, rfl⟩
      · rw [hlast, hinit]
        rfl
      · rw [← hinit, List.dropLast_eq_take, hfull]
  · rw [if_neg hfull]
    exact ⟨s, rfl, hC, (List.take_of_length_le (by omega)).symm, rfl, rfl⟩

theorem Coherent.emplaceFront (hC : Coherent s) (hkey : key ∉ s.index)
    (hroom : s.cache.length < s.capacity) (value : V) :
    Coherent (s.emplaceFront key value) := by
  have hindex : (s.emplaceFront key value).index = s.index.insert key s.nextId := if_neg hkey
  refine ⟨?_, ?_, fun m hm => ?_, hroom⟩
  · rw [hindex, Finmap.pairs_insert_of_notMem id hkey, ← hC.pairs]
    rfl
  · show (s.nextId :: s.cache.map LruNode.id).Nodup
    refine List.nodup_cons.2 ⟨fun hid => ?_, hC.ids_nodup⟩
    obtain ⟨m, hm, heq⟩ := List.mem_map.1 hid
    have := hC.ids_lt m hm
    omega
  · show m.id < s.nextId + 1
    rcases List.mem_cons.1 hm with rfl | hm
    · exact Nat.lt_succ_self _
    · exact Nat.lt_succ_of_lt (hC.ids_lt m hm)

/-- **What a `Set` of a key not in the cache does.** -/
theorem Coherent.set_of_notMem (hC : Coherent s) (hcap : 1 ≤ s.capacity) (hkey : key ∉ s.index)
    (value : V) :
    ∃ s' i, s.set key value = some s' ∧ Coherent s' ∧
      s'.cache = ⟨i, key, value⟩ :: s.cache.take (s.capacity - 1) ∧
      s'.capacity = s.capacity ∧ s'.kNotExist = s.kNotExist := by
  obtain ⟨s₁, hevict, hC₁, hcache, hcap₁, hne⟩ := hC.evict hcap
  have hkey₁ : key ∉ s₁.index := by
    rw [hC₁.mem_iff, hcache]
    rw [hC.mem_iff] at hkey
    exact fun hmem => hkey (((List.take_sublist _ _).map _).subset hmem)
  have hroom : s₁.cache.length < s₁.capacity := by
    rw [hcache, hcap₁, List.length_take]
    omega
  refine ⟨s₁.emplaceFront key value, s₁.nextId, ?_, hC₁.emplaceFront hkey₁ hroom value, ?_, hcap₁,
    hne⟩
  · unfold set
    rw [Finmap.lookup_eq_none.2 hkey]
    simp only [hevict, Option.map_some]
  · rw [← hcache]
    rfl

/-! ## Runs -/

/-- The value that `Get` should return, from what the calls so far have done. -/
def Observed.expected (c : ℕ) (notExist : V) (o : Observed K V) (key : K) : V :=
  match o.lastSet key with
  | some value => if (o.touches.takeWhile (· ≠ key)).toFinset.card < c then value else notExist
  | none => notExist

/-- The cache holds the `c` keys touched last, in this order, with the values of their last
`Set`. -/
structure Inv (c notExist : ℕ) (o : Observed K V) : Prop where
  coherent : Coherent o.lru
  capacity : o.lru.capacity = c
  kNotExist : o.lru.kNotExist = notExist
  recent : o.lru.cache.map LruNode.first = (recency o.touches).take c
  value : ∀ n ∈ o.lru.cache, o.lastSet n.first = some n.second
  touched_iff : ∀ key, key ∈ o.touches ↔ (o.lastSet key).isSome

variable {c notExist : ℕ} {o o' : Observed K V}

theorem Inv.mem_iff (h : Inv c notExist o) :
    key ∈ o.lru.index ↔ key ∈ (recency o.touches).take c := by
  rw [h.coherent.mem_iff, h.recent]

/-- The keys after a hit. -/
theorem Inv.front_keys (h : Inv c notExist o) (hkey : n.first ∈ o.lru.index)
    (hsplit : o.lru.cache = before ++ n :: after) :
    n.first :: (before ++ after).map LruNode.first = (recency (n.first :: o.touches)).take c := by
  rw [take_recency_cons_of_mem (h.mem_iff.1 hkey), ← h.recent]
  have hnodup := h.coherent.keys_nodup
  rw [hsplit] at hnodup ⊢
  rw [List.map_append, List.map_cons, List.nodup_middle, List.nodup_cons, List.mem_append,
    not_or] at hnodup
  rw [List.map_append, List.map_append, List.map_cons,
    List.erase_append_right _ hnodup.1.1, List.erase_cons_head]

/-- **A call is defined and keeps the invariant.** -/
theorem Inv.step (h : Inv c notExist o) (hc : 1 ≤ c) (a : Call K V) :
    ∃ o', o.step a = some o' ∧ Inv c notExist o' := by
  have hC := h.coherent
  cases a with
  | get key =>
    by_cases hkey : key ∈ o.lru.index
    · obtain ⟨before, n, after, hsplit, rfl, hget⟩ := hC.get_of_mem hkey
      have hstep : o.step (.get n.first) = some ⟨{ o.lru with cache := n :: (before ++ after) },
          n.first :: o.touches, o.lastSet⟩ := by
        simp only [Observed.step, hget, Option.map_some, if_pos hkey]
      refine ⟨_, hstep, hC.front hsplit n.second, h.capacity, h.kNotExist,
        h.front_keys hkey hsplit, fun m hm => h.value m ?_, fun k => ?_⟩
      · rw [hsplit]
        exact List.perm_middle.symm.subset hm
      · rw [List.mem_cons, ← h.touched_iff]
        -- a key in the cache has been touched before
        have hmem : n.first ∈ o.touches :=
          (mem_take_recency_iff.1 (h.mem_iff.1 hkey)).1
        constructor
        · intro hor
          rcases hor with rfl | hk
          · exact hmem
          · exact hk
        · exact Or.inr
    · refine ⟨o, ?_, h⟩
      simp only [Observed.step, get_of_notMem hkey, Option.map_some, if_neg hkey]
  | set key value =>
    have htouched : ∀ k, k ∈ key :: o.touches ↔
        (Function.update o.lastSet key (some value) k).isSome := by
      intro k
      rw [List.mem_cons, h.touched_iff]
      by_cases hk : k = key
      · simp [hk]
      · simp [hk]
    by_cases hkey : key ∈ o.lru.index
    · obtain ⟨before, n, after, hsplit, rfl, hset⟩ := hC.set_of_mem hkey value
      have hstep : o.step (.set n.first value) =
          some ⟨{ o.lru with cache := { n with second := value } :: (before ++ after) },
            n.first :: o.touches, Function.update o.lastSet n.first (some value)⟩ := by
        simp only [Observed.step, hset, Option.map_some]
      refine ⟨_, hstep, hC.front hsplit value, h.capacity, h.kNotExist,
        h.front_keys (n := n) hkey hsplit, fun m hm => ?_, htouched⟩
      rcases List.mem_cons.1 hm with rfl | hm
      · exact Function.update_self _ _ _
      · -- the other nodes have other keys, so their values are still the last ones
        have hnodup := hC.keys_nodup
        rw [hsplit, List.map_append, List.map_cons, List.nodup_middle, List.nodup_cons,
          ← List.map_append] at hnodup
        have hne : m.first ≠ n.first := by
          intro heq
          exact hnodup.1 (heq ▸ List.mem_map_of_mem hm)
        show Function.update o.lastSet n.first (some value) m.first = some m.second
        rw [Function.update_of_ne hne]
        refine h.value m ?_
        rw [hsplit]
        exact List.perm_middle.symm.subset (List.mem_cons_of_mem _ hm)
    · have hcap : 1 ≤ o.lru.capacity := by rw [h.capacity]; exact hc
      obtain ⟨s', i, hset, hC', hcache, hcap', hne'⟩ := hC.set_of_notMem hcap hkey value
      have hstep : o.step (.set key value) =
          some ⟨s', key :: o.touches, Function.update o.lastSet key (some value)⟩ := by
        simp only [Observed.step, hset, Option.map_some]
      refine ⟨_, hstep, hC', hcap'.trans h.capacity, hne'.trans h.kNotExist, ?_, fun m hm => ?_,
        htouched⟩
      · -- the first `c - 1` of the keys are left, and `key` is in front of them
        rw [take_recency_cons_of_notMem hc fun hmem => hkey (h.mem_iff.2 hmem), hcache,
          List.map_cons, List.map_take, h.recent, h.capacity, List.take_take,
          min_eq_left (Nat.sub_le c 1)]
      · rw [hcache] at hm
        rcases List.mem_cons.1 hm with rfl | hm
        · exact Function.update_self _ _ _
        · have hmem : m ∈ o.lru.cache := (List.take_sublist _ _).subset hm
          have hne : m.first ≠ key := by
            intro heq
            exact hkey (hC.mem_iff.2 (heq ▸ List.mem_map_of_mem hmem))
          show Function.update o.lastSet key (some value) m.first = some m.second
          rw [Function.update_of_ne hne]
          exact h.value m hmem

theorem Inv.init (c notExist : ℕ) : Inv c notExist (lru K V c notExist).init where
  coherent := ⟨rfl, List.nodup_nil, fun _ hn => absurd hn List.not_mem_nil, Nat.zero_le _⟩
  capacity := rfl
  kNotExist := rfl
  recent := (List.take_nil).symm
  value _ hn := absurd hn List.not_mem_nil
  touched_iff key := by simp [lru]

theorem Inv.reach (hc : 1 ≤ c) (hs : (lru K V c notExist).Reachable o) : Inv c notExist o := by
  refine hs.invariant (Inv.init c notExist) fun o a o' h _ hst => ?_
  obtain ⟨o'', hst', h'⟩ := h.step hc a
  rw [show (lru K V c notExist).step o a = o.step a from rfl, hst'] at hst
  cases hst
  exact h'

/-! ## The program around the cache -/

/-- **The condition.** A step leaves the object alone that the cache refers to. -/
def Outlives (notExist : ℕ) (_ : Client K V) (a : Client.Action K V) : Prop :=
  a.object? ≠ some notExist

instance (notExist : ℕ) (p : Client K V) (a : Client.Action K V) :
    Decidable (Outlives notExist p a) :=
  inferInstanceAs (Decidable (a.object? ≠ some notExist))

/-- The next `Get` of the key returns a reference to the expected value. -/
def Client.Answers (c : ℕ) (v : V) (p : Client K V) (key : K) : Prop :=
  ∃ s r, p.observed.lru.get key = some (s, r) ∧
    r.read p.objects s = some (p.observed.expected c v key)

variable {objects : ℕ → Option V} {v : V} {p q : Client K V} {a : Client.Action K V}

/-- A step of the program is a call on the cache, or does not concern it. -/
theorem Client.step_observed (hst : p.step a = some q) :
    (∃ call, p.observed.step call = some q.observed) ∨ q.observed = p.observed := by
  cases a with
  | call call =>
    obtain ⟨o, ho, rfl⟩ := Option.map_eq_some_iff.1 hst
    exact .inl ⟨call, ho⟩
  | create addr value =>
    obtain ⟨-, hq⟩ := Option.ite_none_right_eq_some.1 hst
    cases hq
    exact .inr rfl
  | write addr value =>
    obtain ⟨-, hq⟩ := Option.ite_none_right_eq_some.1 hst
    cases hq
    exact .inr rfl
  | finish addr =>
    obtain ⟨-, hq⟩ := Option.ite_none_right_eq_some.1 hst
    cases hq
    exact .inr rfl

theorem Client.step_objects {addr : ℕ} (ha : a.object? ≠ some addr) (hst : p.step a = some q) :
    q.objects addr = p.objects addr := by
  cases a with
  | call call =>
    obtain ⟨o, -, rfl⟩ := Option.map_eq_some_iff.1 hst
    rfl
  | create other value =>
    obtain ⟨-, hq⟩ := Option.ite_none_right_eq_some.1 hst
    cases hq
    exact Function.update_of_ne (fun heq => ha (congrArg some heq.symm)) _ _
  | write other value =>
    obtain ⟨-, hq⟩ := Option.ite_none_right_eq_some.1 hst
    cases hq
    exact Function.update_of_ne (fun heq => ha (congrArg some heq.symm)) _ _
  | finish other =>
    obtain ⟨-, hq⟩ := Option.ite_none_right_eq_some.1 hst
    cases hq
    exact Function.update_of_ne (fun heq => ha (congrArg some heq.symm)) _ _

/-- What a program does to its cache is a run of the cache. -/
theorem Client.observed_reach (hp : (program K V c notExist objects).Reachable p) :
    (lru K V c notExist).Reachable p.observed := by
  refine hp.invariant (I := fun p => (lru K V c notExist).Reachable p.observed) .init
    fun p a q ho _ hst => ?_
  rcases Client.step_observed hst with hcall | heq
  · obtain ⟨call, hcall⟩ := hcall
    exact ho.step trivial hcall
  · rw [heq]
    exact ho

theorem Client.objects_of_outlives
    (hp : (program K V c notExist objects).Reach (Outlives notExist) p) :
    p.objects notExist = objects notExist := by
  refine hp.invariant (I := fun p => p.objects notExist = objects notExist) rfl
    fun p a q hobj hok hst => ?_
  rw [Client.step_objects hok hst, hobj]

/-- A `Get` that hits returns a reference to a node, with the expected value. -/
theorem Inv.answers_of_mem (h : Inv c notExist p.observed) (hkey : key ∈ p.observed.lru.index) :
    p.Answers c v key := by
  obtain ⟨before, n, after, hsplit, rfl, hget⟩ := h.coherent.get_of_mem hkey
  have hvalue : p.observed.lastSet n.first = some n.second :=
    h.value n (by rw [hsplit]; exact List.mem_append_right _ List.mem_cons_self)
  have hrecent := (mem_take_recency_iff.1 (h.mem_iff.1 hkey)).2
  have hexpected : p.observed.expected c v n.first = n.second := by
    simp only [Observed.expected, hvalue, if_pos hrecent]
  refine ⟨_, _, hget, ?_⟩
  rw [hexpected]
  exact Ref.read_front p.objects rfl

theorem Inv.expected_of_notMem (h : Inv c notExist o) (hkey : key ∉ o.lru.index) :
    o.expected c v key = v := by
  cases hlast : o.lastSet key with
  | none => simp only [Observed.expected, hlast]
  | some value =>
    have htouched : key ∈ o.touches := (h.touched_iff key).2 (by rw [hlast]; rfl)
    have hold : ¬ (o.touches.takeWhile (· ≠ key)).toFinset.card < c := fun hlt =>
      hkey (h.mem_iff.2 (mem_take_recency_iff.2 ⟨htouched, hlt⟩))
    simp only [Observed.expected, hlast, if_neg hold]

/-- A `Get` that misses reads the object that the constructor was given. -/
theorem Inv.answers_iff_of_notMem (h : Inv c notExist p.observed)
    (hkey : key ∉ p.observed.lru.index) :
    p.Answers c v key ↔ p.objects notExist = some v := by
  have hget := get_of_notMem hkey
  rw [h.kNotExist] at hget
  rw [Client.Answers, h.expected_of_notMem hkey]
  constructor
  · intro hp
    obtain ⟨s, r, hget', hread⟩ := hp
    rw [hget] at hget'
    cases hget'
    exact hread
  · intro hv
    exact ⟨_, _, hget, hv⟩

/-- **The cache keeps exactly the keys used last**, and a `Get` that misses reads the object that
the constructor was given. A program calls the constructor with capacity `c ≥ 1` and an object of
value `v`.
* In every run that leaves this object alone, the next call is defined, and `Get` of a key returns
  the value of its last `Set` if there is one and fewer than `c` distinct other keys have been
  touched since the key was, and the not-exist value `v` otherwise.
* In every run at all, a `Get` does so exactly if its key is in the cache or the object is still
  alive with the value `v`. -/
theorem get_eq_expected (hc : 1 ≤ c) (hv : objects notExist = some v) :
    (∀ p, (program K V c notExist objects).Reach (Outlives notExist) p →
      (∀ a, (p.observed.step a).isSome) ∧ ∀ key, p.Answers c v key) ∧
    ∀ p, (program K V c notExist objects).Reachable p →
      (∀ a, (p.observed.step a).isSome) ∧
        ∀ key, p.Answers c v key ↔ key ∈ p.observed.lru.index ∨ p.objects notExist = some v := by
  have hall : ∀ p, (program K V c notExist objects).Reachable p →
      (∀ a, (p.observed.step a).isSome) ∧
        ∀ key, p.Answers c v key ↔ key ∈ p.observed.lru.index ∨ p.objects notExist = some v := by
    intro p hp
    have h := Inv.reach hc (Client.observed_reach hp)
    refine ⟨fun a => ?_, fun key => ?_⟩
    · obtain ⟨o', hst, -⟩ := h.step hc a
      rw [hst]
      rfl
    · by_cases hkey : key ∈ p.observed.lru.index
      · exact ⟨fun _ => .inl hkey, fun _ => h.answers_of_mem hkey⟩
      · rw [h.answers_iff_of_notMem hkey, or_iff_right hkey]
  refine ⟨fun p hp => ?_, hall⟩
  obtain ⟨hdef, hiff⟩ := hall p (hp.mono fun _ _ _ => trivial)
  have hobj : p.objects notExist = some v := (Client.objects_of_outlives hp).trans hv
  exact ⟨hdef, fun key => (hiff key).2 (.inr hobj)⟩

/-- One object, at address `7`, of value `0`. -/
def oneObject : ℕ → Option ℕ := Function.update (fun _ => none) 7 (some 0)

/-- With capacity two, a `Get` of `1` keeps it when `3` comes in, and `2` goes. Another object comes
and goes. -/
theorem get_eq_expected_two :
    ∃ p : Client ℕ ℕ, (program ℕ ℕ 2 7 oneObject).Reach (Outlives 7) p ∧
      p.observed.touches = [3, 1, 2, 1] ∧
      (∃ s r, p.observed.lru.get 1 = some (s, r) ∧ r.read p.objects s = some 10) ∧
      ∃ s r, p.observed.lru.get 2 = some (s, r) ∧ r.read p.objects s = some 0 := by
  have hrun := (program ℕ ℕ 2 7 oneObject).reach_of_run (Outlives 7)
    [.call (.set 1 10), .create 8 5, .call (.set 2 20), .call (.get 1), .finish 8,
      .call (.set 3 30)] rfl
  have hobj : oneObject 7 = some 0 := rfl
  have hget := ((get_eq_expected (c := 2) (by decide) hobj).1 _ hrun).2
  exact ⟨_, hrun, rfl, hget 1, hget 2⟩

/-- **The defect.** `kNotExist_` refers to the default argument, a temporary that is finished when
the constructor has been called; a `Get` of an empty cache then reads an object that is dead. -/
theorem not_answers_temporary :
    ∃ p : Client ℕ ℕ, (program ℕ ℕ 2 7 oneObject).Reachable p ∧
      p.observed = (lru ℕ ℕ 2 7).init ∧ p.observed.expected 2 0 5 = 0 ∧ ¬ p.Answers 2 0 5 ∧
      p.observed.lru.get 5 = some (p.observed.lru, .object 7) ∧
      (Ref.object 7).read p.objects p.observed.lru = none := by
  have hrun := (program ℕ ℕ 2 7 oneObject).reach_of_run (fun _ _ => True) [.finish 7] rfl
  refine ⟨_, hrun, rfl, rfl, fun hans => ?_, rfl, rfl⟩
  obtain ⟨s, r, hget, hread⟩ := hans
  cases hget
  cases hread

end Lru

end Naesala
