import Naesala.Container.LruInclusion
import Naesala.Library.Paging
import Naesala.Library.Potential

/-!
# `LRU` against any other cache

Whoever knows all calls in advance could keep other keys than the ones used last. `against` runs the
cache beside such a rival: a set of at most `h` keys that may change in any way before each call,
but has the key of the call whenever the cache has it after the call. A miss is a `Set` that puts a
new node into the cache, a load a key that comes into the rival's set.

On the keys a call is the `Paging.touch` of the library, so the potential there pays for the misses.

**Theorem (`misses_le`).** Of a cache of capacity `c` and a rival of size `h ≤ c`, over any calls,
the misses are at most `c / (c - h + 1)` times the rival's loads, and `c` more.
-/

namespace Naesala

namespace Lru

open Paging

variable {K V : Type} [DecidableEq K] {s s' : Lru K V} {key : K} {value : V}

/-! ## The keys -/

/-- The keys in the order of `cache_`. -/
def keys (s : Lru K V) : List K := s.cache.map LruNode.first

omit [DecidableEq K] in
theorem Coherent.nodup_keys (hC : Coherent s) : s.keys.Nodup := hC.keys_nodup

omit [DecidableEq K] in
theorem Coherent.length_keys_le (hC : Coherent s) : s.keys.length ≤ s.capacity := by
  rw [keys, List.length_map]
  exact hC.length_le

theorem Coherent.erase_keys (hC : Coherent s) (key : K) :
    (others key s.contents).map Prod.fst = s.keys.erase key := by
  rw [hC.nodup_keys.erase_eq_filter, keys, ← map_fst_contents, others, List.filter_map]
  congr 1
  refine List.filter_congr fun p _ => ?_
  simp [bne, beq_eq_decide]

/-- What a call counts as: a `Get` that misses does not touch its key. -/
def touches (s : Lru K V) : Call K V → Bool
  | .get key => key ∈ s.index
  | .set _ _ => true

/-- **A call on the keys.** It is defined, and touches its key or changes nothing. -/
theorem Coherent.call_keys (hC : Coherent s) (hcap : 1 ≤ s.capacity) (a : Call K V) :
    ∃ s', s.call a = some s' ∧ Coherent s' ∧ s'.capacity = s.capacity ∧
      s'.keys = if s.touches a then touch s.capacity a.subject s.keys else s.keys := by
  by_cases hkey : a.subject ∈ s.index
  · obtain ⟨value, hmem⟩ := hC.mem_contents.1 hkey
    obtain ⟨s', hcall, hC', hcap', hcontents, -⟩ := hC.call_hit a hmem
    refine ⟨s', hcall, hC', hcap', ?_⟩
    have hmemKeys : a.subject ∈ s.keys := hC.mem_iff.1 hkey
    have htouches : s.touches a = true := by
      cases a with
      | get key => exact decide_eq_true hkey
      | set key value => rfl
    have hlen : (s.keys.erase a.subject).length ≤ s.capacity - 1 := by
      rw [List.length_erase_of_mem hmemKeys]
      exact Nat.sub_le_sub_right hC.length_keys_le 1
    rw [if_pos htouches, touch, List.take_of_length_le hlen, ← hC.erase_keys, keys,
      ← map_fst_contents, hcontents]
    rfl
  · cases a with
    | get key =>
      have htouches : s.touches (.get key : Call K V) = false := decide_eq_false hkey
      refine ⟨s, call_get_miss hkey, hC, rfl, ?_⟩
      rw [htouches]
      rfl
    | set key value =>
      obtain ⟨s', hcall, hC', hcap', hcontents⟩ := hC.call_set_miss hcap hkey value
      refine ⟨s', hcall, hC', hcap', ?_⟩
      have hnew : key ∉ s.keys := fun hmem => hkey (hC.mem_iff.2 hmem)
      show s'.keys = touch s.capacity key s.keys
      rw [touch, List.erase_of_not_mem hnew, keys, ← map_fst_contents, hcontents, List.map_cons,
        List.map_take, map_fst_contents]
      rfl

/-! ## The rival -/

/-- The machine of a cache of capacity `c` beside a rival of size `h`. An action is a call and the
set that the rival has from then on. -/
def against (K V : Type) [DecidableEq K] (c h notExist : ℕ) :
    Machine (Lru K V × Finset K) (Call K V × Finset K) where
  init := (construct c notExist, ∅)
  step s a :=
    if a.2.card ≤ h ∧ (s.1.touches a.1 → a.1.subject ∈ a.2) then
      (s.1.call a.1).map fun lru => (lru, a.2)
    else none

/-- A `Set` of a key that the cache does not have. -/
def miss (s : Lru K V × Finset K) (a : Call K V × Finset K) : ℕ :=
  match a.1 with
  | .get _ => 0
  | .set key _ => if key ∈ s.1.index then 0 else 1

/-- The keys that come into the rival's set. -/
def load (s : Lru K V × Finset K) (a : Call K V × Finset K) : ℕ := (a.2 \ s.2).card

variable {c h notExist : ℕ} {p q : Lru K V × Finset K} {a : Call K V × Finset K}
  {as : List (Call K V × Finset K)}

/-- What the cache beside the rival keeps. -/
structure Beside (c : ℕ) (p : Lru K V × Finset K) : Prop where
  coherent : Coherent p.1
  capacity : p.1.capacity = c

theorem miss_eq (hC : Coherent p.1) (htouches : p.1.touches a.1) :
    miss p a = if a.1.subject ∈ p.1.keys then 0 else 1 := by
  obtain ⟨call, C⟩ := a
  cases call with
  | get key =>
    have hkey : key ∈ p.1.keys := hC.mem_iff.1 (of_decide_eq_true htouches)
    exact (if_pos hkey).symm
  | set key value =>
    show (if key ∈ p.1.index then 0 else 1) = if key ∈ p.1.keys then 0 else 1
    by_cases hkey : key ∈ p.1.index
    · have hmem : key ∈ p.1.keys := hC.mem_iff.1 hkey
      rw [if_pos hkey, if_pos hmem]
    · have hmem : key ∉ p.1.keys := fun hmem => hkey (hC.mem_iff.2 hmem)
      rw [if_neg hkey, if_neg hmem]

theorem miss_eq_zero (htouches : ¬ p.1.touches a.1) : miss p a = 0 := by
  obtain ⟨call, C⟩ := a
  cases call with
  | get key => rfl
  | set key value => exact absurd rfl htouches

/-- **A call beside the rival.** The potential pays for a miss, and what comes into the rival's set
pays for the potential. -/
theorem Beside.step (hp : Beside c p) (hh : 1 ≤ h) (hhc : h ≤ c)
    (hst : (against K V c h notExist).step p a = some q) :
    Beside c q ∧ (potential c h q.1.keys q.2 : ℤ) + ((c - h + 1) * miss p a : ℕ) ≤
      potential c h p.1.keys p.2 + (c * load p a : ℕ) := by
  obtain ⟨hC, hcap⟩ := hp
  simp only [against] at hst
  split_ifs at hst with hrival
  obtain ⟨hcard, hhas⟩ := hrival
  obtain ⟨s', hcall, hC', hcap', hkeys⟩ := hC.call_keys (by omega) a.1
  rw [hcall, Option.map_some, Option.some_inj] at hst
  subst hst
  refine ⟨⟨hC', hcap'.trans hcap⟩, ?_⟩
  have hchange := potential_change (k := c) (h := h) hC.nodup_keys p.2 a.2
  show (potential c h s'.keys a.2 : ℤ) + _ ≤ _
  rw [hkeys, hcap, load]
  norm_cast
  by_cases htouches : p.1.touches a.1
  · have hlen : p.1.keys.length ≤ c := hcap ▸ hC.length_keys_le
    have htouch := potential_touch hC.nodup_keys hlen hh hhc (hhas htouches) hcard
    rw [if_pos htouches, miss_eq hC htouches]
    exact htouch.trans hchange
  · rw [if_neg htouches, miss_eq_zero htouches]
    exact hchange

/-- **No cache does much better.** Over any calls, and however the keys of another cache of size `h`
are chosen, as long as it has the key of each `Set` and of each `Get` that hits: `c - h + 1` times
the misses of an `LRU` of capacity `c ≥ h` are at most `c` times the keys loaded into the other
cache, besides the `c` misses that a cache needs to fill. -/
theorem misses_le (hh : 1 ≤ h) (hhc : h ≤ c)
    (hrun : as.foldlM (against K V c h notExist).step (against K V c h notExist).init = some q) :
    (c - h + 1) * (against K V c h notExist).total miss (against K V c h notExist).init as ≤
      c * (against K V c h notExist).total load (against K V c h notExist).init as +
        c * (c - h + 1) := by
  have hinit : Beside c (against K V c h notExist).init :=
    ⟨(Included.init c c notExist notExist).small, rfl⟩
  have hpay := Machine.total_le (M := against K V c h notExist) (I := Beside c)
    (J := fun _ => True) (Φ := fun p => (potential c h p.1.keys p.2 : ℤ))
    (c := fun p a => (c - h + 1) * miss p a) (d := fun p a => c * load p a)
    (fun _ _ _ _ _ => trivial) (fun p a q hp _ hst => hp.step hh hhc hst) hrun hinit trivial
  have hstart : potential c h (against K V c h notExist).init.1.keys
      (against K V c h notExist).init.2 = (c - h + 1) * c := by
    show 0 + c * 0 + (c - h + 1) * (c - 0) = (c - h + 1) * c
    rw [Nat.mul_zero, Nat.zero_add, Nat.sub_zero]
  rw [Machine.total_mul, Machine.total_mul, hstart] at hpay
  rw [Nat.mul_comm c (c - h + 1)]
  norm_cast at hpay
  omega

/-- Calls on three keys in turn, with what a rival of two places has. -/
def threeInTurn : List (Call ℕ ℕ × Finset ℕ) :=
  [(.set 1 0, {1}), (.set 2 0, {1, 2}), (.set 3 0, {1, 3}), (.set 1 0, {1, 3}),
    (.set 2 0, {2, 3}), (.set 3 0, {2, 3})]

/-- With two places, each `Set` of three keys in turn misses; the rival loads every other time. -/
theorem misses_le_three :
    (against ℕ ℕ 2 2 0).total miss (against ℕ ℕ 2 2 0).init threeInTurn = 6 ∧
      (against ℕ ℕ 2 2 0).total load (against ℕ ℕ 2 2 0).init threeInTurn = 4 ∧
      (2 - 2 + 1) * (against ℕ ℕ 2 2 0).total miss (against ℕ ℕ 2 2 0).init threeInTurn ≤
        2 * (against ℕ ℕ 2 2 0).total load (against ℕ ℕ 2 2 0).init threeInTurn +
          2 * (2 - 2 + 1) := by
  have hrun : ∃ q, threeInTurn.foldlM (against ℕ ℕ 2 2 0).step (against ℕ ℕ 2 2 0).init = some q :=
    Option.isSome_iff_exists.1 (by decide)
  obtain ⟨q, hq⟩ := hrun
  exact ⟨by decide, by decide, misses_le (by decide) (by decide) hq⟩

end Lru

end Naesala
