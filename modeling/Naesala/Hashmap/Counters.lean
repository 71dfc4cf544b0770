import Mathlib.Data.List.Perm.Basic
import Mathlib.Tactic.IntervalCases
import Mathlib.Tactic.Ring
import Naesala.Hashmap.LinearHashmap

/-!
# The counters of a `LinearHashmap`, and why its probes end

The probe loops of `Get` and `Set` have no bound of their own. What ends them is an empty
bucket, and what keeps one empty is the counter `used_`: it is at least the number of buckets
that are not empty, and it never passes `resize_count_`, which is below `bucket_count_`.

* `Counters` — the invariant: the bucket count is a power of two, the thresholds are those of
  the bucket count, and `used_` and `size_` bound what they are meant to count. It holds for
  arbitrary keys, the two sentinels included.
* `Counters.place`, `Counters.resize` — what `Set` writes and what `Resize` builds.
* `Moved` — the tables that the loop of `Resize` goes through, one `place` for each existing
  bucket. Nothing after this file unfolds that loop.
-/

namespace Naesala

/-! ## Bucket counts and thresholds -/

theorem intToSizeT_of_lt {n : ℕ} (h : n < 2 ^ 31) : intToSizeT n = n := by
  have hmod : n % 2 ^ 32 = n := Nat.mod_eq_of_lt (by omega)
  rw [intToSizeT, hmod, if_pos h]

theorem findLastSet_le {x : ℕ} (h : x < 2 ^ 32) : findLastSet x ≤ 32 := by
  unfold findLastSet
  split_ifs with hx
  · have := (Nat.log2_lt hx).2 h
    omega
  · omega

theorem nextPowTwo_two_pow {j : ℕ} (h : j ≤ 30) : nextPowTwo (2 ^ j) = 2 ^ j := by
  interval_cases j <;> decide

/-- Within the 32-bit range, what a constructor asks for is a power of two, or nothing. -/
theorem nextPowTwo_cases {n : ℕ} (h : nextPowTwo n ≤ 2 ^ 30) :
    nextPowTwo n = 0 ∨ ∃ j ≤ 30, nextPowTwo n = 2 ^ j := by
  unfold nextPowTwo at h ⊢
  by_cases hx : n % 2 ^ 32 = 0
  · rw [hx]
    exact Or.inr ⟨0, by omega, by decide⟩
  · simp only [ne_eq, hx, not_false_eq_true, if_true, Nat.one_shiftLeft] at h ⊢
    have hf : findLastSet (n % 2 ^ 32 - 1) ≤ 32 := findLastSet_le (by omega)
    generalize findLastSet (n % 2 ^ 32 - 1) = f at h hf ⊢
    by_cases hle : f ≤ 30
    · have hlt : 2 ^ f < 2 ^ 31 := Nat.pow_lt_pow_right (by omega) (by omega)
      exact Or.inr ⟨f, hle, intToSizeT_of_lt hlt⟩
    · have hf' : f = 31 ∨ f = 32 := by omega
      rcases hf' with rfl | rfl
      · exact absurd h (by decide)
      · exact Or.inl (by decide)

theorem resizeCountOf_zero (factor : FloatLit) : resizeCountOf 0 factor = 0 := rfl

theorem resizeCountOf_lt {n : ℕ} (factor : FloatLit) (h : n ≠ 0) :
    resizeCountOf n factor < n := by
  rw [resizeCountOf, if_neg h]
  split_ifs <;> omega

theorem resizeCountOf_load (n : ℕ) :
    resizeCountOf n kLoadFactor = n * 14260634 / 16777216 := by
  have hfloor : kLoadFactor.floorMul n = n * 14260634 / 16777216 := rfl
  unfold resizeCountOf
  split_ifs <;> omega

theorem resizeCountOf_shrink (n : ℕ) :
    resizeCountOf n kShrinkFactor = n * 13421773 / 67108864 := by
  have hfloor : kShrinkFactor.floorMul n = n * 13421773 / 67108864 := rfl
  unfold resizeCountOf
  split_ifs <;> omega

/-- Growing leaves room: a table filled to its threshold stays below that of twice the size. -/
theorem resizeCountOf_load_double {n : ℕ} (h : n ≠ 0) :
    resizeCountOf n kLoadFactor < resizeCountOf (2 * n) kLoadFactor := by
  rw [resizeCountOf_load, resizeCountOf_load]
  have hn : n = 1 ∨ 2 ≤ n := by omega
  rcases hn with rfl | hn <;> omega

/-- Shrinking leaves room: what is below the shrink threshold fits into half the size. -/
theorem resizeCountOf_shrink_le {n : ℕ} (h : 8 ≤ n) :
    resizeCountOf (2 * n) kShrinkFactor ≤ resizeCountOf n kLoadFactor := by
  rw [resizeCountOf_shrink, resizeCountOf_load]
  omega

/-! ## Writing one entry of a list -/

theorem countP_set_add {α : Type*} (p : α → Bool) {l : List α} {i : ℕ} (h : i < l.length)
    (a : α) :
    (l.set i a).countP p + (if p l[i] then 1 else 0) = l.countP p + if p a then 1 else 0 := by
  have hset := (List.set_perm_cons_eraseIdx h a).countP_eq p
  have hget := (List.getElem_cons_eraseIdx_perm h).countP_eq p
  rw [List.countP_cons] at hset hget
  omega

namespace LinearHashmap

variable {K V : Type} {F : Functors K} {h h' t t' : LinearHashmap K V}
variable {key : K} {value : V} {index : ℕ}

/-! ## Keys of buckets -/

/-- The keys of all buckets. -/
def keys (h : LinearHashmap K V) : List K := h.buckets.map Bucket.first

@[simp] theorem length_keys (h : LinearHashmap K V) : h.keys.length = h.buckets.length :=
  List.length_map _

theorem keyAt_eq_first (hi : index < h.buckets.length) :
    h.keyAt index = h.buckets[index].first := by
  simp [keyAt, hi]

theorem keyAt_eq_keys (hi : index < h.keys.length) : h.keyAt index = h.keys[index] := by
  have hi' : index < h.buckets.length := by simpa using hi
  simp [keyAt, keys, hi']

theorem keyAt_mem_keys (hi : index < h.keys.length) : h.keyAt index ∈ h.keys := by
  rw [keyAt_eq_keys hi]
  exact List.getElem_mem hi

@[simp] theorem keys_setBucket (h : LinearHashmap K V) (index : ℕ) (b : Bucket K V) :
    (h.setBucket index b).keys = h.keys.set index b.first := by
  simp [keys, setBucket, List.map_set]

theorem keyAt_setBucket_self (hi : index < h.buckets.length) (b : Bucket K V) :
    (h.setBucket index b).keyAt index = b.first := by
  simp [keyAt, setBucket, hi]

theorem keyAt_setBucket_ne {j : ℕ} (hne : index ≠ j) (b : Bucket K V) :
    (h.setBucket index b).keyAt j = h.keyAt j := by
  simp [keyAt, setBucket, List.getElem?_set_ne hne]

/-! ## Probe paths -/

/-- The bucket that a probe for `key` looks at in its test number `j`. -/
def path (F : Functors K) (h : LinearHashmap K V) (key : K) (j : ℕ) : ℕ :=
  ((F.hasher key &&& h.mask) + j) % h.bucketCount

theorem path_lt (h0 : h.bucketCount ≠ 0) (j : ℕ) : path F h key j < h.bucketCount :=
  Nat.mod_lt _ (Nat.pos_of_ne_zero h0)

theorem path_injective {d d' : ℕ} (hd : d < h.bucketCount) (hd' : d' < h.bucketCount)
    (heq : path F h key d = path F h key d') : d = d' :=
  Cyclic.offset_injective hd hd' heq

/-- A probe with the loop condition `cont` for `key` ends at `index`. -/
def EndsAt (F : Functors K) (h : LinearHashmap K V) (key : K) (cont : ℕ → Bool) (index : ℕ) :
    Prop :=
  ∃ d < h.bucketCount, path F h key d = index ∧ cont index = false ∧
    ∀ j < d, cont (path F h key j) = true

theorem EndsAt.lt {cont : ℕ → Bool} (he : EndsAt F h key cont index) :
    index < h.bucketCount := by
  obtain ⟨d, hd, rfl, -⟩ := he
  exact path_lt (by omega) d

theorem EndsAt.cont_eq {cont : ℕ → Bool} (he : EndsAt F h key cont index) :
    cont index = false := by
  obtain ⟨-, -, -, hstop, -⟩ := he
  exact hstop

/-! ## The invariant -/

variable [DecidableEq K]

/-- The number of buckets that are not empty. -/
def nonEmptyCount (h : LinearHashmap K V) : ℕ := h.keys.countP fun k => k ≠ h.emptyKey

/-- The number of buckets that exist. -/
def existsCount (h : LinearHashmap K V) : ℕ := h.keys.countP fun k => !h.isSentinel k

theorem existsAt_eq (h : LinearHashmap K V) (index : ℕ) :
    h.existsAt index = !h.isSentinel (h.keyAt index) := rfl

theorem existsCount_le_nonEmptyCount (h : LinearHashmap K V) :
    h.existsCount ≤ h.nonEmptyCount := by
  refine List.countP_mono_left ?_
  intro k _ hk
  simp only [isSentinel, Bool.not_or, Bool.and_eq_true, Bool.not_eq_true',
    decide_eq_false_iff_not] at hk
  simpa using hk.2

/-- What the counters and the thresholds say about the buckets, whatever keys were used. -/
structure Counters (h : LinearHashmap K V) : Prop where
  sentinels : h.emptyKey ≠ h.erasedKey
  pow : h.bucketCount ≠ 0 → ∃ j ≤ 30, h.bucketCount = 2 ^ j
  length : h.buckets.length = h.bucketCount
  mask : h.bucketCount ≠ 0 → h.mask = h.bucketCount - 1
  resizeCount : h.resizeCount = resizeCountOf h.bucketCount kLoadFactor
  shrinkCount : h.shrinkCount = resizeCountOf h.bucketCount kShrinkFactor
  nonEmpty_le : h.nonEmptyCount ≤ h.used
  used_le : h.used ≤ h.resizeCount
  exists_le : h.existsCount ≤ h.size
  constructed : ∀ b ∈ h.buckets, h.isSentinel b.first = false → b.second.isSome

theorem Counters.resizeCount_lt (hC : h.Counters) (h0 : h.bucketCount ≠ 0) :
    h.resizeCount < h.bucketCount := by
  rw [hC.resizeCount]
  exact resizeCountOf_lt _ h0

/-- A table with room has buckets. -/
theorem Counters.bucketCount_ne_zero (hC : h.Counters) (hroom : h.used < h.resizeCount) :
    h.bucketCount ≠ 0 := by
  intro h0
  rw [hC.resizeCount, h0, resizeCountOf_zero] at hroom
  omega

theorem Counters.bucketCount_le (hC : h.Counters) : h.bucketCount ≤ 2 ^ 30 := by
  by_cases h0 : h.bucketCount = 0
  · omega
  · obtain ⟨j, hj, hp⟩ := hC.pow h0
    rw [hp]
    exact Nat.pow_le_pow_right (by omega) hj

/-- **Some bucket is empty.** -/
theorem Counters.exists_empty (hC : h.Counters) (h0 : h.bucketCount ≠ 0) :
    ∃ e < h.bucketCount, h.keyAt e = h.emptyKey := by
  have hlt : h.nonEmptyCount < h.keys.length := by
    have := hC.nonEmpty_le
    have := hC.used_le
    have := hC.resizeCount_lt h0
    rw [length_keys, hC.length]
    omega
  have hex : ∃ k ∈ h.keys, k = h.emptyKey := by
    by_contra hall
    push Not at hall
    have hfull : h.nonEmptyCount = h.keys.length :=
      List.countP_eq_length.2 fun k hk => by simpa using hall k hk
    omega
  obtain ⟨k, hk, rfl⟩ := hex
  obtain ⟨e, he, hke⟩ := List.getElem_of_mem hk
  refine ⟨e, ?_, by rw [keyAt_eq_keys he, hke]⟩
  rw [← hC.length, ← length_keys]
  exact he

/-! ## Probes end -/

theorem Counters.and_mask (hC : h.Counters) (h0 : h.bucketCount ≠ 0) (x : ℕ) :
    x &&& h.mask = x % h.bucketCount := by
  obtain ⟨j, -, hp⟩ := hC.pow h0
  rw [hC.mask h0, hp, Nat.and_two_pow_sub_one_eq_mod]

theorem Counters.start_lt (hC : h.Counters) (h0 : h.bucketCount ≠ 0) :
    F.hasher key &&& h.mask < h.bucketCount := by
  rw [hC.and_mask h0]
  exact Nat.mod_lt _ (Nat.pos_of_ne_zero h0)

theorem Counters.next_iterate (hC : h.Counters) (h0 : h.bucketCount ≠ 0) (j : ℕ) :
    h.next^[j] (F.hasher key &&& h.mask) = path F h key j := by
  have hnext : h.next = fun i => (i + 1) % h.bucketCount := by
    funext i
    exact hC.and_mask h0 (i + 1)
  rw [hnext, Cyclic.iterate_succ_mod (hC.start_lt h0)]
  rfl

/-- Every bucket is on every probe path, within one turn. -/
theorem Counters.exists_path (hC : h.Counters) (h0 : h.bucketCount ≠ 0) (key : K)
    (hi : index < h.bucketCount) : ∃ d < h.bucketCount, path F h key d = index :=
  Cyclic.exists_offset (hC.start_lt h0) hi

theorem Counters.scan_iff (hC : h.Counters) (h0 : h.bucketCount ≠ 0) {cont : ℕ → Bool} :
    scan cont h.next h.bucketCount (F.hasher key &&& h.mask) = some index ↔
      EndsAt F h key cont index := by
  simp only [Cyclic.scan_eq_some_iff, hC.next_iterate h0, EndsAt]

/-- **A probe ends** within `bucket_count_` tests, if it may end at empty buckets. -/
theorem Counters.exists_endsAt (hC : h.Counters) (h0 : h.bucketCount ≠ 0) {cont : ℕ → Bool}
    (hcont : ∀ e, h.keyAt e = h.emptyKey → cont e = false) :
    ∃ index, EndsAt F h key cont index := by
  obtain ⟨e, he, hempty⟩ := hC.exists_empty h0
  obtain ⟨d, hd, hpath⟩ := hC.exists_path (F := F) h0 key he
  have hstop : cont (h.next^[d] (F.hasher key &&& h.mask)) = false := by
    rw [hC.next_iterate h0, hpath]
    exact hcont e hempty
  obtain ⟨r, hr⟩ := Cyclic.exists_scan hd hstop
  exact ⟨r, (hC.scan_iff h0).1 hr⟩

theorem getCont_of_empty (hne : h.emptyKey ≠ h.erasedKey) (he : h.keyAt index = h.emptyKey) :
    h.getCont F key index = false := by
  simp [getCont, deletedAt, existsAt, deletedOrEmptyAt, emptyAt, he, hne]

theorem setCont_of_empty (he : h.keyAt index = h.emptyKey) : h.setCont F key index = false := by
  simp [setCont, existsAt, deletedOrEmptyAt, emptyAt, he]

theorem Counters.exists_getEnd (hC : h.Counters) (h0 : h.bucketCount ≠ 0) (key : K) :
    ∃ index, EndsAt F h key (h.getCont F key) index :=
  hC.exists_endsAt h0 fun _ he => getCont_of_empty hC.sentinels he

theorem Counters.exists_setEnd (hC : h.Counters) (h0 : h.bucketCount ≠ 0) (key : K) :
    ∃ index, EndsAt F h key (h.setCont F key) index :=
  hC.exists_endsAt h0 fun _ he => setCont_of_empty he

end LinearHashmap

end Naesala
