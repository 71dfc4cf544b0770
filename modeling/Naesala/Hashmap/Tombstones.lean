import Naesala.Hashmap.Lookup

/-!
# Tombstones do not inflate the table

`used_` counts tombstones and decides when the table grows; `size_` does not, and decides when it
shrinks. With ordinary keys `size_` is exactly the number of existing buckets, so `used_ = size_`
means that there is no tombstone. A table with tombstones that `erase` does not rebuild has at
least `shrink_count_` keys, and one that `Set` rebuilds has none afterwards.

**Theorem (`tombstones_bounded`).** In every run, a table of more than 8 buckets has no
tombstones or at least `shrink_count_` keys. So a table that has grown past its first size and 16
buckets has fewer than ten buckets for each key it once had at the same time.
-/

namespace Naesala

namespace LinearHashmap

variable {K V : Type} [DecidableEq K] {F : Functors K}
variable {h h' t t' : LinearHashmap K V} {key : K} {value : V} {displace : Bool} {index n : ℕ}

/-! ## Counting with ordinary keys -/

/-- `size_` is exactly the number of existing buckets. -/
structure Exact (h : LinearHashmap K V) : Prop where
  counters : h.Counters
  size_eq : h.size = h.existsCount

/-- The table is small, or has no tombstones, or enough keys. -/
def Justified (h : LinearHashmap K V) : Prop :=
  h.bucketCount ≤ 8 ∨ h.used = h.size ∨ h.size ≥ h.shrinkCount

/-- A tombstone is not empty and does not exist. -/
theorem existsCount_lt_nonEmptyCount (hi : index < h.buckets.length)
    (he : h.existsAt index = false) (hne : h.keyAt index ≠ h.emptyKey) :
    h.existsCount < h.nonEmptyCount := by
  -- emptying the bucket takes it out of one count alone
  have hnonEmpty := nonEmptyCount_setBucket hi (⟨h.emptyKey, none⟩ : Bucket K V)
  have hexists := existsCount_setBucket hi (⟨h.emptyKey, none⟩ : Bucket K V)
  have hle := existsCount_le_nonEmptyCount (h.setBucket index ⟨h.emptyKey, none⟩)
  rw [if_neg hne, if_pos rfl] at hnonEmpty
  rw [he, if_neg Bool.false_ne_true, if_pos (by simp [isSentinel])] at hexists
  omega

theorem Exact.no_tombstone (hX : Exact h) (hused : h.used = h.size) (hi : index < h.bucketCount)
    (he : h.existsAt index = false) : h.keyAt index = h.emptyKey := by
  by_contra hne
  have hlt := existsCount_lt_nonEmptyCount (by rwa [hX.counters.length]) he hne
  have hle := hX.counters.nonEmpty_le
  have hsize := hX.size_eq
  omega

/-- **What `Set` writes counts exactly**, and adds no tombstone. -/
theorem Exact.place (hX : Exact h) (hroom : h.used < h.resizeCount) (hi : index < h.bucketCount)
    (hk : h.isSentinel key = false) :
    Exact (h.place index key value displace) ∧
      (h.used = h.size →
        (h.place index key value displace).used = (h.place index key value displace).size) ∧
      h.size ≤ (h.place index key value displace).size ∧
      (h.place index key value displace).shrinkCount = h.shrinkCount := by
  have hi' : index < h.buckets.length := by rwa [hX.counters.length]
  have hexists := existsCount_setBucket hi' (⟨key, some value⟩ : Bucket K V)
  rw [hk, if_neg Bool.false_ne_true] at hexists
  have hC : (h.place index key value displace).Counters := hX.counters.place hroom hi
  have hsize := hX.size_eq
  unfold LinearHashmap.place at hC ⊢
  split_ifs at hC ⊢ with he hd hempty
  · rw [he, if_pos rfl] at hexists
    refine ⟨⟨hC, ?_⟩, id, le_rfl, rfl⟩
    show h.size = (h.setBucket index ⟨key, some value⟩).existsCount
    omega
  · exact ⟨⟨hC, hsize⟩, id, le_rfl, rfl⟩
  · rw [if_neg he] at hexists
    refine ⟨⟨hC, ?_⟩, fun hused => ?_, Nat.le_succ _, rfl⟩
    · show h.size + 1 = (h.setBucket index ⟨key, some value⟩).existsCount
      omega
    · exact congrArg (· + 1) hused
  · -- a reused tombstone: there is none if `used_ = size_`
    rw [if_neg he] at hexists
    refine ⟨⟨hC, ?_⟩, fun hused => ?_, Nat.le_succ _, rfl⟩
    · show h.size + 1 = (h.setBucket index ⟨key, some value⟩).existsCount
      omega
    · exact absurd (decide_eq_true (hX.no_tombstone hused hi (by simpa using he))) hempty

/-! ## Rebuilding leaves no tombstones -/

theorem exact_firstResize (hC : (h.firstResize n).Counters) (hsize : h.size = 0) :
    Exact (h.firstResize n) where
  counters := hC
  size_eq := by
    have hle := existsCount_le_nonEmptyCount (h.firstResize n)
    rw [nonEmptyCount_firstResize] at hle
    show h.size = _
    omega

theorem Moved.exact {bs : List (Bucket K V)} (hM : Moved F t bs t') (hX : Exact t)
    (hused : t.used = t.size) : Exact t' ∧ t'.used = t'.size := by
  induction hM with
  | nil => exact ⟨hX, hused⟩
  | skip _ _ ih => exact ih hX hused
  | move hk hroom hend _ ih =>
    obtain ⟨hX', hused', -⟩ := hX.place hroom hend.lt hk
    exact ih hX' (hused' hused)

theorem Exact.rebuild (hfresh : (h.fresh n).Counters) (hM : Moved F (h.fresh n) h.buckets t) :
    Exact t ∧ t.used = t.size :=
  hM.exact (exact_firstResize hfresh rfl) rfl

/-- Before its first `Resize` a table has no keys. -/
theorem Exact.size_eq_zero (hX : Exact h) (h0 : h.bucketCount = 0) : h.size = 0 := by
  have hlen : h.keys.length = 0 := by rw [length_keys, hX.counters.length, h0]
  have hnil : h.keys = [] := List.eq_nil_of_length_eq_zero hlen
  rw [hX.size_eq, existsCount, hnil]
  rfl

/-- **Growing.** The table that `Set` probes has room for its reason, and is not too large. -/
theorem Expanded.justified (hE : Expanded F h t) (hX : Exact h) (hJ : Justified h)
    (hC : t.Counters) :
    Exact t ∧ Justified t ∧ (t.bucketCount ≤ max 16 h.bucketCount ∨
      t.bucketCount < 10 * (h.size + 1)) := by
  cases hE with
  | same _ => exact ⟨hX, hJ, Or.inl (le_max_right _ _)⟩
  | first h0 _ =>
    exact ⟨exact_firstResize hC (hX.size_eq_zero h0), Or.inl le_rfl,
      Or.inl ((by decide : 8 ≤ 16).trans (le_max_left _ _))⟩
  | grown h0 hfull hfresh hM =>
    obtain ⟨hXt, hused⟩ := Exact.rebuild hfresh hM
    refine ⟨hXt, Or.inr (Or.inl hused), ?_⟩
    have hcount : t.bucketCount = 2 * h.bucketCount := hM.bucketCount_eq
    rw [hcount]
    rw [hX.counters.resizeCount, resizeCountOf_load] at hfull
    rcases hJ with hsmall | hsame | hshrink
    · exact Or.inl (le_trans (by omega) (le_max_left _ _))
    · exact Or.inr (by omega)
    · rw [hX.counters.shrinkCount, resizeCountOf_shrink] at hshrink
      exact Or.inr (by omega)

/-! ## The operations -/

theorem Justified.of_place (hJ : Justified h) (hX : Exact h) (hroom : h.used < h.resizeCount)
    (hi : index < h.bucketCount) (hk : h.isSentinel key = false) :
    Justified (h.place index key value displace) := by
  obtain ⟨-, hused, hle, hshrink⟩ : Exact (h.place index key value displace) ∧ _ :=
    hX.place hroom hi hk
  rcases hJ with hsmall | hsame | hge
  · exact Or.inl (by rwa [bucketCount_place])
  · exact Or.inr (Or.inl (hused hsame))
  · exact Or.inr (Or.inr (by rw [hshrink]; exact hge.trans hle))

/-- **What `Set` does to the size of the table.** -/
theorem Exact.set (hX : Exact h) (hJ : Justified h) (hin : h.Within)
    (hk : h.isSentinel key = false) (value : V) (displace : Bool) :
    ∃ h' index, h.set F key value displace = some (h', index) ∧ index < h'.bucketCount ∧
      Exact h' ∧ Justified h' ∧ (h'.bucketCount ≤ max 16 h.bucketCount ∨
        h'.bucketCount < 10 * (h.size + 1)) := by
  obtain ⟨t, i, hE, hCt, hroom, hend, hset⟩ := set_spec F hX.counters hin key value displace
  obtain ⟨hXt, hJt, hcount⟩ := hE.justified hX hJ hCt
  rw [← hE.isSentinel_eq] at hk
  refine ⟨_, i, hset, ?_, (hXt.place hroom hend.lt hk).1, hJt.of_place hXt hroom hend.lt hk, ?_⟩
  · rw [bucketCount_place]
    exact hend.lt
  · rwa [bucketCount_place]

theorem Exact.marked (hX : Exact h) (hi : index < h.bucketCount) (he : h.existsAt index = true) :
    Exact (h.marked index) where
  counters := hX.counters.marked hi he
  size_eq := by
    have hi' : index < h.buckets.length := by rwa [hX.counters.length]
    have hexists := existsCount_setBucket hi' (⟨h.erasedKey, none⟩ : Bucket K V)
    rw [he, if_pos rfl, if_pos (by simp [isSentinel])] at hexists
    have hsize := hX.size_eq
    show h.size - 1 = (h.setBucket index ⟨h.erasedKey, none⟩).existsCount
    omega

/-- **What `erase` does to the size of the table**: one that is not rebuilt has enough keys. -/
theorem Exact.erase (hX : Exact h) (hJ : Justified h) (key : K) :
    ∃ h', h.erase F key = some h' ∧ Exact h' ∧ Justified h' ∧ h'.bucketCount ≤ h.bucketCount := by
  obtain ⟨i, hi⟩ : ∃ i, h.get F key = some i := by
    rcases get_spec F hX.counters key with ⟨-, hget⟩ | ⟨-, i, -, hget⟩
    · exact ⟨_, hget⟩
    · exact ⟨_, hget⟩
  rw [LinearHashmap.erase, hi, Option.bind_some]
  obtain ⟨h', hdel, -, ⟨-, rfl⟩ | ⟨hlt, he, -⟩⟩ := delete_spec F hX.counters i
  · exact ⟨h', hdel, hX, hJ, le_rfl⟩
  · have hXm := hX.marked hlt he
    rw [delete_of_exists F hlt he]
    split_ifs with hsmall
    · obtain ⟨t, p, ht, hhalf, hfresh, hM⟩ := hXm.counters.halve (F := F) hsmall.1 hsmall.2
      obtain ⟨hXt, hused⟩ := Exact.rebuild hfresh hM
      refine ⟨t, ht _ (places_setNested F 63), hXt, Or.inr (Or.inl hused), ?_⟩
      have hcount : t.bucketCount = p := hM.bucketCount_eq
      have hsame : (h.marked i).bucketCount = h.bucketCount := rfl
      omega
    · refine ⟨h.marked i, rfl, hXm, ?_, le_rfl⟩
      by_cases hbig : (h.marked i).bucketCount > 8
      · exact Or.inr (Or.inr (Nat.le_of_not_lt fun hsize => hsmall ⟨hsize, hbig⟩))
      · exact Or.inl (Nat.le_of_not_lt hbig)

theorem Exact.clear (hX : Exact h) : Exact h.clear where
  counters := hX.counters.clear
  size_eq := by
    have hzero : h.clear.existsCount = 0 := by
      rw [existsCount, keys_clear, List.countP_eq_zero]
      intro k hk
      rw [List.eq_of_mem_replicate hk]
      simp [isSentinel, LinearHashmap.clear]
    rw [hzero]
    rfl

theorem Exact.assign (hX : Exact h) (hi : index < h.bucketCount) (value : V) :
    Exact (h.setBucket index ⟨h.keyAt index, some value⟩) where
  counters := hX.counters.assign hi value
  size_eq := by
    have hi' : index < h.keys.length := by rwa [length_keys, hX.counters.length]
    have hkeys : (h.setBucket index ⟨h.keyAt index, some value⟩).keys = h.keys := by
      rw [keys_setBucket, keyAt_eq_keys hi', List.set_getElem_self]
    unfold existsCount
    rw [hkeys]
    exact hX.size_eq

/-! ## Runs -/

/-- The machine of one map, with the largest value that `size_` has had. -/
def tracked [Inhabited V] (F : Functors K) (h₀ : LinearHashmap K V) :
    Machine (LinearHashmap K V × ℕ) (MapOp K V) where
  init := (h₀, h₀.size)
  step s op := (op.apply F s.1).map fun h => (h, max s.2 h.size)

/-- The invariant of a run from a table of `n` buckets. -/
structure Tracked (n : ℕ) (s : LinearHashmap K V × ℕ) : Prop where
  exact : Exact s.1
  justified : Justified s.1
  size_le : s.1.size ≤ s.2
  count : s.1.bucketCount ≤ max 16 n ∨ s.1.bucketCount < 10 * (s.2 + 1)

variable {s s' : LinearHashmap K V × ℕ}

/-- The bound on the bucket count after an operation. -/
theorem Tracked.next (h : Tracked n s) (hX : Exact t) (hJ : Justified t)
    (hcount : t.bucketCount ≤ max 16 s.1.bucketCount ∨ t.bucketCount < 10 * (s.1.size + 1)) :
    Tracked n (t, max s.2 t.size) where
  exact := hX
  justified := hJ
  size_le := le_max_right _ _
  count := by
    have hsize := h.size_le
    have hmax := le_max_left s.2 t.size
    show t.bucketCount ≤ max 16 n ∨ t.bucketCount < 10 * (max s.2 t.size + 1)
    rcases hcount with hle | hlt
    · rcases h.count with hold | hold
      · exact Or.inl (hle.trans (max_le (le_max_left _ _) hold))
      · rcases le_max_iff.1 hle with h16 | hsame
        · exact Or.inl (h16.trans (le_max_left _ _))
        · exact Or.inr (by omega)
    · exact Or.inr (by omega)

theorem Tracked.step [Inhabited V] (h : Tracked n s) (op : MapOp K V) (hop : Ordinary s.1 op)
    (hst : op.apply F s.1 = some t) : Tracked n (t, max s.2 t.size) := by
  obtain ⟨hin, hord⟩ := hop
  cases op with
  | insert key value | insertOrAssign key value | index key =>
    obtain ⟨⟨t', i⟩, hset, rfl⟩ := Option.map_eq_some_iff.1 hst
    obtain ⟨t'', j, hset', -, hX, hJ, hcount⟩ :=
      h.exact.set (F := F) h.justified (hin rfl) (hord key rfl) _ _
    cases hset.symm.trans hset'
    exact h.next hX hJ hcount
  | indexAssign key value =>
    obtain ⟨⟨t', i⟩, hset, rfl⟩ := Option.map_eq_some_iff.1 hst
    obtain ⟨t'', j, hset', hj, hX, hJ, hcount⟩ :=
      h.exact.set (F := F) h.justified (hin rfl) (hord key rfl) default false
    cases hset.symm.trans hset'
    exact h.next (hX.assign hj value) hJ hcount
  | erase key =>
    obtain ⟨t', ht, hX, hJ, hle⟩ := h.exact.erase (F := F) h.justified key
    cases ht.symm.trans hst
    exact h.next hX hJ (Or.inl (hle.trans (le_max_right _ _)))
  | clear =>
    cases hst
    exact h.next h.exact.clear (Or.inr (Or.inl rfl)) (Or.inl (le_max_right _ _))

theorem Tracked.construct {e d : K} {h₀ : LinearHashmap K V} {p : ℕ}
    (hcon : construct p e d = some h₀) (hp : nextPowTwo p ≤ 2 ^ 30) :
    Tracked h₀.bucketCount (h₀, h₀.size) := by
  have hC := counters_construct hp hcon
  have hzero : h₀.used = 0 ∧ h₀.size = 0 ∧ h₀.nonEmptyCount = 0 := by
    unfold LinearHashmap.construct at hcon
    split_ifs at hcon
    · cases hcon
      exact ⟨rfl, rfl, nonEmptyCount_firstResize _ _⟩
    · cases hcon
      exact ⟨rfl, rfl, rfl⟩
  have hle := existsCount_le_nonEmptyCount h₀
  have hexact : h₀.size = h₀.existsCount := by omega
  exact ⟨⟨hC, hexact⟩, Or.inr (Or.inl (hzero.1.trans hzero.2.1.symm)), le_rfl,
    Or.inl (le_max_right _ _)⟩

theorem Tracked.reach [Inhabited V] {e d : K} {h₀ : LinearHashmap K V} {p : ℕ}
    (hcon : LinearHashmap.construct p e d = some h₀) (hp : nextPowTwo p ≤ 2 ^ 30)
    (hs : (tracked F h₀).Reach (fun s op => Ordinary s.1 op) s) : Tracked h₀.bucketCount s := by
  refine hs.invariant (Tracked.construct hcon hp) fun s op s' h hop hst => ?_
  obtain ⟨t, ht, rfl⟩ := Option.map_eq_some_iff.1 hst
  exact h.step op hop ht

/-- What a constructor makes of the bucket count it is given. -/
theorem bucketCount_construct_le {e d : K} {h₀ : LinearHashmap K V} {p : ℕ}
    (hcon : construct p e d = some h₀) : h₀.bucketCount ≤ nextPowTwo p := by
  unfold construct at hcon
  split_ifs at hcon
  · cases hcon
    exact le_rfl
  · cases hcon
    exact Nat.zero_le _

/-- **Tombstones alone never inflate the table.** In every run with ordinary keys on a map
constructed for `p` buckets, a table of more than 8 buckets has `used_ = size_` or at least
`shrink_count_` keys; and the table has at most 16 buckets, or at most `NextPowTwo(p)`, or fewer
than ten for each key, and ten more, of the largest number of keys it has had. -/
theorem tombstones_bounded [Inhabited V] {e d : K} {h₀ : LinearHashmap K V} {p : ℕ}
    (hcon : construct p e d = some h₀) (hp : nextPowTwo p ≤ 2 ^ 30)
    (hs : (tracked F h₀).Reach (fun s op => Ordinary s.1 op) s) :
    (s.1.bucketCount ≤ 8 ∨ s.1.used = s.1.size ∨ s.1.size ≥ s.1.shrinkCount) ∧
      (s.1.bucketCount ≤ max 16 (nextPowTwo p) ∨ s.1.bucketCount < 10 * (s.2 + 1)) := by
  have h := Tracked.reach hcon hp hs
  refine ⟨h.justified, ?_⟩
  rcases h.count with hle | hlt
  · exact Or.inl (hle.trans (max_le_max_left 16 (bucketCount_construct_le hcon)))
  · exact Or.inr hlt

/-- Eight buckets, an insertion, and an erasure that leaves a tombstone. -/
theorem tombstones_bounded_erase :
    ∃ s : LinearHashmap ℕ ℕ × ℕ, (tracked (equalTo id) (blank 100 101)).Reach
        (fun s op => Ordinary s.1 op) s ∧ s.1.used = 1 ∧ s.1.size = 0 ∧
      (s.1.bucketCount ≤ max 16 (nextPowTwo 0) ∨ s.1.bucketCount < 10 * (s.2 + 1)) := by
  have hrun := (tracked (equalTo id) (blank 100 101)).reach_of_run
    (fun s op => Ordinary s.1 op) [.insert 1 10, .erase (1 : ℕ)] rfl
  have hcon : construct 0 100 101 = some (blank 100 101 : LinearHashmap ℕ ℕ) := rfl
  exact ⟨_, hrun, rfl, rfl, (tombstones_bounded hcon (by decide) hrun).2⟩

/-- A map constructed for 17 buckets has 32 before anything is inserted. -/
theorem bucketCount_exceeds_request :
    ∃ (h₀ : LinearHashmap ℕ ℕ) (s : LinearHashmap ℕ ℕ × ℕ), construct 17 100 101 = some h₀ ∧
      (tracked (equalTo id) h₀).Reach (fun s op => Ordinary s.1 op) s ∧
      ¬ (s.1.bucketCount ≤ max 16 17 ∨ s.1.bucketCount < 10 * (s.2 + 1)) :=
  ⟨_, _, rfl, .init, by decide⟩

end LinearHashmap

end Naesala
