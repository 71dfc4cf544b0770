import Naesala.Hashmap.Resize

/-!
# The operations on one table

`MapOp` lists the calls a program can make on one map, and `MapOp.apply` performs them.
`Counters.apply` is the step lemma that every run of a map uses: an operation on a table with
the counter invariant returns, and returns a table with the counter invariant.
-/

namespace Naesala

namespace LinearHashmap

/-- A call on one map. `index` reads through `operator[]`, `indexAssign` assigns through it. -/
inductive MapOp (K V : Type) where
  | insert (key : K) (value : V)
  | insertOrAssign (key : K) (value : V)
  | index (key : K)
  | indexAssign (key : K) (value : V)
  | erase (key : K)
  | clear
  deriving DecidableEq

variable {K V : Type}

/-- The key that the call names. -/
def MapOp.key? : MapOp K V → Option K
  | .insert key _ | .insertOrAssign key _ | .index key | .indexAssign key _ | .erase key =>
    some key
  | .clear => none

/-- The call goes through `Set`. -/
def MapOp.callsSet : MapOp K V → Bool
  | .insert _ _ | .insertOrAssign _ _ | .index _ | .indexAssign _ _ => true
  | .erase _ | .clear => false

variable [DecidableEq K] [Inhabited V] {F : Functors K} {h h' : LinearHashmap K V} {index : ℕ}

/-- Perform the call. -/
def MapOp.apply (F : Functors K) (h : LinearHashmap K V) : MapOp K V → Option (LinearHashmap K V)
  | .insert key value => (h.insert F key value).map Prod.fst
  | .insertOrAssign key value => (h.insertOrAssign F key value).map Prod.fst
  | .index key => (h.index F key).map Prod.fst
  | .indexAssign key value => h.indexAssign F key value
  | .erase key => h.erase F key
  | .clear => some h.clear

/-- The call keeps the bucket count at or below `2 ^ 30`. -/
def MapOp.Within (h : LinearHashmap K V) (op : MapOp K V) : Prop := op.callsSet = true → h.Within

instance (h : LinearHashmap K V) (op : MapOp K V) : Decidable (op.Within h) :=
  inferInstanceAs (Decidable (_ → h.Within))

/-! ## `Get` returns -/

omit [Inhabited V] in
/-- **What `Get` does**: nothing without buckets, and else a probe that ends. -/
theorem get_spec (F : Functors K) (hC : h.Counters) (key : K) :
    h.bucketCount = 0 ∧ h.get F key = some h.bucketCount ∨
      h.bucketCount ≠ 0 ∧ ∃ index, EndsAt F h key (h.getCont F key) index ∧
        h.get F key = some (if h.emptyAt index then h.bucketCount else index) := by
  by_cases h0 : h.bucketCount = 0
  · exact Or.inl ⟨h0, if_pos h0⟩
  · obtain ⟨index, hend⟩ := hC.exists_getEnd (F := F) h0 key
    refine Or.inr ⟨h0, index, hend, ?_⟩
    rw [get, if_neg h0, (hC.scan_iff h0).2 hend]
    rfl

/-! ## `clear` and assignment through `operator[]` -/

omit [Inhabited V] in
theorem keys_clear (h : LinearHashmap K V) :
    h.clear.keys = List.replicate h.buckets.length h.emptyKey := by
  have hfirst : ∀ b : Bucket K V, (h.clearBucket b).first = h.emptyKey := by
    intro b
    by_cases hb : b.first = h.emptyKey
    · rw [clearBucket, if_pos hb]
      exact hb
    · rw [clearBucket, if_neg hb]
  rw [keys, clear, List.map_map, List.eq_replicate_iff]
  refine ⟨by simp, ?_⟩
  intro k hk
  obtain ⟨b, -, rfl⟩ := List.mem_map.1 hk
  exact hfirst b

omit [Inhabited V] in
theorem nonEmptyCount_clear (h : LinearHashmap K V) : h.clear.nonEmptyCount = 0 := by
  rw [nonEmptyCount, keys_clear, List.countP_eq_zero]
  intro k hk
  rw [List.eq_of_mem_replicate hk]
  simp [clear]

omit [Inhabited V] in
theorem Counters.clear (hC : h.Counters) : h.clear.Counters := by
  have hzero := nonEmptyCount_clear h
  have hle := existsCount_le_nonEmptyCount h.clear
  refine ⟨hC.sentinels, hC.pow, ?_, hC.mask, hC.resizeCount, hC.shrinkCount, by omega,
    Nat.zero_le _, by omega, fun b hb hs => ?_⟩
  · rw [show h.clear.bucketCount = h.bucketCount from rfl, ← hC.length]
    exact List.length_map _
  · have hkey : b.first ∈ h.clear.keys := List.mem_map_of_mem hb
    rw [keys_clear] at hkey
    rw [List.eq_of_mem_replicate hkey] at hs
    simp [isSentinel, LinearHashmap.clear] at hs

omit [Inhabited V] in
theorem Counters.assign (hC : h.Counters) (hi : index < h.bucketCount) (value : V) :
    (h.setBucket index ⟨h.keyAt index, some value⟩).Counters := by
  have hi' : index < h.buckets.length := by rwa [hC.length]
  have hsame : (if h.existsAt index then 1 else 0) =
      if h.isSentinel (h.keyAt index) then 0 else 1 := by
    rw [existsAt_eq]
    cases h.isSentinel (h.keyAt index) <;> rfl
  have hne := Nat.add_right_cancel
    (nonEmptyCount_setBucket hi' (⟨h.keyAt index, some value⟩ : Bucket K V))
  have hex := existsCount_setBucket hi' (⟨h.keyAt index, some value⟩ : Bucket K V)
  rw [hsame] at hex
  have hex := Nat.add_right_cancel hex
  refine ⟨hC.sentinels, hC.pow, ?_, hC.mask, hC.resizeCount, hC.shrinkCount, ?_, hC.used_le, ?_,
    fun b hb hs => ?_⟩
  · rw [← show h.buckets.length = (h.setBucket index _).bucketCount from hC.length]
    exact List.length_set
  · rw [hne]
    exact hC.nonEmpty_le
  · rw [hex]
    exact hC.exists_le
  · rcases List.mem_or_eq_of_mem_set hb with hb | rfl
    · exact hC.constructed b hb hs
    · rfl

/-! ## Every call returns -/

omit [Inhabited V] in
theorem Counters.set (hC : h.Counters) (hin : h.Within) (key : K) (value : V) (displace : Bool) :
    ∃ h' index, h.set F key value displace = some (h', index) ∧ h'.Counters ∧
      index < h'.bucketCount := by
  obtain ⟨t, index, -, hCt, hroom, hend, hset⟩ := set_spec F hC hin key value displace
  refine ⟨_, index, hset, hCt.place hroom hend.lt, ?_⟩
  rw [bucketCount_place]
  exact hend.lt

omit [Inhabited V] in
theorem Counters.erase (hC : h.Counters) (key : K) :
    ∃ h', h.erase F key = some h' ∧ h'.Counters := by
  obtain ⟨i, hi⟩ : ∃ i, h.get F key = some i := by
    rcases get_spec F hC key with ⟨-, hget⟩ | ⟨-, i, -, hget⟩
    · exact ⟨_, hget⟩
    · exact ⟨_, hget⟩
  obtain ⟨h', hdel, hC', -⟩ := delete_spec F hC i
  exact ⟨h', by rw [LinearHashmap.erase, hi]; exact hdel, hC'⟩

/-- **The step lemma**: a call returns and keeps the counters. -/
theorem Counters.apply (hC : h.Counters) (op : MapOp K V) (hin : op.Within h) :
    ∃ h', op.apply F h = some h' ∧ h'.Counters := by
  cases op with
  | insert key value =>
    obtain ⟨h', i, hset, hC', -⟩ := hC.set (F := F) (hin rfl) key value false
    exact ⟨h', by rw [MapOp.apply, insert, hset]; rfl, hC'⟩
  | insertOrAssign key value =>
    obtain ⟨h', i, hset, hC', -⟩ := hC.set (F := F) (hin rfl) key value true
    exact ⟨h', by rw [MapOp.apply, insertOrAssign, hset]; rfl, hC'⟩
  | index key =>
    obtain ⟨h', i, hset, hC', -⟩ := hC.set (F := F) (hin rfl) key default false
    exact ⟨h', by rw [MapOp.apply, LinearHashmap.index, hset]; rfl, hC'⟩
  | indexAssign key value =>
    obtain ⟨h', i, hset, hC', hi⟩ := hC.set (F := F) (hin rfl) key default false
    exact ⟨_, by rw [MapOp.apply, indexAssign, LinearHashmap.index, hset]; rfl,
      hC'.assign hi value⟩
  | erase key => exact hC.erase key
  | clear => exact ⟨h.clear, rfl, hC.clear⟩

end LinearHashmap

end Naesala
