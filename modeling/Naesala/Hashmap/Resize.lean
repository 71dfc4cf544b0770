import Naesala.Hashmap.Counters

/-!
# `Set`, `Delete` and `Resize` keep the counters

`Set` writes one bucket (`place`) of a table with room, `Delete` marks one bucket, and both may
rebuild the table first or last. `Moved` is the rebuild as a relation: one `place` for each
existing bucket of the old table, in order. `set_spec` and `delete_spec` say once what the two
operations can do; the later files derive their invariants from them and from `Moved`, and
unfold neither the nested calls nor the loop.
-/

namespace Naesala.LinearHashmap

variable {K V : Type} [DecidableEq K] {F : Functors K}
variable {h h' t t' : LinearHashmap K V} {key : K} {value : V} {displace : Bool} {index n : ℕ}

/-! ## Writing a bucket -/

theorem nonEmptyCount_setBucket (hi : index < h.buckets.length) (b : Bucket K V) :
    (h.setBucket index b).nonEmptyCount + (if h.keyAt index = h.emptyKey then 0 else 1) =
      h.nonEmptyCount + if b.first = h.emptyKey then 0 else 1 := by
  have hi' : index < h.keys.length := by simpa using hi
  have hset := countP_set_add (fun k => decide (k ≠ h.emptyKey)) hi' b.first
  rw [← keyAt_eq_keys hi'] at hset
  unfold nonEmptyCount
  rw [keys_setBucket]
  simp only [decide_eq_true_eq, ite_not] at hset
  exact hset

theorem existsCount_setBucket (hi : index < h.buckets.length) (b : Bucket K V) :
    (h.setBucket index b).existsCount + (if h.existsAt index then 1 else 0) =
      h.existsCount + if h.isSentinel b.first then 0 else 1 := by
  have hi' : index < h.keys.length := by simpa using hi
  have hset := countP_set_add (fun k => !h.isSentinel k) hi' b.first
  rw [← keyAt_eq_keys hi', ← existsAt_eq] at hset
  unfold existsCount
  rw [keys_setBucket]
  have hflip : (if (!h.isSentinel b.first) = true then 1 else 0) =
      if h.isSentinel b.first then 0 else 1 := by
    cases h.isSentinel b.first <;> rfl
  rw [hflip] at hset
  exact hset

theorem not_empty_of_exists (he : h.existsAt index = true) : h.keyAt index ≠ h.emptyKey := by
  intro hk
  simp [existsAt, deletedOrEmptyAt, emptyAt, hk] at he

/-! ## `place` -/

section Place

variable (h : LinearHashmap K V) (index : ℕ) (key : K) (value : V) (displace : Bool)

@[simp] theorem emptyKey_place : (h.place index key value displace).emptyKey = h.emptyKey := by
  unfold place
  split_ifs <;> rfl

@[simp] theorem erasedKey_place :
    (h.place index key value displace).erasedKey = h.erasedKey := by
  unfold place
  split_ifs <;> rfl

@[simp] theorem bucketCount_place :
    (h.place index key value displace).bucketCount = h.bucketCount := by
  unfold place
  split_ifs <;> rfl

@[simp] theorem resizeCount_place :
    (h.place index key value displace).resizeCount = h.resizeCount := by
  unfold place
  split_ifs <;> rfl

@[simp] theorem mask_place : (h.place index key value displace).mask = h.mask := by
  unfold place
  split_ifs <;> rfl

@[simp] theorem isSentinel_place (k : K) :
    (h.place index key value displace).isSentinel k = h.isSentinel k := by
  simp [isSentinel]

@[simp] theorem path_place (k : K) (j : ℕ) :
    path F (h.place index key value displace) k j = path F h k j := by
  simp [path]

theorem used_place_le : (h.place index key value displace).used ≤ h.used + 1 := by
  unfold place
  split_ifs <;> simp [setBucket]

end Place

theorem Counters.place (hC : h.Counters) (hroom : h.used < h.resizeCount)
    (hi : index < h.bucketCount) : (h.place index key value displace).Counters := by
  have hi' : index < h.buckets.length := by rwa [hC.length]
  have hne := nonEmptyCount_setBucket hi' (⟨key, some value⟩ : Bucket K V)
  have hex := existsCount_setBucket hi' (⟨key, some value⟩ : Bucket K V)
  have hmem : ∀ b ∈ (h.setBucket index ⟨key, some value⟩).buckets,
      h.isSentinel b.first = false → b.second.isSome := by
    intro b hb hs
    rcases List.mem_or_eq_of_mem_set hb with hb | rfl
    · exact hC.constructed b hb hs
    · rfl
  have hnonEmpty := hC.nonEmpty_le
  have hexists := hC.exists_le
  have hlen : (h.setBucket index ⟨key, some value⟩).buckets.length = h.bucketCount := by
    rw [← hC.length]
    exact List.length_set
  unfold LinearHashmap.place
  split_ifs with he hd hempty
  · -- An existing bucket is overwritten: neither count can grow.
    rw [if_neg (not_empty_of_exists he)] at hne
    rw [if_pos he] at hex
    refine ⟨hC.sentinels, hC.pow, hlen, hC.mask, hC.resizeCount, hC.shrinkCount, ?_, hC.used_le,
      ?_, hmem⟩
    · show (h.setBucket index ⟨key, some value⟩).nonEmptyCount ≤ h.used
      split_ifs at hne <;> omega
    · show (h.setBucket index ⟨key, some value⟩).existsCount ≤ h.size
      split_ifs at hex <;> omega
  · exact hC
  · -- An empty bucket is taken: `used_` grows with it.
    rw [if_neg he] at hex
    refine ⟨hC.sentinels, hC.pow, hlen, hC.mask, hC.resizeCount, hC.shrinkCount, ?_, ?_, ?_, hmem⟩
    · show (h.setBucket index ⟨key, some value⟩).nonEmptyCount ≤ h.used + 1
      split_ifs at hne <;> omega
    · show h.used + 1 ≤ h.resizeCount
      omega
    · show (h.setBucket index ⟨key, some value⟩).existsCount ≤ h.size + 1
      split_ifs at hex <;> omega
  · -- A deleted bucket is reused: it was counted in `used_` already.
    rw [if_neg he] at hex
    have hkey : h.keyAt index ≠ h.emptyKey := by simpa [emptyAt] using hempty
    rw [if_neg hkey] at hne
    refine ⟨hC.sentinels, hC.pow, hlen, hC.mask, hC.resizeCount, hC.shrinkCount, ?_, hC.used_le,
      ?_, hmem⟩
    · show (h.setBucket index ⟨key, some value⟩).nonEmptyCount ≤ h.used
      split_ifs at hne <;> omega
    · show (h.setBucket index ⟨key, some value⟩).existsCount ≤ h.size + 1
      split_ifs at hex <;> omega

/-! ## Tables without buckets in use -/

/-- The table that `Resize` moves the buckets of `h` into. -/
def fresh (h : LinearHashmap K V) (n : ℕ) : LinearHashmap K V :=
  (blank h.emptyKey h.erasedKey).firstResize n

omit [DecidableEq K] in
theorem keys_firstResize (h : LinearHashmap K V) (n : ℕ) :
    (h.firstResize n).keys = List.replicate n h.emptyKey := by
  simp [keys, firstResize]

theorem nonEmptyCount_firstResize (h : LinearHashmap K V) (n : ℕ) :
    (h.firstResize n).nonEmptyCount = 0 := by
  rw [nonEmptyCount, keys_firstResize, List.countP_eq_zero]
  intro k hk
  rw [List.eq_of_mem_replicate hk]
  simp [firstResize]

/-- The first `Resize` of a table without buckets, or with room for none. -/
theorem counters_firstResize (hs : h.emptyKey ≠ h.erasedKey) (hu : h.used = 0)
    (hn : n = 0 ∨ ∃ j ≤ 30, n = 2 ^ j) : (h.firstResize n).Counters := by
  have hzero := nonEmptyCount_firstResize h n
  have hle := existsCount_le_nonEmptyCount (h.firstResize n)
  have hsmall : n ≤ 2 ^ 30 := by
    rcases hn with rfl | ⟨j, hj, rfl⟩
    · omega
    · exact Nat.pow_le_pow_right (by omega) hj
  refine ⟨hs, fun h0 => hn.resolve_left h0, List.length_replicate, fun h0 => ?_, rfl, rfl, ?_, ?_,
    by omega, fun b hb hsent => ?_⟩
  · show (n + (2 ^ 64 - 1)) % 2 ^ 64 = n - 1
    have hpos : n ≠ 0 := h0
    omega
  · omega
  · show h.used ≤ resizeCountOf n kLoadFactor
    omega
  · rw [List.eq_of_mem_replicate hb] at hsent
    simp [isSentinel, firstResize] at hsent

theorem counters_construct {e d : K} (hn : nextPowTwo n ≤ 2 ^ 30)
    (h : construct n e d = some t) : t.Counters := by
  unfold construct at h
  split_ifs at h with hed hn0 <;> cases h
  · exact counters_firstResize hed rfl (nextPowTwo_cases hn)
  · exact ⟨hed, fun h => absurd rfl h, rfl, fun h => absurd rfl h, rfl, rfl, le_rfl, le_rfl, le_rfl,
      fun b hb => absurd hb List.not_mem_nil⟩

/-! ## The loop of `Resize` -/

/-- The loop of `Resize` takes the new table from `t` to `t'` over the old buckets `bs`. -/
inductive Moved (F : Functors K) :
    LinearHashmap K V → List (Bucket K V) → LinearHashmap K V → Prop
  | nil (t : LinearHashmap K V) : Moved F t [] t
  | skip {t t' : LinearHashmap K V} {b : Bucket K V} {bs : List (Bucket K V)} :
      t.isSentinel b.first = true → Moved F t bs t' → Moved F t (b :: bs) t'
  | move {t t' : LinearHashmap K V} {k : K} {v : V} {bs : List (Bucket K V)} {index : ℕ} :
      t.isSentinel k = false → t.used < t.resizeCount →
      EndsAt F t k (t.setCont F k) index → Moved F (t.place index k v false) bs t' →
      Moved F t (⟨k, some v⟩ :: bs) t'

theorem Moved.counters {bs : List (Bucket K V)} (hM : Moved F t bs t') (hC : t.Counters) :
    t'.Counters := by
  induction hM with
  | nil => exact hC
  | skip _ _ ih => exact ih hC
  | move _ hroom hend _ ih => exact ih (hC.place hroom hend.lt)

theorem Moved.bucketCount_eq {bs : List (Bucket K V)} (hM : Moved F t bs t') :
    t'.bucketCount = t.bucketCount := by
  induction hM with
  | nil => rfl
  | skip _ _ ih => exact ih
  | move _ _ _ _ ih => rw [ih, bucketCount_place]

theorem Moved.sentinels_eq {bs : List (Bucket K V)} (hM : Moved F t bs t') :
    t'.emptyKey = t.emptyKey ∧ t'.erasedKey = t.erasedKey := by
  induction hM with
  | nil => exact ⟨rfl, rfl⟩
  | skip _ _ ih => exact ih
  | move _ _ _ _ ih => rw [ih.1, ih.2, emptyKey_place, erasedKey_place]; exact ⟨rfl, rfl⟩

theorem Moved.used_le {bs : List (Bucket K V)} (hM : Moved F t bs t') :
    t'.used ≤ t.used + (bs.map Bucket.first).countP fun k => !t.isSentinel k := by
  induction hM with
  | nil => exact Nat.le_add_right _ _
  | @skip t t' b bs hs _ ih =>
    rw [List.map_cons, List.countP_cons_of_neg (by simp [hs])]
    exact ih
  | @move t t' k v bs index hs _ _ _ ih =>
    rw [List.map_cons, List.countP_cons_of_pos (by simp [hs])]
    have hone := used_place_le t index k v false
    simp only [isSentinel_place] at ih
    omega

/-! ## `Set` on a table with room -/

/-- On a table with room, `set` probes and writes one bucket. -/
def Places (F : Functors K)
    (set : LinearHashmap K V → K → V → Bool → Option (LinearHashmap K V × ℕ)) : Prop :=
  ∀ (t : LinearHashmap K V) (key : K) (value : V) (displace : Bool) (index : ℕ), t.Counters →
    t.used < t.resizeCount → EndsAt F t key (t.setCont F key) index →
    set t key value displace = some (t.place index key value displace, index)

theorem places_setNested (F : Functors K) (n : ℕ) :
    Places F (setNested F (n + 1) : LinearHashmap K V → K → V → Bool → _) := by
  intro h key value displace index hC hroom hend
  have h0 := hC.bucketCount_ne_zero hroom
  have hexp : expandWith (setNested F n) h = some h := if_neg (by omega)
  rw [setNested, hexp, Option.bind_eq_bind, Option.bind_some, (hC.scan_iff h0).2 hend]
  rfl

/-- The loop of `Resize` runs through, if the new table has room for all existing buckets; no
`Set` in it meets a full table. -/
theorem exists_moved (hC : t.Counters)
    (hs : t.emptyKey = h.emptyKey ∧ t.erasedKey = h.erasedKey) (bs : List (Bucket K V))
    (hbs : ∀ b ∈ bs, t.isSentinel b.first = false → b.second.isSome)
    (hfit : t.used + ((bs.map Bucket.first).countP fun k => !t.isSentinel k) ≤ t.resizeCount) :
    ∃ t', (∀ set, Places F set → bs.foldlM (moveInto set h) t = some t') ∧ Moved F t bs t' := by
  induction bs generalizing t with
  | nil => exact ⟨t, fun _ _ => rfl, .nil t⟩
  | cons b bs ih =>
    have hsent : ∀ k, h.isSentinel k = t.isSentinel k := fun k => by simp [isSentinel, hs.1, hs.2]
    have hbs' : ∀ b ∈ bs, t.isSentinel b.first = false → b.second.isSome :=
      fun b hb => hbs b (List.mem_cons_of_mem _ hb)
    cases hb : t.isSentinel b.first with
    | true =>
      rw [List.map_cons, List.countP_cons_of_neg (by simp [hb])] at hfit
      obtain ⟨t', hfold, hM⟩ := ih hC hs hbs' hfit
      refine ⟨t', fun set hset => ?_, .skip hb hM⟩
      rw [List.foldlM_cons, moveInto, hsent, if_pos hb]
      exact hfold set hset
    | false =>
      rw [List.map_cons, List.countP_cons_of_pos (by simp [hb])] at hfit
      obtain ⟨k, second⟩ := b
      obtain ⟨v, rfl⟩ := Option.isSome_iff_exists.1 (hbs _ List.mem_cons_self hb)
      have hroom : t.used < t.resizeCount := by omega
      obtain ⟨index, hend⟩ := hC.exists_setEnd (F := F) (hC.bucketCount_ne_zero hroom) k
      have hone := used_place_le t index k v false
      obtain ⟨t', hfold, hM⟩ := ih (t := t.place index k v false) (hC.place hroom hend.lt)
        (by simpa using hs) (by simpa using hbs')
        (by simp only [isSentinel_place, resizeCount_place]; omega)
      refine ⟨t', fun set hset => ?_, .move hb hroom hend hM⟩
      rw [List.foldlM_cons, moveInto, hsent, if_neg (by simp [hb]), Option.bind_some,
        hset t k v false index hC hroom hend]
      exact hfold set hset

/-- **`Resize` of a table in use**, to a size with room for all existing buckets. -/
theorem Counters.resizeWith (hC : h.Counters) (h0 : h.bucketCount ≠ 0) {j : ℕ} (hj : j ≤ 30)
    (hfit : h.existsCount ≤ resizeCountOf (2 ^ j) kLoadFactor) :
    ∃ t, (∀ set, Places F set → resizeWith set h (2 ^ j) = some t) ∧
      (h.fresh (2 ^ j)).Counters ∧ Moved F (h.fresh (2 ^ j)) h.buckets t := by
  have hfresh : (h.fresh (2 ^ j)).Counters :=
    counters_firstResize hC.sentinels rfl (Or.inr ⟨j, hj, rfl⟩)
  have hcons : construct (2 ^ j) h.emptyKey h.erasedKey = some (h.fresh (2 ^ j)) := by
    rw [construct, if_neg hC.sentinels, if_pos (by positivity), nextPowTwo_two_pow hj]
    rfl
  obtain ⟨t, hfold, hM⟩ := exists_moved (F := F) (h := h) hfresh ⟨rfl, rfl⟩ h.buckets
    hC.constructed (by rw [show (h.fresh (2 ^ j)).used = 0 from rfl, Nat.zero_add]; exact hfit)
  obtain ⟨he, hd⟩ := hM.sentinels_eq
  have hswap : swap h t = some (t, h) := if_pos ⟨he.symm, hd.symm⟩
  refine ⟨t, fun set hset => ?_, hfresh, hM⟩
  rw [LinearHashmap.resizeWith, if_neg h0, hcons]
  simp only [Option.bind_eq_bind, Option.bind_some, hfold set hset, hswap]

/-! ## `Set` -/

/-- If `Set` grows the table, it asks for at most `2 ^ 30` buckets. -/
def Within (h : LinearHashmap K V) : Prop := h.used ≥ h.resizeCount → h.growCount ≤ 2 ^ 30

instance (h : LinearHashmap K V) : Decidable h.Within :=
  inferInstanceAs (Decidable (_ → _))

/-- The table that `Set` probes: the table itself, its first buckets, or twice its buckets. -/
inductive Expanded (F : Functors K) (h : LinearHashmap K V) : LinearHashmap K V → Prop
  | same : h.used < h.resizeCount → Expanded F h h
  | first : h.bucketCount = 0 → h.used ≥ h.resizeCount → Expanded F h (h.firstResize 8)
  | grown {t : LinearHashmap K V} : h.bucketCount ≠ 0 → h.used ≥ h.resizeCount →
      (h.fresh (2 * h.bucketCount)).Counters → Moved F (h.fresh (2 * h.bucketCount)) h.buckets t →
      Expanded F h t

theorem Expanded.sentinels_eq (hE : Expanded F h t) :
    t.emptyKey = h.emptyKey ∧ t.erasedKey = h.erasedKey := by
  cases hE with
  | same | first => exact ⟨rfl, rfl⟩
  | grown _ _ _ hM => exact hM.sentinels_eq

theorem Expanded.isSentinel_eq (hE : Expanded F h t) (key : K) :
    t.isSentinel key = h.isSentinel key := by
  rw [isSentinel, isSentinel, hE.sentinels_eq.1, hE.sentinels_eq.2]

theorem growCount_eq (hC : h.Counters) (h0 : h.bucketCount ≠ 0) :
    h.growCount = 2 * h.bucketCount := by
  have hle := hC.bucketCount_le
  rw [growCount, if_pos h0, sizeT, Nat.shiftLeft_eq, Nat.mod_eq_of_lt (by omega)]
  omega

theorem Counters.existsCount_le (hC : h.Counters) :
    h.existsCount ≤ resizeCountOf h.bucketCount kLoadFactor := by
  have := existsCount_le_nonEmptyCount h
  have := hC.nonEmpty_le
  have := hC.used_le
  rw [← hC.resizeCount]
  omega

/-- `Resize` to twice the buckets, where `Set` asks for it. -/
theorem Counters.grow (hC : h.Counters) (h0 : h.bucketCount ≠ 0) (hle : h.growCount ≤ 2 ^ 30) :
    ∃ t, (∀ set, Places F set → LinearHashmap.resizeWith set h h.growCount = some t) ∧
      (h.fresh (2 * h.bucketCount)).Counters ∧
      Moved F (h.fresh (2 * h.bucketCount)) h.buckets t := by
  obtain ⟨j, hj, hp⟩ := hC.pow h0
  have hdouble : 2 * h.bucketCount = 2 ^ (j + 1) := by rw [hp, pow_succ]; omega
  rw [growCount_eq hC h0, hdouble] at hle ⊢
  have hj' : j + 1 ≤ 30 := by
    by_contra hlt
    rw [show j + 1 = 31 by omega] at hle
    omega
  have hload := resizeCountOf_load_double h0
  have hexists := hC.existsCount_le
  exact hC.resizeWith h0 hj' (by rw [← hdouble]; omega)

theorem Counters.expandWith (hC : h.Counters) (hin : h.Within) (n : ℕ) :
    ∃ t, expandWith (setNested F (n + 1)) h = some t ∧ Expanded F h t ∧ t.Counters ∧
      t.used < t.resizeCount := by
  by_cases hroom : h.used < h.resizeCount
  · exact ⟨h, if_neg (by omega), .same hroom, hC, hroom⟩
  have hfull : h.used ≥ h.resizeCount := by omega
  rw [LinearHashmap.expandWith, if_pos hfull]
  by_cases h0 : h.bucketCount = 0
  · have hu : h.used = 0 := by
      have := hC.used_le
      rw [hC.resizeCount, h0, resizeCountOf_zero] at this
      omega
    have hgrow : h.growCount = 8 := if_neg (by simp [h0])
    refine ⟨h.firstResize 8, ?_, .first h0 hfull,
      counters_firstResize hC.sentinels hu (Or.inr ⟨3, by omega, rfl⟩), ?_⟩
    · rw [hgrow]
      exact if_pos h0
    · show h.used < resizeCountOf 8 kLoadFactor
      rw [hu, resizeCountOf_load]
      omega
  · obtain ⟨t, ht, hfresh, hM⟩ := hC.grow (F := F) h0 (hin hfull)
    have hCt := hM.counters hfresh
    refine ⟨t, ht _ (places_setNested F n), .grown h0 hfull hfresh hM, hCt, ?_⟩
    have hused : t.used ≤ h.existsCount := by
      have := hM.used_le
      rwa [show (h.fresh (2 * h.bucketCount)).used = 0 from rfl, Nat.zero_add] at this
    have hexists := hC.existsCount_le
    have hload := resizeCountOf_load_double h0
    rw [hCt.resizeCount, hM.bucketCount_eq]
    show t.used < resizeCountOf (2 * h.bucketCount) kLoadFactor
    omega

/-- **What `Set` does**: make room, probe, and write one bucket. -/
theorem set_spec (F : Functors K) (hC : h.Counters) (hin : h.Within) (key : K) (value : V)
    (displace : Bool) :
    ∃ t index, Expanded F h t ∧ t.Counters ∧ t.used < t.resizeCount ∧
      EndsAt F t key (t.setCont F key) index ∧
      set F h key value displace = some (t.place index key value displace, index) := by
  obtain ⟨t, ht, hE, hCt, hroom⟩ := hC.expandWith (F := F) hin 62
  have h0 := hCt.bucketCount_ne_zero hroom
  obtain ⟨index, hend⟩ := hCt.exists_setEnd (F := F) h0 key
  refine ⟨t, index, hE, hCt, hroom, hend, ?_⟩
  rw [set, maxNesting, setNested, ht, Option.bind_eq_bind, Option.bind_some,
    (hCt.scan_iff h0).2 hend]
  rfl

/-! ## `Delete` -/

/-- The table after `SetDeleted` and `--size_`. -/
def marked (h : LinearHashmap K V) (index : ℕ) : LinearHashmap K V :=
  { h.setDeleted index with size := h.size - 1 }

/-- The table that `Delete` leaves after marking: the table itself or half its buckets. -/
inductive Shrunk (F : Functors K) (h : LinearHashmap K V) : LinearHashmap K V → Prop
  | same : Shrunk F h h
  | half {t : LinearHashmap K V} {p : ℕ} : h.bucketCount = 2 * p → h.bucketCount > 8 →
      h.size < h.shrinkCount → (h.fresh p).Counters → Moved F (h.fresh p) h.buckets t → Shrunk F h t

theorem Counters.marked (hC : h.Counters) (hi : index < h.bucketCount)
    (he : h.existsAt index = true) : (h.marked index).Counters := by
  have hi' : index < h.buckets.length := by rwa [hC.length]
  have hne := nonEmptyCount_setBucket hi' (⟨h.erasedKey, none⟩ : Bucket K V)
  have hex := existsCount_setBucket hi' (⟨h.erasedKey, none⟩ : Bucket K V)
  rw [if_neg (not_empty_of_exists he), if_neg hC.sentinels.symm] at hne
  rw [if_pos he, if_pos (by simp [isSentinel])] at hex
  have hnonEmpty := hC.nonEmpty_le
  have hexists := hC.exists_le
  refine ⟨hC.sentinels, hC.pow, ?_, hC.mask, hC.resizeCount, hC.shrinkCount, ?_, hC.used_le, ?_,
    fun b hb hs => ?_⟩
  · rw [← show h.buckets.length = (h.marked index).bucketCount from hC.length]
    exact List.length_set
  · show (h.setBucket index ⟨h.erasedKey, none⟩).nonEmptyCount ≤ h.used
    omega
  · show (h.setBucket index ⟨h.erasedKey, none⟩).existsCount ≤ h.size - 1
    omega
  · rcases List.mem_or_eq_of_mem_set hb with hb | rfl
    · exact hC.constructed b hb hs
    · simp [isSentinel, LinearHashmap.marked, setDeleted, setBucket] at hs

/-- `Resize` to half the buckets, where `Delete` asks for it. -/
theorem Counters.halve (hC : h.Counters) (hsize : h.size < h.shrinkCount)
    (hbig : h.bucketCount > 8) :
    ∃ t p, (∀ set, Places F set → LinearHashmap.resizeWith set h (h.bucketCount >>> 1) = some t) ∧
      h.bucketCount = 2 * p ∧ (h.fresh p).Counters ∧ Moved F (h.fresh p) h.buckets t := by
  obtain ⟨j, hj, hp⟩ := hC.pow (by omega)
  obtain ⟨i, rfl⟩ : ∃ i, j = i + 4 := by
    refine ⟨j - 4, ?_⟩
    by_contra hlt4
    have : (2 : ℕ) ^ j ≤ 2 ^ 3 := Nat.pow_le_pow_right (by omega) (by omega)
    omega
  have hhalf : h.bucketCount = 2 * 2 ^ (i + 3) := by rw [hp]; ring
  have hshift : h.bucketCount >>> 1 = 2 ^ (i + 3) := by
    rw [Nat.shiftRight_eq_div_pow]
    omega
  have height : 8 ≤ 2 ^ (i + 3) := by
    have := Nat.one_le_two_pow (n := i)
    rw [pow_add]
    omega
  have hfit : h.existsCount ≤ resizeCountOf (2 ^ (i + 3)) kLoadFactor := by
    have hle := resizeCountOf_shrink_le height
    have := hC.exists_le
    rw [hC.shrinkCount, hhalf] at hsize
    omega
  obtain ⟨t, ht, hfresh, hM⟩ := hC.resizeWith (F := F) (by omega) (by omega) hfit
  exact ⟨t, 2 ^ (i + 3), by rw [hshift]; exact ht, hhalf, hfresh, hM⟩

theorem delete_of_exists (F : Functors K) (hlt : index < h.bucketCount)
    (he : h.existsAt index = true) :
    delete F h index = if (h.marked index).size < (h.marked index).shrinkCount ∧
        (h.marked index).bucketCount > 8 then
          (h.marked index).resize F ((h.marked index).bucketCount >>> 1)
        else some (h.marked index) := by
  have hgo : ¬ (index ≥ h.bucketCount || h.deletedOrEmptyAt index) = true := by
    have hne : h.deletedOrEmptyAt index = false := by simpa [existsAt] using he
    simp [hne, hlt]
  rw [delete, if_neg hgo]
  rfl

/-- **What `Delete` does**: nothing, or mark one bucket and perhaps halve the table. -/
theorem delete_spec (F : Functors K) (hC : h.Counters) (index : ℕ) :
    ∃ h', delete F h index = some h' ∧ h'.Counters ∧
      (¬ (index < h.bucketCount ∧ h.existsAt index = true) ∧ h' = h ∨
        index < h.bucketCount ∧ h.existsAt index = true ∧ Shrunk F (h.marked index) h') := by
  by_cases hi : index < h.bucketCount ∧ h.existsAt index = true
  · obtain ⟨hlt, he⟩ := hi
    have hCm := hC.marked hlt he
    rw [delete_of_exists F hlt he]
    split_ifs with hsmall
    · obtain ⟨hsize, hbig⟩ := hsmall
      obtain ⟨t, p, ht, hhalf, hfresh, hM⟩ := hCm.halve (F := F) hsize hbig
      exact ⟨t, ht _ (places_setNested F 63), hM.counters hfresh,
        Or.inr ⟨hlt, he, .half hhalf hbig hsize hfresh hM⟩⟩
    · exact ⟨h.marked index, rfl, hCm, Or.inr ⟨hlt, he, .same⟩⟩
  · refine ⟨h, ?_, hC, Or.inl ⟨hi, rfl⟩⟩
    rw [delete, if_pos]
    rw [Bool.or_eq_true, decide_eq_true_eq]
    by_cases hlt : index < h.bucketCount
    · have hne : ¬ h.existsAt index = true := fun he => hi ⟨hlt, he⟩
      exact Or.inr (by simpa [existsAt] using hne)
    · exact Or.inl (by omega)

end Naesala.LinearHashmap
