import Naesala.Hashmap.Capacity
import Naesala.Hashmap.Objects

/-!
# What holds of every table

The counter invariant needs bucket counts of at most `2 ^ 30`. Whatever the counts, a table used
with ordinary keys is `Formed`: its array, mask and thresholds belong to its bucket count, its
counters count its buckets, and the mapped objects are constructed in the existing buckets and
nowhere else.

* `Closed` — a property that every way in which a table comes about or changes keeps.
* `Closed.setNested` — `Set` keeps it at every depth, so nothing else unfolds the nested calls.
* `Closed.reach` — it holds of every map of every program that uses ordinary keys.
* `closed_formed` — `Formed` is such a property.
-/

namespace Naesala

namespace LinearHashmap

variable {K V : Type} [DecidableEq K] {F : Functors K} {P : LinearHashmap K V → Prop}
variable {h h' t t' other : LinearHashmap K V} {key : K} {value : V} {displace : Bool}
  {index n : ℕ}

/-! ## Well-formed tables -/

/-- What holds of every table that is used with ordinary keys. -/
structure Formed (h : LinearHashmap K V) : Prop where
  sentinels : h.emptyKey ≠ h.erasedKey
  lt : h.bucketCount < 2 ^ 64
  length : h.buckets.length = h.bucketCount
  null : h.isNull = true → h = blank h.emptyKey h.erasedKey
  mask : h.bucketCount ≠ 0 → h.mask + 1 = h.bucketCount
  resizeCount : h.resizeCount = resizeCountOf h.bucketCount kLoadFactor
  shrinkCount : h.shrinkCount = resizeCountOf h.bucketCount kShrinkFactor
  size : h.size = h.existsCount
  used : h.used = h.nonEmptyCount
  constructed : ∀ b ∈ h.buckets, b.second.isSome = !h.isSentinel b.first

/-- The two tables have the same sentinels. -/
def SameSentinels (h t : LinearHashmap K V) : Prop :=
  t.emptyKey = h.emptyKey ∧ t.erasedKey = h.erasedKey

theorem SameSentinels.isSentinel_eq (hs : SameSentinels h t) (key : K) :
    t.isSentinel key = h.isSentinel key := by
  rw [isSentinel, isSentinel, hs.1, hs.2]

omit [DecidableEq K] in
theorem SameSentinels.trans (hs : SameSentinels h t) (hs' : SameSentinels t t') :
    SameSentinels h t' :=
  ⟨hs'.1.trans hs.1, hs'.2.trans hs.2⟩

theorem Formed.buckets_eq_nil (hF : h.Formed) (h0 : h.bucketCount = 0) : h.buckets = [] :=
  List.eq_nil_of_length_eq_zero (by rw [hF.length, h0])

theorem Formed.counts_zero (hF : h.Formed) (h0 : h.bucketCount = 0) : h.size = 0 ∧ h.used = 0 := by
  have hkeys : h.keys = [] := by rw [keys, hF.buckets_eq_nil h0]; rfl
  rw [hF.size, hF.used, existsCount, nonEmptyCount, hkeys]
  exact ⟨rfl, rfl⟩

/-! ## Probes stay inside the table -/

theorem Formed.next_iterate_lt (hF : h.Formed) (h0 : h.bucketCount ≠ 0) (x d : ℕ) :
    h.next^[d] (x &&& h.mask) < h.bucketCount := by
  have hmask := hF.mask h0
  have hand : ∀ y, y &&& h.mask < h.bucketCount := by
    intro y
    have := Nat.and_le_right (n := y) (m := h.mask)
    omega
  cases d with
  | zero => exact hand x
  | succ d =>
    rw [Function.iterate_succ_apply']
    exact hand _

/-- The probe of `Set` for a key ends at a bucket of the table. -/
def Probed (F : Functors K) (h : LinearHashmap K V) (key : K) (index : ℕ) : Prop :=
  scan (h.setCont F key) h.next h.bucketCount (F.hasher key &&& h.mask) = some index

theorem Formed.probed_lt (hF : h.Formed) (hp : Probed F h key index) : index < h.bucketCount := by
  obtain ⟨d, hd, rfl, -⟩ := Cyclic.scan_eq_some_iff.1 hp
  exact hF.next_iterate_lt (by omega) _ d

/-! ## The properties of all tables -/

/-- The ways in which a table comes about or changes keep the property. -/
structure Closed (F : Functors K) (P : LinearHashmap K V → Prop) : Prop where
  formed : ∀ {h}, P h → h.Formed
  construct : ∀ {n e d h}, construct n e d = some h → P h
  first : ∀ {h}, P h → h.bucketCount = 0 → P (h.firstResize 8)
  place : ∀ {h key value displace index}, P h → h.isSentinel key = false →
    Probed F h key index → P (h.place index key value displace)
  assign : ∀ {h index value}, P h → index < h.bucketCount → h.existsAt index = true →
    P (h.setBucket index ⟨h.keyAt index, some value⟩)
  marked : ∀ {h index}, P h → index < h.bucketCount → h.existsAt index = true →
    P (h.marked index)
  clear : ∀ {h}, P h → P h.clear

/-- `set` keeps the property, for ordinary keys. -/
def Keeps (P : LinearHashmap K V → Prop)
    (set : LinearHashmap K V → K → V → Bool → Option (LinearHashmap K V × ℕ)) : Prop :=
  ∀ t key value displace r, P t → t.isSentinel key = false → set t key value displace = some r →
    P r.1 ∧ SameSentinels t r.1

section Nested

variable {set : LinearHashmap K V → K → V → Bool → Option (LinearHashmap K V × ℕ)}

theorem Keeps.moveInto (hset : Keeps P set) {b : Bucket K V} (ht : P t) (hs : SameSentinels h t)
    (hm : moveInto set h t b = some t') : P t' ∧ SameSentinels h t' := by
  unfold LinearHashmap.moveInto at hm
  split_ifs at hm with hb
  · cases hm
    exact ⟨ht, hs⟩
  · obtain ⟨v, -, hm⟩ := Option.bind_eq_some_iff.1 hm
    obtain ⟨r, hr, rfl⟩ := Option.map_eq_some_iff.1 hm
    have hk : t.isSentinel b.first = false := by
      rw [hs.isSentinel_eq]
      simpa using hb
    obtain ⟨hP, hs'⟩ := hset t b.first v false r ht hk hr
    exact ⟨hP, hs.trans hs'⟩

theorem Keeps.foldlM (hset : Keeps P set) (bs : List (Bucket K V)) (ht : P t)
    (hs : SameSentinels h t) (hm : bs.foldlM (LinearHashmap.moveInto set h) t = some t') :
    P t' ∧ SameSentinels h t' := by
  induction bs generalizing t with
  | nil =>
    cases hm
    exact ⟨ht, hs⟩
  | cons b bs ih =>
    rw [List.foldlM_cons] at hm
    obtain ⟨u, hu, hm⟩ := Option.bind_eq_some_iff.1 hm
    obtain ⟨hPu, hsu⟩ := hset.moveInto ht hs hu
    exact ih hPu hsu hm

theorem construct_sentinels {e d : K} (hc : construct n e d = some h) :
    h.emptyKey = e ∧ h.erasedKey = d := by
  unfold construct at hc
  split_ifs at hc <;> cases hc <;> exact ⟨rfl, rfl⟩

theorem Closed.resizeWith (hP : Closed F P) (hset : Keeps P set) (hh : P h)
    (hn : h.bucketCount = 0 → n = 8) (hr : resizeWith set h n = some t) :
    P t ∧ SameSentinels h t := by
  by_cases h0 : h.bucketCount = 0
  · rw [LinearHashmap.resizeWith, if_pos h0, hn h0] at hr
    cases hr
    exact ⟨hP.first hh h0, rfl, rfl⟩
  · rw [resizeWith_eq h0] at hr
    obtain ⟨u, hu, hr⟩ := Option.bind_eq_some_iff.1 hr
    obtain ⟨v, hv, hr⟩ := Option.bind_eq_some_iff.1 hr
    obtain ⟨r, hswap, rfl⟩ := Option.map_eq_some_iff.1 hr
    obtain ⟨hPv, hsv⟩ := hset.foldlM h.buckets (hP.construct hu) (construct_sentinels hu) hv
    unfold swap at hswap
    split_ifs at hswap
    cases hswap
    exact ⟨hPv, hsv⟩

theorem Closed.expandWith (hP : Closed F P) (hset : Keeps P set) (hh : P h)
    (he : expandWith set h = some t) : P t ∧ SameSentinels h t := by
  unfold LinearHashmap.expandWith at he
  split_ifs at he
  · exact hP.resizeWith hset hh (fun h0 => if_neg (by simp [h0])) he
  · cases he
    exact ⟨hh, rfl, rfl⟩

/-- What a `Set` that returns has done. -/
theorem setNested_cases {depth : ℕ} {r : LinearHashmap K V × ℕ}
    (hset : setNested F depth h key value displace = some r) :
    ∃ d t, depth = d + 1 ∧ LinearHashmap.expandWith (setNested F d) h = some t ∧
      Probed F t key r.2 ∧ r.1 = t.place r.2 key value displace := by
  cases depth with
  | zero => cases hset
  | succ d =>
    obtain ⟨t, ht, hset⟩ := Option.bind_eq_some_iff.1 hset
    obtain ⟨index, hindex, hset⟩ := Option.bind_eq_some_iff.1 hset
    cases hset
    exact ⟨d, t, rfl, ht, hindex, rfl⟩

/-- **`Set` keeps the property**, however deep its calls are nested. -/
theorem Closed.setNested (hP : Closed F P) (depth : ℕ) : Keeps P (setNested F depth) := by
  induction depth with
  | zero =>
    intro t key value displace r _ _ hr
    cases hr
  | succ depth ih =>
    intro h key value displace r hh hk hr
    obtain ⟨d, t, hd, ht, hp, hr⟩ := setNested_cases hr
    cases hd
    obtain ⟨hPt, hst⟩ := hP.expandWith ih hh ht
    rw [hr]
    refine ⟨hP.place hPt (by rw [hst.isSentinel_eq, hk]) hp, ?_⟩
    rw [SameSentinels, emptyKey_place, erasedKey_place]
    exact hst

end Nested

/-! ## The operations -/

theorem existsAt_place (hlt : index < h.buckets.length) (hk : h.isSentinel key = false) :
    (h.place index key value displace).existsAt index = true := by
  have hwritten : (h.setBucket index ⟨key, some value⟩).existsAt index = true := by
    rw [existsAt_eq, keyAt_setBucket_self hlt]
    show (!h.isSentinel key) = true
    rw [hk]
    rfl
  unfold place
  split_ifs with he
  · exact hwritten
  · exact he
  all_goals exact hwritten

theorem Closed.set (hP : Closed F P) (hh : P h) (hk : h.isSentinel key = false)
    (hset : h.set F key value displace = some (h', index)) :
    P h' ∧ SameSentinels h h' ∧ index < h'.bucketCount ∧ h'.existsAt index = true := by
  obtain ⟨hP', hs⟩ := hP.setNested maxNesting h key value displace _ hh hk hset
  obtain ⟨d, t, -, ht, hp, hr⟩ := setNested_cases hset
  obtain ⟨hPt, hst⟩ := hP.expandWith (hP.setNested d) hh ht
  have hlt := (hP.formed hPt).probed_lt hp
  refine ⟨hP', hs, ?_⟩
  simp only at hr hlt
  rw [hr, bucketCount_place]
  refine ⟨hlt, existsAt_place ?_ (by rw [hst.isSentinel_eq, hk])⟩
  rw [(hP.formed hPt).length]
  exact hlt

theorem Closed.delete (hP : Closed F P) (hh : P h) (hd : h.delete F index = some h') :
    P h' ∧ SameSentinels h h' := by
  by_cases hi : index < h.bucketCount ∧ h.existsAt index = true
  · have hmarked := hP.marked hh hi.1 hi.2
    rw [delete_of_exists F hi.1 hi.2] at hd
    split_ifs at hd with hsmall
    · have hr : LinearHashmap.resizeWith (LinearHashmap.setNested F maxNesting) (h.marked index)
          ((h.marked index).bucketCount >>> 1) = some h' := hd
      obtain ⟨hP', hs⟩ := hP.resizeWith (hP.setNested maxNesting) hmarked (fun h0 => by omega) hr
      exact ⟨hP', hs⟩
    · cases hd
      exact ⟨hmarked, rfl, rfl⟩
  · have hstop : (index ≥ h.bucketCount || h.deletedOrEmptyAt index) = true := by
      rw [Bool.or_eq_true, decide_eq_true_eq]
      by_cases hlt : index < h.bucketCount
      · exact Or.inr (by simpa [existsAt] using fun he => hi ⟨hlt, he⟩)
      · exact Or.inl (by omega)
    rw [LinearHashmap.delete, if_pos hstop] at hd
    cases hd
    exact ⟨hh, rfl, rfl⟩

theorem Closed.apply [Inhabited V] (hP : Closed F P) (hh : P h) (op : MapOp K V)
    (hk : ∀ key ∈ op.key?, h.isSentinel key = false) (ha : op.apply F h = some h') :
    P h' ∧ SameSentinels h h' := by
  cases op with
  | insert key value | insertOrAssign key value | index key =>
    obtain ⟨⟨t, i⟩, hset, rfl⟩ := Option.map_eq_some_iff.1 ha
    obtain ⟨hP', hs, -⟩ := hP.set hh (hk key rfl) hset
    exact ⟨hP', hs⟩
  | indexAssign key value =>
    obtain ⟨⟨t, i⟩, hset, rfl⟩ := Option.map_eq_some_iff.1 ha
    obtain ⟨hP', hs, hi, he⟩ := hP.set hh (hk key rfl) hset
    exact ⟨hP.assign hP' hi he, hs⟩
  | erase key =>
    obtain ⟨i, -, hd⟩ := Option.bind_eq_some_iff.1 ha
    exact hP.delete hh hd
  | clear =>
    cases ha
    exact ⟨hP.clear hh, rfl, rfl⟩

/-! ## `Formed` is such a property -/

theorem Formed.firstResize (hs : h.emptyKey ≠ h.erasedKey) (hcounts : h.size = 0 ∧ h.used = 0)
    (hn : n < 2 ^ 64) : (h.firstResize n).Formed := by
  have hzero := nonEmptyCount_firstResize h n
  have hle := existsCount_le_nonEmptyCount (h.firstResize n)
  refine ⟨hs, hn, List.length_replicate, nofun, fun h0 => ?_, rfl, rfl, ?_, ?_, fun b hb => ?_⟩
  · show (n + (2 ^ 64 - 1)) % 2 ^ 64 + 1 = n
    have hpos : n ≠ 0 := h0
    omega
  · show h.size = _
    omega
  · show h.used = _
    omega
  · rw [List.eq_of_mem_replicate hb]
    simp [isSentinel, LinearHashmap.firstResize]

theorem formed_blank {e d : K} (hed : e ≠ d) : (blank e d : LinearHashmap K V).Formed where
  sentinels := hed
  lt := Nat.two_pow_pos 64
  length := rfl
  null _ := rfl
  mask h0 := absurd rfl h0
  resizeCount := rfl
  shrinkCount := rfl
  size := rfl
  used := rfl
  constructed _ hb := absurd hb List.not_mem_nil

theorem nextPowTwo_lt (n : ℕ) : nextPowTwo n < 2 ^ 64 := by
  rcases nextPowTwo_range n with hle | heq
  · exact lt_of_le_of_lt hle (by decide)
  · rw [heq]
    decide

theorem formed_construct {e d : K} (hc : construct n e d = some h) : h.Formed := by
  unfold construct at hc
  split_ifs at hc with hed hn <;> cases hc
  · exact Formed.firstResize hed ⟨rfl, rfl⟩ (nextPowTwo_lt n)
  · exact formed_blank hed

theorem Formed.setBucket (hF : h.Formed) (hi : index < h.bucketCount) {b : Bucket K V}
    (hb : b.second.isSome = !h.isSentinel b.first) {size used : ℕ}
    (hsize : size + (if h.existsAt index then 1 else 0) =
      h.size + if h.isSentinel b.first then 0 else 1)
    (hused : used + (if h.keyAt index = h.emptyKey then 0 else 1) =
      h.used + if b.first = h.emptyKey then 0 else 1) :
    { h.setBucket index b with size := size, used := used }.Formed := by
  have hi' : index < h.buckets.length := by rwa [hF.length]
  have hexists := existsCount_setBucket hi' b
  have hnonEmpty := nonEmptyCount_setBucket hi' b
  have hold := hF.size
  have hold' := hF.used
  refine ⟨hF.sentinels, hF.lt, ?_, fun hnull => ?_, hF.mask, hF.resizeCount, hF.shrinkCount, ?_, ?_,
    fun b' hb' => ?_⟩
  · exact (List.length_set).trans hF.length
  · have hempty : h.bucketCount = 0 := by rw [hF.null hnull]; rfl
    omega
  · show size = (h.setBucket index b).existsCount
    omega
  · show used = (h.setBucket index b).nonEmptyCount
    omega
  · rcases List.mem_or_eq_of_mem_set hb' with hb' | rfl
    · exact hF.constructed b' hb'
    · exact hb

theorem Formed.place (hF : h.Formed) (hi : index < h.bucketCount)
    (hk : h.isSentinel key = false) : (h.place index key value displace).Formed := by
  have hb : (⟨key, some value⟩ : Bucket K V).second.isSome =
      !h.isSentinel (⟨key, some value⟩ : Bucket K V).first := by
    show true = !h.isSentinel key
    rw [hk]
    rfl
  have hne : key ≠ h.emptyKey := by
    intro heq
    simp [isSentinel, heq] at hk
  unfold LinearHashmap.place
  split_ifs with he hd hempty
  · refine hF.setBucket hi hb ?_ ?_
    · rw [if_pos he, hk]
      rfl
    · rw [if_neg (not_empty_of_exists he), if_neg hne]
  · exact hF
  · have hkey : h.keyAt index = h.emptyKey := by simpa [emptyAt] using hempty
    refine hF.setBucket hi hb ?_ ?_
    · rw [if_neg he, hk]
      rfl
    · rw [if_pos hkey, if_neg hne]
  · have hkey : h.keyAt index ≠ h.emptyKey := by simpa [emptyAt] using hempty
    refine hF.setBucket hi hb ?_ ?_
    · rw [if_neg he, hk]
      rfl
    · rw [if_neg hkey, if_neg hne]

theorem Formed.assign (hF : h.Formed) (hi : index < h.bucketCount)
    (he : h.existsAt index = true) :
    (h.setBucket index ⟨h.keyAt index, some value⟩).Formed := by
  have hk : h.isSentinel (h.keyAt index) = false := by simpa [existsAt_eq] using he
  refine hF.setBucket hi ?_ ?_ ?_
  · show true = !h.isSentinel (h.keyAt index)
    rw [hk]
    rfl
  · rw [if_pos he, hk]
    rfl
  · rfl

theorem Formed.marked (hF : h.Formed) (hi : index < h.bucketCount)
    (he : h.existsAt index = true) : (h.marked index).Formed := by
  have hpos : 0 < h.size := by
    have hi' : index < h.keys.length := by rwa [length_keys, hF.length]
    rw [hF.size, existsCount, List.countP_pos_iff]
    exact ⟨_, keyAt_mem_keys hi', by rwa [← existsAt_eq]⟩
  refine hF.setBucket (b := ⟨h.erasedKey, none⟩) hi ?_ ?_ ?_
  · simp [isSentinel]
  · rw [if_pos he, if_pos (by simp [isSentinel])]
    omega
  · rw [if_neg (not_empty_of_exists he), if_neg hF.sentinels.symm]
    rfl

theorem Formed.clear (hF : h.Formed) : h.clear.Formed := by
  have hzero := nonEmptyCount_clear h
  have hle := existsCount_le_nonEmptyCount h.clear
  refine ⟨hF.sentinels, hF.lt, (List.length_map _).trans hF.length, fun hnull => ?_, hF.mask,
    hF.resizeCount, hF.shrinkCount, ?_, hzero.symm, fun b hb => ?_⟩
  · have hblank := hF.null hnull
    rw [hblank]
    rfl
  · show 0 = h.clear.existsCount
    omega
  · obtain ⟨b₀, hb₀, rfl⟩ := List.mem_map.1 hb
    have hcon := hF.constructed b₀ hb₀
    by_cases hempty : b₀.first = h.emptyKey
    · rw [clearBucket, if_pos hempty, hcon]
      rfl
    · have hraw : (h.clearBucket b₀).second.isSome = false := by
        rw [clearBucket, if_neg hempty]
        by_cases herased : b₀.first = h.erasedKey
        · rw [if_neg (not_not.2 herased), hcon]
          simp [isSentinel, herased]
        · rw [if_pos herased]
          rfl
      have hfirst : (h.clearBucket b₀).first = h.emptyKey := by
        rw [clearBucket, if_neg hempty]
      rw [hraw, hfirst]
      simp [isSentinel, LinearHashmap.clear]

theorem closed_formed (F : Functors K) : Closed F (Formed : LinearHashmap K V → Prop) where
  formed hF := hF
  construct := formed_construct
  first hF h0 := Formed.firstResize hF.sentinels (hF.counts_zero h0) (by decide)
  place hF hk hp := hF.place (hF.probed_lt hp) hk
  assign hF hi he := hF.assign hi he
  marked hF hi he := hF.marked hi he
  clear hF := hF.clear

end LinearHashmap

end Naesala
