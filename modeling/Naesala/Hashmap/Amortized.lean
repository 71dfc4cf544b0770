import Naesala.Hashmap.Operations
import Naesala.Hashmap.Rebuild
import Naesala.Library.Potential

/-!
# What `Resize` costs

A single insertion may rebuild the table, and so may an erasure. `MapOp.work` counts the buckets
that `Resize` then goes over and those that it allocates. Over a whole run this is little, though
both tombstones and keys make a table grow: when a table has been rebuilt, at most half of the
buckets it may use are in use, so many insertions come before the next growth. These pay for it and
for the shrinking that may follow. Erasures pay nothing.

`LinearHashmap.potential` is what has been paid and not been used: sixteen for each bucket in use
beyond `0.425` of all, and three for each bucket. It is scaled by five.

**Theorem (`work_le`).** In every run, `Resize` goes over and allocates at most sixteen buckets for
each call that goes through `Set`, and three for each bucket that the constructor made, and
thirty-two.

**Theorem (`resize_never_nests`).** No `Set` that `Resize` calls meets a full table, neither where
`Set` calls `Resize` nor where `Delete` does.
-/

namespace Naesala

namespace LinearHashmap

variable {K V : Type} [DecidableEq K] [Inhabited V] {F : Functors K} {h h' t : LinearHashmap K V}

/-- The bucket count that the call hands to `Resize`, if it calls it. -/
def MapOp.resizeTo (F : Functors K) (h : LinearHashmap K V) : MapOp K V → Option ℕ
  | .insert _ _ | .insertOrAssign _ _ | .index _ | .indexAssign _ _ =>
    if h.used ≥ h.resizeCount then some h.growCount else none
  | .erase key => (h.get F key).bind fun index =>
    if index ≥ h.bucketCount || h.deletedOrEmptyAt index then none
    else if h.size - 1 < h.shrinkCount ∧ h.bucketCount > 8 then some (h.bucketCount >>> 1)
    else none
  | .clear => none

/-- The buckets that `Resize` goes over, and those that it allocates. -/
def MapOp.work (F : Functors K) (h : LinearHashmap K V) (op : MapOp K V) : ℕ :=
  match op.resizeTo F h with
  | none => 0
  | some newBucketCount => h.bucketCount + newBucketCount

/-- What has been paid for rebuilding the table and not been used, five times. -/
def potential (h : LinearHashmap K V) : ℕ :=
  80 * h.used - 34 * h.bucketCount + if h.bucketCount = 0 then 160 else 15 * h.bucketCount

/-- The machine of one map whose calls keep the bucket count at or below `2 ^ 30`. -/
def callsWithin (F : Functors K) (h₀ : LinearHashmap K V) :
    Machine (LinearHashmap K V) (MapOp K V) where
  init := h₀
  step h op := if op.Within h then op.apply F h else none

omit [Inhabited V] in
/-- What a table has in use when it has been rebuilt. -/
theorem Moved.used_le_existsCount {n : ℕ} (hM : Moved F (h.fresh n) h.buckets t) :
    t.used ≤ h.existsCount := by
  have hle := hM.used_le
  rwa [show (h.fresh n).used = 0 from rfl, Nat.zero_add] at hle

omit [DecidableEq K] [Inhabited V] in
theorem potential_congr (hused : h'.used ≤ h.used) (hcount : h'.bucketCount = h.bucketCount) :
    h'.potential ≤ h.potential := by
  rw [potential, potential, hcount]
  omega

omit [Inhabited V] in
/-- **`Set` pays.** -/
theorem Expanded.potential_place (hE : Expanded F h t) (hC : h.Counters) (index : ℕ) (key : K)
    (value : V) (displace : Bool) :
    (t.place index key value displace).potential +
        5 * (if h.used ≥ h.resizeCount then h.bucketCount + h.growCount else 0) ≤
      h.potential + 80 := by
  have hused := used_place_le t index key value displace
  have hcount : (t.place index key value displace).bucketCount = t.bucketCount :=
    bucketCount_place _ _ _ _ _
  cases hE with
  | same hroom =>
    rw [potential, potential, hcount, if_neg (by omega : ¬ h.used ≥ h.resizeCount)]
    omega
  | first h0 hfull =>
    have hgrow : h.growCount = 8 := by rw [growCount, if_neg (not_not.2 h0)]
    have hzero : h.used = 0 := by
      have hle := hC.used_le
      rw [hC.resizeCount, h0, resizeCountOf_zero] at hle
      omega
    have hfirst : (h.firstResize 8).used = h.used := rfl
    have height : (h.firstResize 8).bucketCount = 8 := rfl
    rw [potential, potential, hcount, height, if_pos hfull, hgrow, if_pos h0, if_neg (by omega)]
    omega
  | grown h0 hfull hfresh hM =>
    have hdouble : t.bucketCount = 2 * h.bucketCount := hM.bucketCount_eq
    have hless := hM.used_le_existsCount
    have hexists := hC.existsCount_le
    have hle := hC.used_le
    rw [hC.resizeCount, resizeCountOf_load] at hle hfull
    rw [resizeCountOf_load] at hexists
    have hfull' : h.used ≥ h.resizeCount := by
      rw [hC.resizeCount, resizeCountOf_load]
      exact hfull
    rw [potential, potential, hcount, hdouble, if_pos hfull', growCount_eq hC h0, if_neg h0,
      if_neg (by omega)]
    omega

omit [Inhabited V] in
/-- **Shrinking is paid for** by the buckets that are given up. -/
theorem Moved.potential_half {p : ℕ} (hM : Moved F (h.fresh p) h.buckets t) (hC : h.Counters)
    (hhalf : h.bucketCount = 2 * p) (hbig : h.bucketCount > 8) (hsize : h.size < h.shrinkCount) :
    t.potential + 5 * (h.bucketCount + h.bucketCount >>> 1) ≤ h.potential := by
  have hcount : t.bucketCount = p := hM.bucketCount_eq
  have hused := hM.used_le_existsCount
  have hexists := hC.exists_le
  rw [hC.shrinkCount, resizeCountOf_shrink] at hsize
  rw [potential, potential, hcount, Nat.shiftRight_eq_div_pow, if_neg (by omega),
    if_neg (by omega)]
  omega

omit [Inhabited V] in
/-- **`erase` pays nothing.** -/
theorem Counters.erase_pays (hC : h.Counters) (key : K) :
    ∃ h', h.erase F key = some h' ∧
      h'.potential + 5 * (MapOp.erase (V := V) key).work F h ≤ h.potential := by
  obtain ⟨i, hi⟩ : ∃ i, h.get F key = some i := by
    rcases get_spec F hC key with ⟨-, hget⟩ | ⟨-, i, -, hget⟩
    · exact ⟨_, hget⟩
    · exact ⟨_, hget⟩
  rw [LinearHashmap.erase, hi, Option.bind_some, MapOp.work, MapOp.resizeTo, hi, Option.bind_some]
  by_cases hlive : i < h.bucketCount ∧ h.existsAt i = true
  · obtain ⟨hlt, he⟩ := hlive
    have hCm := hC.marked hlt he
    have hgo : ¬ (i ≥ h.bucketCount || h.deletedOrEmptyAt i) = true := by
      have hne : h.deletedOrEmptyAt i = false := by simpa [existsAt] using he
      simp [hne, hlt]
    rw [delete_of_exists F hlt he, if_neg hgo]
    by_cases hsmall : (h.marked i).size < (h.marked i).shrinkCount ∧ (h.marked i).bucketCount > 8
    · obtain ⟨t, p, ht, hhalf, -, hM⟩ := hCm.halve (F := F) hsmall.1 hsmall.2
      refine ⟨t, by rw [if_pos hsmall]; exact ht _ (places_setNested F 63), ?_⟩
      rw [if_pos (show h.size - 1 < h.shrinkCount ∧ h.bucketCount > 8 from hsmall)]
      exact hM.potential_half hCm hhalf hsmall.2 hsmall.1
    · refine ⟨h.marked i, by rw [if_neg hsmall], ?_⟩
      rw [if_neg (show ¬ (h.size - 1 < h.shrinkCount ∧ h.bucketCount > 8) from hsmall)]
      exact le_rfl
  · have hstay : (i ≥ h.bucketCount || h.deletedOrEmptyAt i) = true := by
      rw [Bool.or_eq_true, decide_eq_true_eq]
      by_cases hlt : i < h.bucketCount
      · have hne : ¬ h.existsAt i = true := fun he => hlive ⟨hlt, he⟩
        exact Or.inr (by simpa [existsAt] using hne)
      · exact Or.inl (by omega)
    refine ⟨h, by rw [delete, if_pos hstay], ?_⟩
    rw [if_pos hstay]
    exact le_rfl

omit [Inhabited V] in
theorem Counters.set_pays (hC : h.Counters) (hin : h.Within) (key : K) (value : V)
    (displace : Bool) :
    ∃ h' index, h.set F key value displace = some (h', index) ∧ h'.potential +
      5 * (if h.used ≥ h.resizeCount then h.bucketCount + h.growCount else 0) ≤
        h.potential + 80 := by
  obtain ⟨t, index, hE, -, -, -, hset⟩ := set_spec F hC hin key value displace
  exact ⟨_, index, hset, hE.potential_place hC index key value displace⟩

omit [Inhabited V] in
theorem work_of_callsSet {op : MapOp K V} (hop : op.callsSet = true) :
    op.work F h = if h.used ≥ h.resizeCount then h.bucketCount + h.growCount else 0 := by
  cases op with
  | erase key | clear => cases hop
  | _ =>
    rw [MapOp.work, MapOp.resizeTo]
    split_ifs <;> rfl

/-- **A call pays** for its work out of the potential, and sixteen if it goes through `Set`. -/
theorem Counters.pays (hC : h.Counters) (op : MapOp K V) (hin : op.Within h)
    (hst : op.apply F h = some h') :
    h'.potential + 5 * op.work F h ≤ h.potential + 80 * op.callsSet.toNat := by
  cases op with
  | insert key value | insertOrAssign key value | index key =>
    obtain ⟨⟨t, i⟩, hset, rfl⟩ := Option.map_eq_some_iff.1 hst
    obtain ⟨t', j, hset', hpays⟩ := hC.set_pays (F := F) (hin rfl) key _ _
    cases hset.symm.trans hset'
    rw [work_of_callsSet rfl]
    exact hpays
  | indexAssign key value =>
    obtain ⟨⟨t, i⟩, hset, rfl⟩ := Option.map_eq_some_iff.1 hst
    obtain ⟨t', j, hset', hpays⟩ := hC.set_pays (F := F) (hin rfl) key default false
    cases hset.symm.trans hset'
    rw [work_of_callsSet rfl]
    exact hpays
  | erase key =>
    obtain ⟨t, herase, hpays⟩ := hC.erase_pays (F := F) key
    cases hst.symm.trans herase
    exact hpays
  | clear =>
    cases hst
    exact potential_congr (Nat.zero_le _) rfl

/-! ## Runs -/

omit [Inhabited V] in
theorem potential_construct {e d : K} {h₀ : LinearHashmap K V} {p : ℕ}
    (hcon : construct p e d = some h₀) : h₀.potential ≤ 160 + 15 * h₀.bucketCount := by
  have hused : h₀.used = 0 := by
    unfold construct at hcon
    split_ifs at hcon <;> cases hcon <;> rfl
  rw [potential, hused]
  split_ifs <;> omega

theorem Counters.pays_within (hC : h.Counters) (op : MapOp K V) {h₀ : LinearHashmap K V}
    (hst : (callsWithin F h₀).step h op = some h') :
    h'.Counters ∧ h'.potential + 5 * op.work F h ≤ h.potential + 80 * op.callsSet.toNat := by
  simp only [callsWithin, Option.ite_none_right_eq_some] at hst
  obtain ⟨hin, hop⟩ := hst
  obtain ⟨t, ht, hCt⟩ := hC.apply (F := F) op hin
  cases hop.symm.trans ht
  exact ⟨hCt, hC.pays op hin hop⟩

/-- **Resizing takes constant amortised time.** In every run from a constructor on, the buckets that
`Resize` goes over or allocates are at most sixteen for each call that goes through `Set`, three for
each bucket that the constructor made, and thirty-two. -/
theorem work_le {e d : K} {h₀ : LinearHashmap K V} {p : ℕ} (hcon : construct p e d = some h₀)
    (hp : nextPowTwo p ≤ 2 ^ 30) {ops : List (MapOp K V)}
    (hrun : ops.foldlM (callsWithin F h₀).step h₀ = some h) :
    (callsWithin F h₀).total (MapOp.work F) h₀ ops ≤
      16 * ops.countP MapOp.callsSet + 3 * h₀.bucketCount + 32 := by
  have hpay := Machine.total_le (M := callsWithin F h₀) (I := Counters) (J := fun _ => True)
    (c := fun h op => 5 * op.work F h) (d := fun _ op => 80 * op.callsSet.toNat)
    (Φ := fun h => (h.potential : ℤ)) (fun _ _ _ _ _ => trivial)
    (fun h op h' hC _ hst => by
      obtain ⟨hC', hpays⟩ := hC.pays_within op hst
      exact ⟨hC', by exact_mod_cast hpays⟩)
    hrun (counters_construct hp hcon) trivial
  have hstart := potential_construct hcon
  rw [Machine.total_eq_countP (fun _ _ => rfl) hrun, Machine.total_mul] at hpay
  omega

/-- Seven insertions and an erasure. -/
def sevenKeys : List (MapOp ℕ ℕ) :=
  [.insert 1 1, .insert 2 2, .insert 3 3, .insert 4 4, .insert 5 5, .insert 6 6, .insert 7 7,
    .erase 7]

/-- On a map without buckets, the first insertion allocates eight, and the seventh goes over these
and allocates sixteen. -/
theorem work_le_seven :
    ∃ h : LinearHashmap ℕ ℕ,
      sevenKeys.foldlM (callsWithin (equalTo id) (blank 100 101)).step (blank 100 101) = some h ∧
      (callsWithin (equalTo id) (blank 100 101)).total (MapOp.work (equalTo id)) (blank 100 101)
        sevenKeys = 32 ∧
      (callsWithin (equalTo id) (blank 100 101)).total (MapOp.work (equalTo id)) (blank 100 101)
        sevenKeys ≤ 16 * 7 + 3 * 0 + 32 := by
  have hcon : construct 0 100 101 = some (blank 100 101 : LinearHashmap ℕ ℕ) := rfl
  exact ⟨_, rfl, rfl, work_le hcon (by decide) rfl⟩

/-! ## Rebuilding does not nest -/

omit [Inhabited V] in
/-- The head of `Set` does not depend on what the `Set` in the loop of `Resize` does with a full
table. -/
theorem Counters.expandWith_congr (hC : h.Counters) (hin : h.Within)
    {set set' : LinearHashmap K V → K → V → Bool → Option (LinearHashmap K V × ℕ)}
    (hset : Places F set) (hset' : Places F set') :
    LinearHashmap.expandWith set h = LinearHashmap.expandWith set' h := by
  unfold LinearHashmap.expandWith
  split_ifs with hfull
  · by_cases h0 : h.bucketCount = 0
    · rw [LinearHashmap.resizeWith, LinearHashmap.resizeWith, if_pos h0, if_pos h0]
    · obtain ⟨t, ht, -, -⟩ := hC.grow (F := F) h0 (hin hfull)
      rw [ht set hset, ht set' hset']
  · rfl

/-- **No `Set` in the loop of `Resize` resizes.** In every run, where `Set` calls `Resize` on the
table and where `Delete` does on the table with a bucket marked, `Resize` over a `Set` that cannot
grow gives the same table. So two levels of calls of `Set` are as good as any number. -/
theorem resize_never_nests {e d : K} {h₀ : LinearHashmap K V} {p : ℕ}
    (hcon : construct p e d = some h₀) (hp : nextPowTwo p ≤ 2 ^ 30)
    (hh : (callsWithin F h₀).Reachable h) :
    (∀ n, Requested h n →
      ∃ t, h.resize F n = some t ∧ LinearHashmap.resizeWith (setInPlace F) h n = some t) ∧
    (∀ index < h.bucketCount, h.existsAt index = true → ∀ n, Requested (h.marked index) n →
      ∃ t, (h.marked index).resize F n = some t ∧
        LinearHashmap.resizeWith (setInPlace F) (h.marked index) n = some t) ∧
    (h.Within → ∀ (key : K) (value : V) (displace : Bool),
      h.set F key value displace = setNested F 2 h key value displace) := by
  have hC : h.Counters := hh.invariant (I := Counters) (counters_construct hp hcon)
    fun h op h' hC _ hst => (hC.pays_within op hst).1
  refine ⟨fun n hn => hC.resize_eq_inPlace hn,
    fun index hi he n hn => (hC.marked hi he).resize_eq_inPlace hn, fun hin key value displace => ?_⟩
  have hexp := hC.expandWith_congr hin (places_setNested F 62) (places_setNested F 0)
  rw [set, maxNesting, setNested, hexp, setNested]

/-- The seventh insertion, which grows the table. -/
theorem resize_never_nests_seventh :
    ∃ h t : LinearHashmap ℕ ℕ, (callsWithin (equalTo id) (blank 100 101)).Reachable h ∧
      h.used = h.resizeCount ∧ h.resize (equalTo id) 16 = some t ∧
      LinearHashmap.resizeWith (setInPlace (equalTo id)) h 16 = some t ∧
      h.set (equalTo id) 7 7 false = setNested (equalTo id) 2 h 7 7 false := by
  have hcon : construct 0 100 101 = some (blank 100 101 : LinearHashmap ℕ ℕ) := rfl
  have hrun := (callsWithin (equalTo id) (blank 100 101)).reach_of_run (fun _ _ => True)
    (sevenKeys.take 6) rfl
  obtain ⟨hset, -, htwice⟩ := resize_never_nests hcon (by decide) hrun
  obtain ⟨t, ht, hinPlace⟩ := hset 16 ⟨.inl ⟨by decide, rfl⟩, by decide⟩
  exact ⟨_, t, hrun, rfl, ht, hinPlace, htwice (by decide) 7 7 false⟩

end LinearHashmap

end Naesala
