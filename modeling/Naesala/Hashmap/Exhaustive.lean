import Naesala.Hashmap.Copies
import Naesala.Hashmap.Iteration
import Naesala.Hashmap.Lookup

/-!
# Iteration is exhaustive

From `begin()`, the iterator is after `k` increments at the existing bucket number `k` in slot
order, and at `end()` once there is none. `size_` is the number of existing buckets (`Formed`). That
`Get` finds the key of every existing bucket is because of `Chained`: the probe path of the key
leads there, and no bucket on the way is empty.

**Theorem (`exhaustive`).** In every map of every program with ordinary keys, whatever its bucket
count, `size()` increments lead from `begin()` to `end()` over the existing buckets in slot order,
and a key is among those visited exactly if its `count` is 1.
-/

namespace Naesala

namespace LinearHashmap

variable {K V : Type} [DecidableEq K] {hash : K → ℕ}
variable {h t : LinearHashmap K V} {key : K} {value : V} {displace : Bool} {index n : ℕ}

/-! ## Chains in a table of any size -/

/-- Every existing bucket is on the probe path of its key, after buckets that are not empty. -/
def Chained (hash : K → ℕ) (h : LinearHashmap K V) : Prop :=
  ∀ i < h.bucketCount, h.existsAt i = true → ∃ d < h.bucketCount,
    h.next^[d] (hash (h.keyAt i) &&& h.mask) = i ∧
      ∀ j < d, h.keyAt (h.next^[j] (hash (h.keyAt i) &&& h.mask)) ≠ h.emptyKey

theorem chained_of_empty (hempty : ∀ i, h.keyAt i = h.emptyKey) : Chained hash h := by
  intro i _ he
  exact absurd (hempty i) (not_empty_of_exists he)

omit [DecidableEq K] in
theorem next_eq (hm : t.mask = h.mask) : t.next = h.next := by
  funext i
  rw [next, next, hm]

/-- The chains depend on the keys only; existing buckets may go, but none may become empty. -/
theorem Chained.of_keyAt (hc : Chained hash h) (hm : t.mask = h.mask)
    (hb : t.bucketCount = h.bucketCount) (he : t.emptyKey = h.emptyKey)
    (hexists : ∀ i, t.existsAt i = true → h.existsAt i = true ∧ t.keyAt i = h.keyAt i)
    (hkeep : ∀ i, h.keyAt i ≠ h.emptyKey → t.keyAt i ≠ h.emptyKey) : Chained hash t := by
  intro i hi hei
  obtain ⟨hei', hkey⟩ := hexists i hei
  obtain ⟨d, hd, hpath, hbefore⟩ := hc i (by rwa [← hb]) hei'
  rw [hkey, next_eq hm, hm, hb, he]
  exact ⟨d, hd, hpath, fun j hj => hkeep _ (hbefore j hj)⟩

/-- **Writing where the probe has ended keeps the chains.** -/
theorem Chained.place (hc : Chained hash h) (hF : h.Formed) (hk : h.isSentinel key = false)
    (hp : Probed (equalTo hash) h key index) :
    Chained hash (h.place index key value displace) := by
  have hlt : index < h.buckets.length := by
    rw [hF.length]
    exact hF.probed_lt hp
  obtain ⟨d, hd, hpath, hstop, hbefore⟩ := Cyclic.scan_eq_some_iff.1 hp
  have hself : (h.place index key value displace).keyAt index = key :=
    keyAt_place_self hlt hstop
  intro i hi hei
  have hnext : (h.place index key value displace).next = h.next :=
    next_eq (mask_place h index key value displace)
  rw [bucketCount_place] at hi ⊢
  rw [hnext, mask_place, emptyKey_place]
  by_cases hij : index = i
  · subst hij
    rw [hself]
    refine ⟨d, hd, hpath, fun j hj => keyAt_place_ne_emptyKey hk hself ?_⟩
    exact not_empty_of_exists (setCont_iff.1 (hbefore j hj)).1
  · rw [existsAt_eq, isSentinel_place, keyAt_place_ne hij] at hei
    rw [keyAt_place_ne hij]
    obtain ⟨d', hd', hpath', hbefore'⟩ := hc i hi hei
    exact ⟨d', hd', hpath', fun j hj => keyAt_place_ne_emptyKey hk hself (hbefore' j hj)⟩

theorem closed_chained (hash : K → ℕ) :
    Closed (equalTo hash) fun h : LinearHashmap K V => h.Formed ∧ Chained hash h where
  formed hh := hh.1
  construct {n e d h} hcon := by
    refine ⟨formed_construct hcon, chained_of_empty ?_⟩
    unfold construct at hcon
    split_ifs at hcon <;> cases hcon
    · exact keyAt_of_keys_replicate (keys_firstResize _ _)
    · exact fun i => by simp [keyAt, blank]
  first hh h0 :=
    ⟨(closed_formed (equalTo hash)).first hh.1 h0,
      chained_of_empty (keyAt_of_keys_replicate (keys_firstResize _ 8))⟩
  place hh hk hp := ⟨hh.1.place (hh.1.probed_lt hp) hk, hh.2.place hh.1 hk hp⟩
  assign {h index value} hh hi he := by
    refine ⟨hh.1.assign hi he, hh.2.of_keyAt rfl rfl rfl ?_ ?_⟩
    all_goals
      have hkey : ∀ j, (h.setBucket index ⟨h.keyAt index, some value⟩).keyAt j = h.keyAt j := by
        intro j
        by_cases hj : index = j
        · subst hj
          exact keyAt_setBucket_self (by rwa [hh.1.length]) _
        · exact keyAt_setBucket_ne hj _
      intro i hi'
    · rw [existsAt_eq, hkey] at hi'
      exact ⟨hi', hkey i⟩
    · rwa [hkey]
  marked {h index} hh hi he := by
    have hself : (h.marked index).keyAt index = h.erasedKey :=
      keyAt_setBucket_self (by rwa [hh.1.length]) _
    have hother : ∀ j, index ≠ j → (h.marked index).keyAt j = h.keyAt j :=
      fun j hj => keyAt_setBucket_ne hj _
    refine ⟨hh.1.marked hi he, hh.2.of_keyAt rfl rfl rfl ?_ ?_⟩
    · intro i hei
      by_cases hj : index = i
      · subst hj
        exact absurd hself (existsAt_iff.1 hei).1
      · rw [existsAt_eq, hother i hj] at hei
        exact ⟨hei, hother i hj⟩
    · intro i hne
      by_cases hj : index = i
      · subst hj
        rw [hself]
        exact hh.1.sentinels.symm
      · rwa [hother i hj]
  clear {h} hh :=
    ⟨hh.1.clear, chained_of_empty (keyAt_of_keys_replicate (keys_clear h))⟩

/-! ## `count` and the buckets -/

theorem get_of_pos (h0 : h.bucketCount ≠ 0) (key : K) :
    h.get (equalTo hash) key =
      (scan (h.getCont (equalTo hash) key) h.next h.bucketCount (hash key &&& h.mask)).map
        fun i => if h.emptyAt i then h.bucketCount else i :=
  if_neg h0

theorem Chained.get (hc : Chained hash h) (hF : h.Formed) (hi : index < h.bucketCount)
    (he : h.existsAt index = true) :
    ∃ i < h.bucketCount, h.get (equalTo hash) (h.keyAt index) = some i := by
  have h0 : h.bucketCount ≠ 0 := by omega
  have hk : h.isSentinel (h.keyAt index) = false := by simpa [existsAt_eq] using he
  obtain ⟨d, hd, hpath, hbefore⟩ := hc index hi he
  have hstop : h.getCont (equalTo hash) (h.keyAt index)
      (h.next^[d] (hash (h.keyAt index) &&& h.mask)) = false := by
    rw [hpath, ← Bool.not_eq_true, getCont_iff hk hF.sentinels]
    exact fun hcont => hcont.2 rfl
  obtain ⟨r, hr⟩ := Cyclic.exists_scan hd hstop
  obtain ⟨d', hd', rfl, -, hbefore'⟩ := Cyclic.scan_eq_some_iff.1 hr
  -- the probe ends before the bucket, at one that is not empty, or there
  have hle : d' ≤ d := by
    by_contra hgt
    have := hbefore' d (by omega)
    rw [hstop] at this
    cases this
  have hne : h.emptyAt (h.next^[d'] (hash (h.keyAt index) &&& h.mask)) = false := by
    rcases Nat.eq_or_lt_of_le hle with rfl | hlt
    · rw [hpath]
      simpa [emptyAt] using not_empty_of_exists he
    · simpa [emptyAt] using hbefore d' hlt
  refine ⟨_, hF.next_iterate_lt h0 (hash (h.keyAt index)) d', ?_⟩
  rw [get_of_pos h0, hr, Option.map_some, if_neg (by simp [hne])]

/-- **`count` is 1 exactly for the keys of existing buckets.** -/
theorem Chained.count_eq_one_iff (hc : Chained hash h) (hF : h.Formed) :
    h.count (equalTo hash) key = some 1 ↔
      ∃ i < h.bucketCount, h.existsAt i = true ∧ h.keyAt i = key := by
  constructor
  · intro hcount
    obtain ⟨i, hget, hi⟩ := Option.map_eq_some_iff.1 hcount
    have hne : i ≠ h.bucketCount := by
      intro heq
      simp [heq] at hi
    have h0 : h.bucketCount ≠ 0 := by
      intro h0
      rw [LinearHashmap.get, if_pos h0] at hget
      exact hne (Option.some.inj hget).symm
    rw [get_of_pos h0] at hget
    obtain ⟨r, hscan, hr⟩ := Option.map_eq_some_iff.1 hget
    obtain ⟨d, -, rfl, hstop, -⟩ := Cyclic.scan_eq_some_iff.1 hscan
    split_ifs at hr with hempty
    · exact absurd hr.symm hne
    · refine ⟨_, hF.next_iterate_lt h0 (hash key) d, ?_⟩
      simp only [getCont, equalTo, Bool.or_eq_false_iff, Bool.and_eq_false_iff] at hstop
      obtain ⟨hdeleted, hstop⟩ := hstop
      have he : h.existsAt (h.next^[d] (hash key &&& h.mask)) = true := by
        have hempty' : h.emptyAt (h.next^[d] (hash key &&& h.mask)) = false := by
          simpa using hempty
        show (!(h.deletedAt _ || h.emptyAt _)) = true
        rw [hdeleted, hempty']
        rfl
      refine ⟨he, ?_⟩
      rcases hstop with hnone | hkey
      · rw [he] at hnone
        cases hnone
      · simpa using hkey
  · rintro ⟨i, hi, he, rfl⟩
    obtain ⟨j, hj, hget⟩ := hc.get hF hi he
    rw [count, hget, Option.map_some, if_pos (by omega)]

/-! ## The iterator -/

/-- The existing buckets in slot order. -/
def slots (h : LinearHashmap K V) : List ℕ := (List.range h.bucketCount).filter h.existsAt

/-- **`k` increments.** From the first existing bucket at or after `index`, they lead to bucket
number `k` of those that exist in the rest of the array, or to `end()`. -/
theorem iterate_increment (hn : index + n = h.bucketCount) (k : ℕ) :
    h.increment^[k] (h.seek n index) =
      ((List.range' index n).filter h.existsAt)[k]?.getD h.bucketCount := by
  induction n generalizing index k with
  | zero =>
    have hend : h.increment h.bucketCount = h.bucketCount := by simp [increment]
    have hi : index = h.bucketCount := by omega
    rw [seek, hi, Function.iterate_fixed hend]
    rfl
  | succ n ih =>
    rw [List.range'_succ]
    cases he : h.existsAt index with
    | true =>
      rw [seek_eq_of_exists he, List.filter_cons_of_pos he]
      cases k with
      | zero => rfl
      | succ k =>
        have hinc : h.increment index = h.seek n (index + 1) := by
          rw [increment, if_pos (by omega), show h.bucketCount - (index + 1) = n by omega]
        rw [Function.iterate_succ_apply, hinc, ih (by omega)]
        rfl
    | false =>
      rw [seek, if_neg (by simp [he]), List.filter_cons_of_neg (by simp [he]), ih (by omega)]

theorem iterate_increment_begin (h : LinearHashmap K V) (k : ℕ) :
    h.increment^[k] h.begin = h.slots[k]?.getD h.bucketCount := by
  rw [begin, iterate_increment (Nat.zero_add _), slots, List.range_eq_range']

theorem mem_slots {i : ℕ} : i ∈ h.slots ↔ i < h.bucketCount ∧ h.existsAt i = true := by
  simp [slots]

theorem slots_sorted (h : LinearHashmap K V) : h.slots.Pairwise (· < ·) :=
  List.pairwise_lt_range.filter _

theorem Formed.length_slots (hF : h.Formed) : h.slots.length = h.size := by
  have hkeys : h.keys = (List.range h.bucketCount).map h.keyAt := by
    refine List.ext_getElem (by simp [hF.length]) fun i hi hi' => ?_
    rw [← keyAt_eq_keys, List.getElem_map, List.getElem_range]
  rw [hF.size, existsCount, hkeys, List.countP_map, slots, ← List.countP_eq_length_filter]
  rfl

/-- **Iteration is exhaustive.** In every map of every program with ordinary keys, the iterator
that starts at `begin()` is at an existing bucket for `size()` increments, at a later one after
each, and then at `end()`; it has been at every existing bucket; and the keys of the buckets that
it has been at are those whose `count` is 1. -/
theorem exhaustive [Inhabited V] {s : Objects K V} {x : ℕ}
    (hs : (objects K V (equalTo hash)).Reach Statement.Keyed s) (hx : s x = some h) :
    (∀ k < h.size, h.increment^[k] h.begin < h.bucketCount ∧
      h.existsAt (h.increment^[k] h.begin) = true) ∧
    h.increment^[h.size] h.begin = h.bucketCount ∧
    (∀ j k, j < k → k < h.size → h.increment^[j] h.begin < h.increment^[k] h.begin) ∧
    (∀ i < h.bucketCount, h.existsAt i = true → ∃ k < h.size, h.increment^[k] h.begin = i) ∧
    ∀ key, (∃ k < h.size, h.keyAt (h.increment^[k] h.begin) = key) ↔
      h.count (equalTo hash) key = some 1 := by
  obtain ⟨hF, hc⟩ := (closed_chained hash).reach hs x h hx
  rw [← hF.length_slots]
  -- the iterator goes through the list of existing buckets
  have hat : ∀ k (hk : k < h.slots.length), h.increment^[k] h.begin = h.slots[k] := by
    intro k hk
    rw [iterate_increment_begin, List.getElem?_eq_getElem hk, Option.getD_some]
  have hexists : ∀ k < h.slots.length, h.increment^[k] h.begin < h.bucketCount ∧
      h.existsAt (h.increment^[k] h.begin) = true := by
    intro k hk
    rw [hat k hk]
    exact mem_slots.1 (List.getElem_mem hk)
  have hall : ∀ i < h.bucketCount, h.existsAt i = true →
      ∃ k < h.slots.length, h.increment^[k] h.begin = i := by
    intro i hi he
    obtain ⟨k, hk, hki⟩ := List.getElem_of_mem (mem_slots.2 ⟨hi, he⟩)
    exact ⟨k, hk, (hat k hk).trans hki⟩
  refine ⟨hexists, ?_, ?_, hall, ?_⟩
  · rw [iterate_increment_begin, List.getElem?_eq_none (Nat.le_refl _), Option.getD_none]
  · intro j k hjk hk
    rw [hat j (hjk.trans hk), hat k hk]
    exact List.pairwise_iff_getElem.1 h.slots_sorted j k _ hk hjk
  · intro key
    rw [hc.count_eq_one_iff hF]
    constructor
    · rintro ⟨k, hk, rfl⟩
      obtain ⟨hlt, he⟩ := hexists k hk
      exact ⟨_, hlt, he, rfl⟩
    · rintro ⟨i, hi, he, rfl⟩
      obtain ⟨k, hk, rfl⟩ := hall i hi he
      exact ⟨k, hk, rfl⟩

theorem reach_call [Inhabited V] {F : Functors K} {s : Objects K V} {x : ℕ}
    (hs : (objects K V F).Reach Statement.Keyed s) (hx : s x = some h) (op : MapOp K V)
    (hk : ∀ key ∈ op.key?, h.isSentinel key = false) (ha : op.apply F h = some t) :
    (objects K V F).Reach Statement.Keyed (Function.update s x (some t)) := by
  refine .step (a := .call x op) hs ?_ ?_
  · intro h' hh'
    obtain rfl := Option.some.inj (hx.symm.trans hh')
    exact hk
  · show (s x).bind _ = _
    rw [hx, Option.bind_some, ha]
    rfl

/-- A map of two keys that collide, the first of which is erased: one increment to `end()`. -/
theorem exhaustive_after_erase :
    ∃ (s : Objects ℕ ℕ) (h : LinearHashmap ℕ ℕ),
      (objects ℕ ℕ (equalTo fun _ => 0)).Reach Statement.Keyed s ∧ s 0 = some h ∧ h.size = 1 ∧
      h.increment h.begin = h.bucketCount ∧ h.count (equalTo fun _ => 0) 2 = some 1 := by
  have h₀ : (objects ℕ ℕ (equalTo fun _ => 0)).Reach Statement.Keyed _ :=
    .step (a := .construct 0 0 100 101) .init trivial rfl
  have h₁ := reach_call (x := 0) h₀ rfl (.insert 1 10) (by decide) rfl
  have h₂ := reach_call (x := 0) h₁ rfl (.insert 2 20) (by decide) rfl
  have h₃ := reach_call (x := 0) h₂ rfl (.erase 1) (by decide) rfl
  obtain ⟨-, hend, -, -, hcount⟩ := exhaustive h₃ (x := 0) rfl
  exact ⟨_, _, h₃, rfl, rfl, hend, (hcount 2).1 ⟨0, by decide, rfl⟩⟩

end LinearHashmap

end Naesala
