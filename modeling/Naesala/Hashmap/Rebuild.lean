import Naesala.Hashmap.FiniteMap
import Naesala.Hashmap.Tombstones

/-!
# `Resize` preserves the map

`Resize` moves the existing buckets one by one into a table with another mask. The pairs of the
buckets are those of a finite map, which the new table represents as well (`Represents.rebuild`);
so the two answer every lookup alike.

**Theorem (`resize_preserves`).** Where `Set` or `Delete` asks for it, `Resize` leaves a table of
the count asked for with the same lookups and no tombstones, and none of the `Set` calls in its
loop resizes again: `Resize` over a `Set` that cannot grow (`setInPlace`) gives the same table.
-/

namespace Naesala

namespace LinearHashmap

variable {K V : Type} [DecidableEq K] {hash : K → ℕ} {F : Functors K}
variable {h t : LinearHashmap K V} {n : ℕ}

/-! ## The tables and the requests -/

/-- A table with the invariants of its chains and counters, in which no two existing buckets hold
one key. -/
structure Intact (F : Functors K) (h : LinearHashmap K V) : Prop where
  sound : Sound F h
  exact : Exact h
  distinct : ∀ i < h.bucketCount, ∀ j < h.bucketCount, h.existsAt i = true →
    h.keyAt i = h.keyAt j → i = j

/-- The counts that `Set` and `Delete` ask `Resize` for, up to `2 ^ 30`. -/
def Requested (h : LinearHashmap K V) (n : ℕ) : Prop :=
  (h.used ≥ h.resizeCount ∧ n = h.growCount ∨
    h.size < h.shrinkCount ∧ h.bucketCount > 8 ∧ n = h.bucketCount >>> 1) ∧ n ≤ 2 ^ 30

/-- `Set` without its `Resize`; `none` where it would resize. -/
def setInPlace (F : Functors K) (h : LinearHashmap K V) (key : K) (value : V) (displace : Bool) :
    Option (LinearHashmap K V × ℕ) :=
  if h.used ≥ h.resizeCount then none
  else
    (scan (h.setCont F key) h.next h.bucketCount (F.hasher key &&& h.mask)).map fun index =>
      (h.place index key value displace, index)

theorem places_setInPlace (F : Functors K) :
    Places F (setInPlace F : LinearHashmap K V → K → V → Bool → _) := by
  intro t key value displace index hC hroom hend
  rw [setInPlace, if_neg (by omega), (hC.scan_iff (hC.bucketCount_ne_zero hroom)).2 hend]
  rfl

/-! ## The map of a table -/

theorem Intact.nodup (hI : Intact F h) : (h.existing.map Prod.fst).Nodup := by
  have hlen := hI.sound.counters.length
  rw [map_fst_existing, List.Nodup, List.pairwise_filter, List.pairwise_iff_getElem]
  intro i j hi hj hij hei _ heq
  rw [length_keys, hlen] at hi hj
  rw [← keyAt_eq_keys, ← keyAt_eq_keys] at heq
  rw [← keyAt_eq_keys, ← existsAt_eq] at hei
  exact absurd (hI.distinct i hi j hj hei heq) (by omega)

/-- **The buckets hold the pairs of a finite map.** -/
theorem Intact.exists_represents (hI : Intact F h) :
    ∃ m : Finmap fun _ : K => V, Represents h m := by
  have hvalue : ∀ p ∈ (h.existing : Multiset (K × Option V)), ∃ v, some v = p.2 := by
    intro p hp
    obtain ⟨i, hi, he, -, hval⟩ := mem_existing.1 (Multiset.mem_coe.1 hp)
    have hsome := hI.sound.counters.constructed h.buckets[i] (List.getElem_mem hi)
      (by rw [← keyAt_eq_first hi]; simpa [existsAt_eq] using he)
    obtain ⟨v, hv⟩ := Option.isSome_iff_exists.1 hsome
    refine ⟨v, ?_⟩
    rw [← hval, ← hv]
    simp [valueAt, hi]
  obtain ⟨m, hm⟩ := Finmap.exists_pairs_eq some hvalue (Multiset.coe_nodup.2 hI.nodup)
  refine ⟨m, hm.symm, ?_⟩
  rw [hI.exact.size_eq, existsCount_eq_length, hm]
  rfl

/-! ## `Resize` -/

theorem Represents.find_eq {m : Finmap fun _ : K => V} (hR : Represents h m)
    (hR' : Represents t m) (hS : Sound (equalTo hash) h) (hS' : Sound (equalTo hash) t) (key : K) :
    ∃ result, h.find (equalTo hash) key = some result ∧
      t.find (equalTo hash) key = some result :=
  ⟨_, (hR.agrees hS).find key, (hR'.agrees hS').find key⟩

/-- What `Resize` preserves. -/
structure Preserved (F : Functors K) (h t : LinearHashmap K V) (n : ℕ) : Prop where
  bucketCount : t.bucketCount = n
  length : t.buckets.length = n
  find : ∀ key, ∃ result, h.find F key = some result ∧ t.find F key = some result
  size : t.size = h.size
  used : t.used = t.size
  deletedAt : ∀ i, t.deletedAt i = false

/-- The first buckets of a table. -/
theorem Intact.preserved_first (hI : Intact (equalTo hash) h) (h0 : h.bucketCount = 0) :
    Preserved (equalTo hash) h (h.firstResize 8) 8 := by
  have hC := hI.sound.counters
  have hused : h.used = 0 := by
    have := hC.used_le
    rw [hC.resizeCount, h0, resizeCountOf_zero] at this
    omega
  have hC' : (h.firstResize 8).Counters :=
    counters_firstResize hC.sentinels hused (Or.inr ⟨3, by omega, rfl⟩)
  obtain ⟨m, hR⟩ := hI.exists_represents
  have hR' : Represents (h.firstResize 8) m :=
    (Expanded.first h0 (by rw [hC.resizeCount, h0]; exact Nat.zero_le _) :
      Expanded (equalTo hash) h _).represents hC hR
  refine ⟨rfl, List.length_replicate,
    hR.find_eq hR' hI.sound ⟨hC', probeChain_firstResize h 8⟩, rfl, ?_,
    deletedAt_firstResize hC.sentinels 8⟩
  show h.used = h.size
  rw [hused, hI.exact.size_eq_zero h0]

theorem Intact.preserved_moved (hI : Intact (equalTo hash) h) (hfresh : (h.fresh n).Counters)
    (hM : Moved (equalTo hash) (h.fresh n) h.buckets t) : Preserved (equalTo hash) h t n := by
  obtain ⟨m, hR⟩ := hI.exists_represents
  have hR' := hR.rebuild hfresh hM
  have hC := hM.counters hfresh
  have hcount : t.bucketCount = n := hM.bucketCount_eq
  have hS : Sound (equalTo hash) t := ⟨hC, hM.probeChain hfresh (probeChain_firstResize _ n)⟩
  refine ⟨hcount, by rw [hC.length, hcount], hR.find_eq hR' hI.sound hS, by rw [hR'.size, hR.size],
    (Exact.rebuild hfresh hM).2, hM.deletedAt_eq hfresh ?_⟩
  exact deletedAt_firstResize hI.sound.counters.sentinels n

/-- **What a requested `Resize` does**: the first allocation, or moving the buckets over. It is the
same for every `Set` that can place a key in a table with room. -/
theorem Counters.resize_cases (hC : h.Counters) (hn : Requested h n) :
    (h.bucketCount = 0 ∧ n = 8) ∨
      h.bucketCount ≠ 0 ∧ ∃ t, (∀ set, Places F set → LinearHashmap.resizeWith set h n = some t) ∧
        (h.fresh n).Counters ∧ Moved F (h.fresh n) h.buckets t := by
  obtain ⟨⟨hfull, rfl⟩ | ⟨hsmall, hbig, rfl⟩, hle⟩ := hn
  · by_cases h0 : h.bucketCount = 0
    · exact .inl ⟨h0, if_neg (by simp [h0])⟩
    · obtain ⟨t, ht, hfresh, hM⟩ := hC.grow (F := F) h0 hle
      rw [growCount_eq hC h0] at ht ⊢
      exact .inr ⟨h0, t, ht, hfresh, hM⟩
  · obtain ⟨t, p, ht, hhalf, hfresh, hM⟩ := hC.halve (F := F) hsmall hbig
    have hp : h.bucketCount >>> 1 = p := by
      rw [Nat.shiftRight_eq_div_pow]
      omega
    rw [hp] at ht ⊢
    exact .inr ⟨by omega, t, ht, hfresh, hM⟩

/-- No `Set` in the loop of a requested `Resize` meets a full table. -/
theorem Counters.resize_eq_inPlace (hC : h.Counters) (hn : Requested h n) :
    ∃ t, h.resize F n = some t ∧ LinearHashmap.resizeWith (setInPlace F) h n = some t := by
  rcases hC.resize_cases (F := F) hn with hfirst | hmoved
  · obtain ⟨h0, rfl⟩ := hfirst
    exact ⟨h.firstResize 8, if_pos h0, if_pos h0⟩
  · obtain ⟨-, t, ht, -, -⟩ := hmoved
    exact ⟨t, ht _ (places_setNested F 63), ht _ (places_setInPlace F)⟩

/-- **`Resize` preserves the map.** For every count that `Set` or `Delete` asks for, `Resize`
returns a table of exactly that many buckets, with the same result of every lookup, the same
`size_`, `used_ = size_` and no tombstone; and it returns that table also if no `Set` in its loop
can resize. -/
theorem resize_preserves (hI : Intact (equalTo hash) h) (hn : Requested h n) :
    ∃ t, h.resize (equalTo hash) n = some t ∧
      resizeWith (setInPlace (equalTo hash)) h n = some t ∧ Preserved (equalTo hash) h t n := by
  have hC := hI.sound.counters
  obtain ⟨t, hresize, hinPlace⟩ := hC.resize_eq_inPlace (F := equalTo hash) hn
  refine ⟨t, hresize, hinPlace, ?_⟩
  rcases hC.resize_cases (F := equalTo hash) hn with hfirst | hmoved
  · obtain ⟨h0, rfl⟩ := hfirst
    have ht : h.resize (equalTo hash) 8 = some (h.firstResize 8) := if_pos h0
    rw [← Option.some_inj.1 (ht.symm.trans hresize)]
    exact hI.preserved_first h0
  · obtain ⟨-, t', ht, hfresh, hM⟩ := hmoved
    have ht' := ht _ (places_setInPlace (equalTo hash))
    rw [← Option.some_inj.1 (ht'.symm.trans hinPlace)]
    exact hI.preserved_moved hfresh hM

/-- A table of two buckets is full with one key; it grows to four, and has the key. -/
theorem resize_preserves_two :
    ∃ h t : LinearHashmap ℕ ℕ, h.bucketCount = 2 ∧ h.resize (equalTo id) 4 = some t ∧
      t.bucketCount = 4 ∧ t.find (equalTo id) 7 = some (some (7, some 70)) := by
  have hcon : construct 2 100 101 = some ((blank 100 101 : LinearHashmap ℕ ℕ).firstResize 2) := rfl
  have hrun := (calls (equalTo id) ((blank 100 101 : LinearHashmap ℕ ℕ).firstResize 2)).reach_of_run
    Ordinary [.insert 7 70] rfl
  have hS := Sound.reach hcon (by decide) hrun
  have hI : Intact (equalTo id) _ := ⟨hS, ⟨hS.counters, rfl⟩, by decide⟩
  obtain ⟨t, ht, -, hpreserved⟩ := resize_preserves (n := 4) hI ⟨.inl ⟨by decide, rfl⟩, by decide⟩
  obtain ⟨result, hbefore, hafter⟩ := hpreserved.find 7
  refine ⟨_, t, rfl, ht, hpreserved.bucketCount, ?_⟩
  rw [hafter, ← hbefore]
  rfl

end LinearHashmap

end Naesala
