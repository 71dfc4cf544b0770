import Naesala.Library.Machine
import Naesala.Hashmap.Operations

/-!
# Lookup is complete

`Get` walks over deleted buckets and stops at an empty one; `Set` stops at either. The two agree
because of `ProbeChain`: between the start of a key's probe path and a bucket that holds the
key, no bucket is empty. Erasing keeps this by leaving a tombstone, writing keeps it because it
only ever fills a bucket, and a rebuilt table starts from nothing and is filled by writing.

**Theorem (`lookup_complete`).** In every state of a map used with ordinary keys, no chain has
an empty gap, `Get` finds a key exactly when some bucket holds it, and right after `Set` it
finds the bucket that `Set` returned.
-/

namespace Naesala

namespace LinearHashmap

variable {K V : Type} [DecidableEq K] {hash : K → ℕ} {F : Functors K}
variable {h h' t t' : LinearHashmap K V} {key : K} {value : V} {displace : Bool} {index : ℕ}

/-! ## Conditions of the two probes -/

theorem existsAt_iff :
    h.existsAt index = true ↔ h.keyAt index ≠ h.erasedKey ∧ h.keyAt index ≠ h.emptyKey := by
  simp [existsAt, deletedOrEmptyAt, deletedAt, emptyAt]

theorem isSentinel_eq_false_iff :
    h.isSentinel key = false ↔ key ≠ h.erasedKey ∧ key ≠ h.emptyKey := by
  simp [isSentinel]

theorem setCont_iff :
    h.setCont (equalTo hash) key index = true ↔
      h.existsAt index = true ∧ h.keyAt index ≠ key := by
  simp [setCont, equalTo]

theorem setCont_false_iff :
    h.setCont (equalTo hash) key index = false ↔
      (h.existsAt index = true → h.keyAt index = key) := by
  rw [← Bool.not_eq_true, setCont_iff]
  tauto

/-- For an ordinary key, `Get` goes on at every bucket that is neither empty nor holds it. -/
theorem getCont_iff (hk : h.isSentinel key = false) (hs : h.emptyKey ≠ h.erasedKey) :
    h.getCont (equalTo hash) key index = true ↔
      h.keyAt index ≠ h.emptyKey ∧ h.keyAt index ≠ key := by
  obtain ⟨hkd, -⟩ := isSentinel_eq_false_iff.1 hk
  simp only [getCont, equalTo, deletedAt, Bool.or_eq_true, decide_eq_true_eq, Bool.and_eq_true,
    existsAt_iff, Bool.not_eq_true', decide_eq_false_iff_not]
  constructor
  · intro hor
    rcases hor with hd | ⟨⟨-, he⟩, hne⟩
    · rw [hd]
      exact ⟨hs.symm, hkd.symm⟩
    · exact ⟨he, hne⟩
  · intro hp
    obtain ⟨he, hne⟩ := hp
    by_cases hd : h.keyAt index = h.erasedKey
    · exact Or.inl hd
    · exact Or.inr ⟨⟨hd, he⟩, hne⟩

/-! ## Keys after `place` -/

theorem keyAt_place_ne {j : ℕ} (hne : index ≠ j) :
    (h.place index key value displace).keyAt j = h.keyAt j := by
  unfold place
  split_ifs
  · exact keyAt_setBucket_ne hne _
  · rfl
  all_goals exact keyAt_setBucket_ne hne _

theorem keyAt_place_self (hi : index < h.buckets.length)
    (hstop : h.setCont (equalTo hash) key index = false) :
    (h.place index key value displace).keyAt index = key := by
  unfold place
  split_ifs with he
  · exact keyAt_setBucket_self hi _
  · exact setCont_false_iff.1 hstop he
  all_goals exact keyAt_setBucket_self hi _

theorem keyAt_place_ne_emptyKey (hk : h.isSentinel key = false)
    (hself : (h.place index key value displace).keyAt index = key) {j : ℕ}
    (hj : h.keyAt j ≠ h.emptyKey) : (h.place index key value displace).keyAt j ≠ h.emptyKey := by
  by_cases hji : index = j
  · subst hji
    rw [hself]
    exact (isSentinel_eq_false_iff.1 hk).2
  · rwa [keyAt_place_ne hji]

/-! ## The chain invariant -/

/-- No bucket is empty on the probe path of a key before a bucket that holds the key. -/
def ProbeChain (F : Functors K) (h : LinearHashmap K V) : Prop :=
  ∀ key, h.isSentinel key = false → ∀ d < h.bucketCount, h.keyAt (path F h key d) = key →
    ∀ j < d, h.keyAt (path F h key j) ≠ h.emptyKey

/-- A table whose buckets are all empty has no chains. -/
theorem probeChain_of_empty (hempty : ∀ i, h.keyAt i = h.emptyKey) : ProbeChain F h := by
  intro key hk d _ hkey
  rw [hempty] at hkey
  exact absurd hkey.symm (isSentinel_eq_false_iff.1 hk).2

omit [DecidableEq K] in
theorem keyAt_of_keys_replicate {n : ℕ} (hkeys : h.keys = List.replicate n h.emptyKey) (i : ℕ) :
    h.keyAt i = h.emptyKey := by
  by_cases hi : i < h.keys.length
  · exact List.eq_of_mem_replicate (hkeys ▸ keyAt_mem_keys hi)
  · have hi' : ¬ i < h.buckets.length := by simpa using hi
    simp [keyAt, List.getElem?_eq_none (Nat.le_of_not_lt hi')]

theorem probeChain_firstResize (h : LinearHashmap K V) (n : ℕ) : ProbeChain F (h.firstResize n) :=
  probeChain_of_empty (keyAt_of_keys_replicate (keys_firstResize h n))

theorem probeChain_clear (h : LinearHashmap K V) : ProbeChain F h.clear :=
  probeChain_of_empty (keyAt_of_keys_replicate (keys_clear h))

theorem probeChain_construct {n : ℕ} {e d : K} (h : construct n e d = some t) :
    ProbeChain F t := by
  unfold construct at h
  split_ifs at h <;> cases h
  · exact probeChain_firstResize _ _
  · exact probeChain_of_empty fun i => by simp [keyAt, blank]

theorem ProbeChain.of_keyAt (hP : ProbeChain F h) (he : t.emptyKey = h.emptyKey)
    (hd : t.erasedKey = h.erasedKey) (hm : t.mask = h.mask) (hb : t.bucketCount = h.bucketCount)
    (hk : ∀ i, t.keyAt i = h.keyAt i) : ProbeChain F t := by
  intro key hs d hlt hkey j hj
  have hpath : ∀ j, path F t key j = path F h key j := fun j => by rw [path, path, hm, hb]
  rw [hpath, hk] at hkey
  rw [hpath, hk, he]
  refine hP key ?_ d (by rwa [← hb]) hkey j hj
  simpa [isSentinel, he, hd] using hs

/-- **Writing keeps the chains**: the probe for `key` has walked over existing buckets only. -/
theorem ProbeChain.place (hP : ProbeChain (equalTo hash) h) (hC : h.Counters)
    (hk : h.isSentinel key = false)
    (hend : EndsAt (equalTo hash) h key (h.setCont (equalTo hash) key) index) :
    ProbeChain (equalTo hash) (h.place index key value displace) := by
  have hself : (h.place index key value displace).keyAt index = key :=
    keyAt_place_self (by rw [hC.length]; exact hend.lt) hend.cont_eq
  obtain ⟨d, hd, hpath, hstop, hbefore⟩ := hend
  intro key' hk' d' hd' hkey' j hj
  simp only [isSentinel_place, bucketCount_place, path_place, emptyKey_place] at hk' hd' hkey' ⊢
  refine keyAt_place_ne_emptyKey hk hself ?_
  by_cases hi : index = path (equalTo hash) h key' d'
  · rw [← hi, hself] at hkey'
    subst hkey'
    have hdd : d = d' := path_injective hd hd' (hpath.trans hi)
    subst hdd
    exact (existsAt_iff.1 (setCont_iff.1 (hbefore j hj)).1).2
  · rw [keyAt_place_ne hi] at hkey'
    exact hP key' hk' d' hd' hkey' j hj

theorem Moved.probeChain {bs : List (Bucket K V)} (hM : Moved (equalTo hash) t bs t')
    (hC : t.Counters) (hP : ProbeChain (equalTo hash) t) : ProbeChain (equalTo hash) t' := by
  induction hM with
  | nil => exact hP
  | skip _ _ ih => exact ih hC hP
  | move hs hroom hend _ ih => exact ih (hC.place hroom hend.lt) (hP.place hC hs hend)

/-- **A tombstone keeps the chains.** -/
theorem ProbeChain.marked (hP : ProbeChain F h) (hC : h.Counters)
    (hi : index < h.bucketCount) : ProbeChain F (h.marked index) := by
  have hself : (h.marked index).keyAt index = h.erasedKey :=
    keyAt_setBucket_self (by rwa [hC.length]) _
  have hother : ∀ j, index ≠ j → (h.marked index).keyAt j = h.keyAt j :=
    fun j hj => keyAt_setBucket_ne hj _
  intro key hk d hd hkey j hj
  have hne : index ≠ path F (h.marked index) key d := by
    intro heq
    rw [← heq, hself] at hkey
    exact (isSentinel_eq_false_iff.1 hk).1 hkey.symm
  rw [hother _ hne] at hkey
  have hold := hP key hk d hd hkey j hj
  by_cases hji : index = path F (h.marked index) key j
  · rw [← hji, hself]
    exact hC.sentinels.symm
  · rw [hother _ hji]
    exact hold

theorem Expanded.probeChain (hE : Expanded (equalTo hash) h t)
    (hP : ProbeChain (equalTo hash) h) : ProbeChain (equalTo hash) t := by
  cases hE with
  | same => exact hP
  | first => exact probeChain_firstResize _ _
  | grown _ _ hfresh hM => exact hM.probeChain hfresh (probeChain_firstResize _ _)

theorem Shrunk.probeChain (hS : Shrunk (equalTo hash) h t)
    (hP : ProbeChain (equalTo hash) h) : ProbeChain (equalTo hash) t := by
  cases hS with
  | same => exact hP
  | half _ _ _ hfresh hM => exact hM.probeChain hfresh (probeChain_firstResize _ _)

/-! ## Runs of one map -/

/-- The machine of one map, from `h₀` on. -/
def calls [Inhabited V] (F : Functors K) (h₀ : LinearHashmap K V) :
    Machine (LinearHashmap K V) (MapOp K V) where
  init := h₀
  step := MapOp.apply F

/-- The call uses an ordinary key and keeps the bucket count at or below `2 ^ 30`. -/
def Ordinary (h : LinearHashmap K V) (op : MapOp K V) : Prop :=
  op.Within h ∧ ∀ key ∈ op.key?, h.isSentinel key = false

instance (h : LinearHashmap K V) (op : MapOp K V) : Decidable (Ordinary h op) :=
  inferInstanceAs (Decidable ((_ → h.Within) ∧ ∀ _ ∈ _, _))

theorem ProbeChain.set (hP : ProbeChain (equalTo hash) h) (hC : h.Counters) (hin : h.Within)
    (hk : h.isSentinel key = false) {i : ℕ}
    (hset : h.set (equalTo hash) key value displace = some (h', i)) :
    ProbeChain (equalTo hash) h' := by
  obtain ⟨t, j, hE, hCt, -, hend, heq⟩ := set_spec (equalTo hash) hC hin key value displace
  rw [hset] at heq
  cases heq
  refine (hE.probeChain hP).place hCt ?_ hend
  rwa [hE.isSentinel_eq]

/-- The invariant of a map used with ordinary keys. -/
structure Sound (F : Functors K) (h : LinearHashmap K V) : Prop where
  counters : h.Counters
  chain : ProbeChain F h

theorem Sound.step [Inhabited V] (hS : Sound (equalTo hash) h) (op : MapOp K V)
    (hop : Ordinary h op) (hst : op.apply (equalTo hash) h = some h') :
    Sound (equalTo hash) h' := by
  obtain ⟨h'', heq, hC'⟩ := hS.counters.apply (F := equalTo hash) op hop.1
  rw [hst] at heq
  cases heq
  refine ⟨hC', ?_⟩
  cases op with
  | insert key value | insertOrAssign key value | index key =>
    obtain ⟨⟨t, i⟩, hset, rfl⟩ := Option.map_eq_some_iff.1 hst
    exact hS.chain.set hS.counters (hop.1 rfl) (hop.2 key rfl) hset
  | indexAssign key value =>
    obtain ⟨⟨t, i⟩, hset, rfl⟩ := Option.map_eq_some_iff.1 hst
    obtain ⟨t', j, hset', hCt, hj⟩ :=
      hS.counters.set (F := equalTo hash) (hop.1 rfl) key default false
    rw [show h.set (equalTo hash) key default false = some (t, i) from hset] at hset'
    cases hset'
    refine (hS.chain.set hS.counters (hop.1 rfl) (hop.2 key rfl) hset).of_keyAt rfl rfl rfl rfl
      fun m => ?_
    by_cases hm : i = m
    · subst hm
      exact keyAt_setBucket_self (by rwa [hCt.length]) _
    · exact keyAt_setBucket_ne hm _
  | erase key =>
    obtain ⟨i, -, hdel⟩ := Option.bind_eq_some_iff.1 hst
    obtain ⟨h'', heq, -, hcase⟩ := delete_spec (equalTo hash) hS.counters i
    rw [hdel] at heq
    cases heq
    rcases hcase with ⟨-, rfl⟩ | ⟨hi, -, hShr⟩
    · exact hS.chain
    · exact hShr.probeChain (hS.chain.marked hS.counters hi)
  | clear =>
    cases hst
    exact probeChain_clear h

theorem Sound.reach [Inhabited V] {n : ℕ} {e d : K} {h₀ : LinearHashmap K V}
    (hcon : construct n e d = some h₀) (hn : nextPowTwo n ≤ 2 ^ 30)
    (hs : (calls (equalTo hash) h₀).Reach Ordinary h) : Sound (equalTo hash) h :=
  hs.invariant ⟨counters_construct hn hcon, probeChain_construct hcon⟩
    fun _ op _ hS hop hst => hS.step op hop hst

/-! ## Lookup -/

/-- **What `Get` finds**: a bucket that holds the key, if there is one. -/
theorem Sound.get (hS : Sound (equalTo hash) h) (hk : h.isSentinel key = false) :
    ∃ i, h.get (equalTo hash) key = some i ∧
      (i < h.bucketCount ∧ h.keyAt i = key ∨
        i = h.bucketCount ∧ ∀ j < h.bucketCount, h.keyAt j ≠ key) := by
  have hs := hS.counters.sentinels
  rcases get_spec (equalTo hash) hS.counters key with ⟨h0, hget⟩ | ⟨h0, i, hend, hget⟩
  · exact ⟨_, hget, Or.inr ⟨rfl, fun j hj => by omega⟩⟩
  refine ⟨_, hget, ?_⟩
  have hlt := hend.lt
  obtain ⟨d, hd, hpath, hstop, hbefore⟩ := hend
  by_cases hempty : h.keyAt i = h.emptyKey
  · have hat : h.emptyAt i = true := decide_eq_true hempty
    rw [if_pos hat]
    refine Or.inr ⟨rfl, ?_⟩
    intro j hj hkey
    obtain ⟨d', hd', hpath'⟩ := hS.counters.exists_path (F := equalTo hash) h0 key hj
    rw [← hpath'] at hkey
    -- The bucket holding the key is neither before nor after the empty one.
    have hge : d ≤ d' := by
      by_contra hlt
      exact ((getCont_iff hk hs).1 (hbefore d' (by omega))).2 hkey
    rcases Nat.eq_or_lt_of_le hge with rfl | hgt
    · rw [hpath] at hkey
      exact (isSentinel_eq_false_iff.1 hk).2 (hkey.symm.trans hempty)
    · exact hS.chain key hk d' hd' hkey d hgt (by rw [hpath]; exact hempty)
  · rw [if_neg (by simpa [emptyAt] using hempty)]
    refine Or.inl ⟨hlt, ?_⟩
    by_contra hne
    rw [(getCont_iff hk hs).2 ⟨hempty, hne⟩] at hstop
    exact absurd hstop (by simp)

/-- `Get` right after `Set` finds the bucket that `Set` wrote. -/
theorem get_place (hC : h.Counters) (hroom : h.used < h.resizeCount)
    (hk : h.isSentinel key = false)
    (hend : EndsAt (equalTo hash) h key (h.setCont (equalTo hash) key) index) :
    (h.place index key value displace).get (equalTo hash) key = some index := by
  have hself : (h.place index key value displace).keyAt index = key :=
    keyAt_place_self (by rw [hC.length]; exact hend.lt) hend.cont_eq
  have hC' : (h.place index key value displace).Counters := hC.place hroom hend.lt
  have hk' : (h.place index key value displace).isSentinel key = false := by simpa using hk
  have hlt := hend.lt
  obtain ⟨d, hd, hpath, hstop, hbefore⟩ := hend
  have hgetEnd : EndsAt (equalTo hash) (h.place index key value displace) key
      ((h.place index key value displace).getCont (equalTo hash) key) index := by
    refine ⟨d, by simpa using hd, by simpa using hpath, ?_, fun j hj => ?_⟩
    · rw [← Bool.not_eq_true, getCont_iff hk' hC'.sentinels]
      exact fun hcont => hcont.2 hself
    · obtain ⟨he, hne⟩ := setCont_iff.1 (hbefore j hj)
      have hij : index ≠ path (equalTo hash) h key j := by
        intro heq
        have := path_injective hd (by omega) (hpath.trans heq)
        omega
      rw [path_place, getCont_iff hk' hC'.sentinels, keyAt_place_ne hij, emptyKey_place]
      exact ⟨(existsAt_iff.1 he).2, hne⟩
  have h0 : (h.place index key value displace).bucketCount ≠ 0 := by
    rw [bucketCount_place]
    omega
  have hne : (h.place index key value displace).emptyAt index = false := by
    rw [emptyAt, hself]
    simpa using (isSentinel_eq_false_iff.1 hk').2
  rw [LinearHashmap.get, if_neg h0, (hC'.scan_iff h0).2 hgetEnd]
  simp [hne]

/-- **Lookup is complete and agrees with insertion.** In every state of a map used with ordinary
keys, no bucket on the way to a bucket that exists is empty; `Get` returns a bucket holding the
key exactly when some bucket holds it; and `Get` right after `Set` returns the same bucket. -/
theorem lookup_complete [Inhabited V] {n : ℕ} {e d : K} {h₀ : LinearHashmap K V}
    (hcon : construct n e d = some h₀) (hn : nextPowTwo n ≤ 2 ^ 30)
    (hs : (calls (equalTo hash) h₀).Reach Ordinary h) :
    (∀ i < h.bucketCount, h.existsAt i = true → ∃ d < h.bucketCount,
      path (equalTo hash) h (h.keyAt i) d = i ∧
        ∀ j ≤ d, h.emptyAt (path (equalTo hash) h (h.keyAt i) j) = false) ∧
    (∀ key, h.isSentinel key = false → ∃ i, h.get (equalTo hash) key = some i ∧
      (i < h.bucketCount ∧ h.keyAt i = key ↔ ∃ j < h.bucketCount, h.keyAt j = key)) ∧
    ∀ key value displace, h.isSentinel key = false → h.Within →
      ∃ h' i, h.set (equalTo hash) key value displace = some (h', i) ∧
        h'.get (equalTo hash) key = some i := by
  have hS := Sound.reach hcon hn hs
  refine ⟨fun i hi he => ?_, fun key hk => ?_, fun key value displace hk hin => ?_⟩
  · have hsent : h.isSentinel (h.keyAt i) = false := by simpa [existsAt_eq] using he
    obtain ⟨d, hd, hpath⟩ :=
      hS.counters.exists_path (F := equalTo hash) (by omega) (h.keyAt i) hi
    refine ⟨d, hd, hpath, fun j hj => decide_eq_false ?_⟩
    rcases Nat.eq_or_lt_of_le hj with rfl | hj
    · rw [hpath]
      exact (existsAt_iff.1 he).2
    · exact hS.chain _ hsent d hd (by rw [hpath]) j hj
  · obtain ⟨i, hget, hcase⟩ := hS.get hk
    refine ⟨i, hget, fun hi => ⟨i, hi⟩, ?_⟩
    intro hex
    obtain ⟨j, hj, hkey⟩ := hex
    rcases hcase with hi | ⟨-, hnone⟩
    · exact hi
    · exact absurd hkey (hnone j hj)
  · obtain ⟨t, i, hE, hCt, hroom, hend, hset⟩ :=
      set_spec (equalTo hash) hS.counters hin key value displace
    refine ⟨_, i, hset, get_place hCt hroom ?_ hend⟩
    rwa [hE.isSentinel_eq]

/-- In a table where `2` collides with `1` and `1` has been erased, `Get` still finds `2`. -/
theorem lookup_complete_after_erase :
    ∃ h : LinearHashmap ℕ ℕ,
      (calls (equalTo fun _ => 0) (blank 100 101)).Reach Ordinary h ∧ h.deletedAt 0 = true ∧
      ∃ i, h.get (equalTo fun _ => 0) 2 = some i ∧
        (i < h.bucketCount ∧ h.keyAt i = 2 ↔ ∃ j < h.bucketCount, h.keyAt j = 2) := by
  have hrun := (calls (equalTo fun _ => 0) (blank 100 101)).reach_of_run Ordinary
    [.insert 1 10, .insert 2 20, .erase (1 : ℕ)] rfl
  have hcon : construct 0 100 101 = some (blank 100 101 : LinearHashmap ℕ ℕ) := rfl
  exact ⟨_, hrun, rfl, (lookup_complete hcon (by decide) hrun).2.1 2 rfl⟩

end LinearHashmap

end Naesala
