import Mathlib.Tactic.Abel
import Naesala.Library.Pairs
import Naesala.Hashmap.Iteration
import Naesala.Hashmap.Lookup

/-!
# `LinearHashmap` and the finite map it stands for

A reference finite map performs the same calls, and `Agrees` says that the two cannot be told
apart through `find`, `count`, `size` and iteration. They can be told apart in general: `Set`
stops at a tombstone and writes there, without looking whether its key is further along the
path. `MapOp.Unshadowed` is the condition on a call that rules this out.

**Theorem (`agrees_iff_unshadowed`).** In every run whose calls are all unshadowed the map
agrees with the reference after every step, and a call that is not unshadowed breaks the
agreement at once.

The proof is a simulation. `Represents` relates the pairs of the existing buckets, and `size_`,
to the reference; writing and marking one bucket change the pairs as inserting and erasing do,
and a rebuild only reorders them.
-/

namespace Naesala

namespace LinearHashmap

variable {K V : Type} [DecidableEq K] {hash : K → ℕ} {F : Functors K}
variable {h h' t t' : LinearHashmap K V} {m m₀ : Finmap fun _ : K => V}
variable {key : K} {value : V} {displace : Bool} {index n : ℕ}

/-! ## The reference -/

/-- A map that keeps the value of a key it has. -/
def putAbsent (m : Finmap fun _ : K => V) (key : K) (value : V) : Finmap fun _ : K => V :=
  if key ∈ m then m else m.insert key value

/-- Perform the call on a finite map. -/
def MapOp.reference [Inhabited V] (m : Finmap fun _ : K => V) : MapOp K V → Finmap fun _ : K => V
  | .insert key value => putAbsent m key value
  | .insertOrAssign key value => m.insert key value
  | .index key => putAbsent m key default
  | .indexAssign key value => m.insert key value
  | .erase key => m.erase key
  | .clear => ∅

/-- Nothing that the map shows tells it apart from `m`. -/
structure Agrees (F : Functors K) (h : LinearHashmap K V) (m : Finmap fun _ : K => V) : Prop where
  find : ∀ key, h.find F key = some ((m.lookup key).map fun value => (key, some value))
  count : ∀ key, h.count F key = some (if key ∈ m then 1 else 0)
  size : h.size = Multiset.card m.entries
  traverse : (h.traverse : Multiset (K × Option V)) = m.pairs some

/-! ## Shadowing -/

/-- No bucket on the probe path of `key` before one that holds it is deleted. -/
def Unobstructed (F : Functors K) (h : LinearHashmap K V) (key : K) : Prop :=
  ∀ d < h.bucketCount, h.keyAt (path F h key d) = key →
    ∀ j < d, h.deletedAt (path F h key j) = false

instance (F : Functors K) (h : LinearHashmap K V) (key : K) : Decidable (Unobstructed F h key) :=
  inferInstanceAs (Decidable (∀ _ < _, _ → ∀ _ < _, _))

/-- A call that writes meets no tombstone before the bucket that holds its key, in a table that
it does not rebuild first. -/
def MapOp.Unshadowed (F : Functors K) (h : LinearHashmap K V) (op : MapOp K V) : Prop :=
  op.callsSet = true → h.used < h.resizeCount → ∀ key ∈ op.key?, Unobstructed F h key

instance (F : Functors K) (h : LinearHashmap K V) (op : MapOp K V) :
    Decidable (op.Unshadowed F h) :=
  inferInstanceAs (Decidable (_ → _ → ∀ _ ∈ _, _))

/-! ## The pairs of the existing buckets -/

theorem mem_existing {o : Option V} :
    (key, o) ∈ h.existing ↔
      ∃ i < h.buckets.length, h.existsAt i = true ∧ h.keyAt i = key ∧ h.valueAt i = o := by
  simp only [existing, existingIn, List.mem_map, List.mem_filter]
  constructor
  · intro hp
    obtain ⟨b, ⟨hb, hs⟩, heq⟩ := hp
    obtain ⟨i, hi, rfl⟩ := List.getElem_of_mem hb
    obtain ⟨rfl, rfl⟩ := Prod.mk.inj heq
    have hkey := keyAt_eq_first hi
    refine ⟨i, hi, ?_, hkey, by simp [valueAt, hi]⟩
    rw [existsAt_eq, hkey]
    exact hs
  · intro hp
    obtain ⟨i, hi, he, rfl, rfl⟩ := hp
    have hkey := keyAt_eq_first hi
    refine ⟨h.buckets[i], ⟨List.getElem_mem hi, ?_⟩, ?_⟩
    · rw [← hkey]
      exact he
    · simp [pair, keyAt, valueAt, hi]

/-- The pair that a bucket contributes, if it exists. -/
def pairOf (sentinel : K → Bool) (b : Bucket K V) : Multiset (K × Option V) :=
  if sentinel b.first then 0 else {pair b}

omit [DecidableEq K] in
theorem coe_existingIn_cons (sentinel : K → Bool) (b : Bucket K V) (bs : List (Bucket K V)) :
    (existingIn sentinel (b :: bs) : Multiset (K × Option V)) =
      pairOf sentinel b + (existingIn sentinel bs : Multiset (K × Option V)) := by
  cases hb : sentinel b.first with
  | true =>
    rw [existingIn_cons_of_sentinel hb, pairOf, if_pos hb, zero_add]
  | false =>
    rw [existingIn_cons_of_exists hb, pairOf, if_neg (by simp [hb])]
    rfl

/-- Overwriting a bucket takes its pair away and adds the new one. -/
theorem existing_setBucket (hi : index < h.buckets.length) (b : Bucket K V) :
    ((h.setBucket index b).existing : Multiset (K × Option V)) +
        pairOf h.isSentinel h.buckets[index] =
      (h.existing : Multiset (K × Option V)) + pairOf h.isSentinel b := by
  have hperm : ∀ {l l' : List (Bucket K V)}, l.Perm l' →
      (existingIn h.isSentinel l : Multiset (K × Option V)) = existingIn h.isSentinel l' :=
    fun hl => Multiset.coe_eq_coe.2 ((hl.filter _).map _)
  have hset := hperm (List.set_perm_cons_eraseIdx hi b)
  have hget := hperm (List.getElem_cons_eraseIdx_perm hi)
  rw [coe_existingIn_cons] at hset hget
  show (existingIn h.isSentinel (h.buckets.set index b) : Multiset (K × Option V)) + _ =
    (existingIn h.isSentinel h.buckets : Multiset (K × Option V)) + _
  rw [hset, ← hget]
  abel

theorem pairOf_of_exists (hi : index < h.buckets.length) (he : h.existsAt index = true) :
    pairOf h.isSentinel h.buckets[index] = {(h.keyAt index, h.valueAt index)} := by
  have hkey := keyAt_eq_first hi
  have hs : h.isSentinel h.buckets[index].first = false := by
    rw [← hkey]
    simpa [existsAt_eq] using he
  rw [pairOf, if_neg (by simp [hs])]
  simp [pair, keyAt, valueAt, hi]

theorem pairOf_of_not_exists (hi : index < h.buckets.length) (he : h.existsAt index = false) :
    pairOf h.isSentinel h.buckets[index] = 0 := by
  have hkey := keyAt_eq_first hi
  have hs : h.isSentinel h.buckets[index].first = true := by
    rw [← hkey]
    simpa [existsAt_eq] using he
  rw [pairOf, if_pos hs]

theorem existing_of_empty (hempty : ∀ i, h.keyAt i = h.emptyKey) : h.existing = [] := by
  refine List.eq_nil_iff_forall_not_mem.2 ?_
  intro p hp
  obtain ⟨i, -, he, -⟩ := mem_existing.1 hp
  exact not_empty_of_exists he (hempty i)

/-! ## Representing a finite map -/

/-- The existing buckets hold the pairs of `m`, and `size_` counts them. -/
structure Represents (h : LinearHashmap K V) (m : Finmap fun _ : K => V) : Prop where
  existing : (h.existing : Multiset (K × Option V)) = m.pairs some
  size : h.size = Multiset.card (m.pairs some)

theorem represents_of_empty (hempty : ∀ i, h.keyAt i = h.emptyKey) (hsize : h.size = 0) :
    Represents h (∅ : Finmap fun _ : K => V) := by
  refine ⟨?_, by simpa using hsize⟩
  rw [existing_of_empty hempty]
  rfl

/-- A value is in the map exactly when an existing bucket holds it. -/
theorem Represents.lookup_iff (hR : Represents h m) :
    m.lookup key = some value ↔ ∃ i < h.buckets.length,
      h.existsAt i = true ∧ h.keyAt i = key ∧ h.valueAt i = some value := by
  rw [← mem_existing, ← Multiset.mem_coe, hR.existing, Finmap.mem_pairs]
  constructor
  · intro hv
    exact ⟨value, hv, rfl⟩
  · intro hp
    obtain ⟨v, hv, heq⟩ := hp
    cases heq
    exact hv

theorem Represents.mem_iff (hR : Represents h m) :
    key ∈ m ↔ ∃ i < h.buckets.length, h.existsAt i = true ∧ h.keyAt i = key := by
  constructor
  · intro hk
    obtain ⟨v, hv⟩ := Finmap.mem_iff.1 hk
    obtain ⟨i, hi, he, hkey, -⟩ := hR.lookup_iff.1 hv
    exact ⟨i, hi, he, hkey⟩
  · intro hp
    obtain ⟨i, hi, he, hkey⟩ := hp
    have hmem : (key, h.valueAt i) ∈ (h.existing : Multiset (K × Option V)) :=
      Multiset.mem_coe.2 (mem_existing.2 ⟨i, hi, he, hkey, rfl⟩)
    rw [hR.existing, Finmap.mem_pairs] at hmem
    obtain ⟨v, hv, -⟩ := hmem
    exact Finmap.mem_of_lookup_eq_some hv

theorem Represents.lookup_keyAt (hR : Represents h m) (hi : index < h.buckets.length)
    (he : h.existsAt index = true) : ∃ v, m.lookup (h.keyAt index) = some v ∧
      h.valueAt index = some v := by
  have hmem : (h.keyAt index, h.valueAt index) ∈ (h.existing : Multiset (K × Option V)) :=
    Multiset.mem_coe.2 (mem_existing.2 ⟨index, hi, he, rfl, rfl⟩)
  rw [hR.existing, Finmap.mem_pairs] at hmem
  obtain ⟨v, hv, hval⟩ := hmem
  exact ⟨v, hv, hval.symm⟩

theorem Represents.existing_injective (hR : Represents h m) {i j : ℕ}
    (hi : i < h.buckets.length) (hj : j < h.buckets.length) (he : h.existsAt i = true)
    (hkey : h.keyAt i = h.keyAt j) : i = j := by
  have hnodup : (h.existing.map Prod.fst).Nodup := by
    have hm := Finmap.nodup_map_fst_pairs some m
    rwa [← hR.existing, Multiset.map_coe, Multiset.coe_nodup] at hm
  rw [map_fst_existing, List.Nodup, List.pairwise_filter, List.pairwise_iff_getElem] at hnodup
  have hne : ∀ {a b : ℕ}, a < b → b < h.buckets.length → h.existsAt a = true →
      h.keyAt a ≠ h.keyAt b := by
    intro a b hab hb hea hk
    have ha' : a < h.keys.length := by rw [length_keys]; omega
    have hb' : b < h.keys.length := by rwa [length_keys]
    have hea' : (!h.isSentinel (h.keyAt a)) = true := by rwa [← existsAt_eq]
    refine hnodup a b ha' hb' hab ?_ ?_ ?_
    · rwa [← keyAt_eq_keys ha']
    · rwa [← keyAt_eq_keys hb', ← hk]
    · rw [← keyAt_eq_keys ha', ← keyAt_eq_keys hb', hk]
  have hej : h.existsAt j = true := by rwa [existsAt_eq, ← hkey, ← existsAt_eq]
  rcases Nat.lt_trichotomy i j with hij | rfl | hij
  · exact absurd hkey (hne hij hj he)
  · rfl
  · exact absurd hkey.symm (hne hij hi hej)

/-! ## Writing -/

theorem Represents.place_of_not_exists (hR : Represents h m) (hi : index < h.buckets.length)
    (he : h.existsAt index = false) (hk : h.isSentinel key = false) (hmem : key ∉ m) :
    Represents (h.place index key value displace) (m.insert key value) := by
  have hset := existing_setBucket hi (⟨key, some value⟩ : Bucket K V)
  rw [pairOf_of_not_exists hi he, add_zero, pairOf, if_neg (by simp [hk]), hR.existing] at hset
  have hpairs : (m.insert key value).pairs some = m.pairs some + {(key, some value)} := by
    rw [Finmap.pairs_insert_of_notMem some hmem, add_comm]
    rfl
  unfold LinearHashmap.place
  rw [if_neg (by simp [he])]
  refine ⟨?_, ?_⟩
  · rw [hpairs]
    exact hset
  · rw [hpairs, Multiset.card_add, ← hR.size]
    rfl

theorem Represents.assign (hR : Represents h m) (hi : index < h.buckets.length)
    (he : h.existsAt index = true) (value : V) :
    Represents (h.setBucket index ⟨h.keyAt index, some value⟩)
      (m.insert (h.keyAt index) value) := by
  obtain ⟨v, hlookup, hval⟩ := hR.lookup_keyAt hi he
  have hk : h.isSentinel (h.keyAt index) = false := by simpa [existsAt_eq] using he
  have hset := existing_setBucket hi (⟨h.keyAt index, some value⟩ : Bucket K V)
  rw [pairOf_of_exists hi he, pairOf, if_neg (by simp [hk]), hR.existing, hval,
    Finmap.pairs_of_lookup some hlookup] at hset
  have hold : m.pairs some =
      (h.keyAt index, some v) ::ₘ (m.erase (h.keyAt index)).pairs some :=
    Finmap.pairs_of_lookup some hlookup
  refine ⟨?_, ?_⟩
  · refine add_right_cancel (hset.trans ?_)
    rw [Finmap.pairs_insert, ← Multiset.singleton_add, ← Multiset.singleton_add]
    abel
  · rw [Finmap.pairs_insert, Multiset.card_cons, ← Multiset.card_cons (h.keyAt index, some v),
      ← hold, ← hR.size]
    rfl

/-! ## Rebuilding -/

/-- The loop of `Resize` inserts the pairs of the old buckets. -/
theorem Moved.represents {bs : List (Bucket K V)} (hM : Moved (equalTo hash) t bs t')
    (hC : t.Counters) (hR : Represents t m₀)
    (hbs : m₀.pairs some + (existingIn t.isSentinel bs : Multiset (K × Option V)) =
      m.pairs some) : Represents t' m := by
  induction hM generalizing m₀ with
  | nil t =>
    have heq : m₀.pairs some = m.pairs some := by rw [← hbs]; exact (add_zero _).symm
    exact ⟨by rw [← heq]; exact hR.existing, by rw [← heq]; exact hR.size⟩
  | skip hs _ ih =>
    rw [existingIn_cons_of_sentinel hs] at hbs
    exact ih hC hR hbs
  | @move t t' k v bs index hs hroom hend _ ih =>
    rw [existingIn_cons_of_exists hs, ← Multiset.cons_coe, Multiset.add_cons,
      ← Multiset.cons_add] at hbs
    have hlt : index < t.buckets.length := by rw [hC.length]; exact hend.lt
    -- The pairs of `m` have each key once, so the new table does not have `k` yet.
    have hmem : k ∉ m₀ := by
      intro hk
      obtain ⟨w, hw⟩ := Finmap.mem_iff.1 hk
      have hin : (k, some w) ∈ m₀.pairs some := (Finmap.mem_pairs some).2 ⟨w, hw, rfl⟩
      have hnodup := Finmap.nodup_map_fst_pairs some m
      rw [← hbs, Multiset.cons_add, Multiset.map_cons, Multiset.nodup_cons] at hnodup
      refine hnodup.1 (Multiset.mem_map.2 ⟨(k, some w), ?_, rfl⟩)
      exact Multiset.mem_add.2 (Or.inl hin)
    have he : t.existsAt index = false := by
      rw [← Bool.not_eq_true]
      intro he
      exact hmem (hR.mem_iff.2 ⟨index, hlt, he, setCont_false_iff.1 hend.cont_eq he⟩)
    refine ih (hC.place hroom hend.lt) (hR.place_of_not_exists hlt he hs hmem) ?_
    rw [Finmap.pairs_insert_of_notMem some hmem]
    have hsent : (t.place index k v false).isSentinel = t.isSentinel := by
      funext x
      exact isSentinel_place t index k v false x
    rw [hsent]
    exact hbs

theorem Represents.rebuild (hR : Represents h m) (hfresh : (h.fresh n).Counters)
    (hM : Moved (equalTo hash) (h.fresh n) h.buckets t) : Represents t m := by
  have hempty : Represents (h.fresh n) (∅ : Finmap fun _ : K => V) :=
    represents_of_empty (keyAt_of_keys_replicate (keys_firstResize _ n)) rfl
  refine hM.represents hfresh hempty ?_
  rw [Finmap.pairs_empty, zero_add]
  exact hR.existing

theorem Expanded.represents (hE : Expanded (equalTo hash) h t) (hC : h.Counters)
    (hR : Represents h m) : Represents t m := by
  cases hE with
  | same => exact hR
  | first h0 _ =>
    have hnil : h.buckets = [] := List.eq_nil_of_length_eq_zero (by rw [hC.length, h0])
    have hexisting : (h.firstResize 8).existing = h.existing := by
      rw [existing_of_empty (keyAt_of_keys_replicate (keys_firstResize h 8)), existing, hnil]
      rfl
    exact ⟨by rw [hexisting]; exact hR.existing, hR.size⟩
  | grown _ _ hfresh hM => exact hR.rebuild hfresh hM

theorem Shrunk.represents (hS : Shrunk (equalTo hash) h t) (hR : Represents h m) :
    Represents t m := by
  cases hS with
  | same => exact hR
  | half _ _ _ hfresh hM => exact hR.rebuild hfresh hM

theorem Moved.deletedAt_eq {bs : List (Bucket K V)} (hM : Moved (equalTo hash) t bs t')
    (hC : t.Counters) (hnone : ∀ i, t.deletedAt i = false) (i : ℕ) : t'.deletedAt i = false := by
  induction hM with
  | nil => exact hnone i
  | skip _ _ ih => exact ih hC hnone
  | @move t t' k v bs index hs hroom hend _ ih =>
    refine ih (hC.place hroom hend.lt) ?_
    intro j
    rw [deletedAt, erasedKey_place]
    by_cases hij : index = j
    · subst hij
      rw [keyAt_place_self (by rw [hC.length]; exact hend.lt) hend.cont_eq]
      exact decide_eq_false (isSentinel_eq_false_iff.1 hs).1
    · rw [keyAt_place_ne hij]
      exact hnone j

theorem deletedAt_firstResize (hs : h.emptyKey ≠ h.erasedKey) (n i : ℕ) :
    (h.firstResize n).deletedAt i = false := by
  have hkey : (h.firstResize n).keyAt i = h.emptyKey :=
    keyAt_of_keys_replicate (keys_firstResize h n) i
  rw [deletedAt, hkey]
  exact decide_eq_false hs

/-- In the table that `Set` probes, the path is clear. -/
theorem Expanded.unobstructed (hE : Expanded (equalTo hash) h t) (hs : h.emptyKey ≠ h.erasedKey)
    (hU : h.used < h.resizeCount → Unobstructed (equalTo hash) h key) :
    Unobstructed (equalTo hash) t key := by
  cases hE with
  | same hroom => exact hU hroom
  | first => exact fun d _ _ j _ => deletedAt_firstResize hs 8 _
  | grown _ _ hfresh hM =>
    have hnone := hM.deletedAt_eq hfresh (deletedAt_firstResize (h := blank _ _) hs _)
    exact fun d _ _ j _ => hnone _

/-! ## `Set` -/

/-- A clear path leads `Set` to the bucket of its key, if there is one. -/
theorem not_mem_of_not_exists (hC : t.Counters) (hP : ProbeChain (equalTo hash) t)
    (hR : Represents t m) (hk : t.isSentinel key = false) (hU : Unobstructed (equalTo hash) t key)
    (hend : EndsAt (equalTo hash) t key (t.setCont (equalTo hash) key) index)
    (he : t.existsAt index = false) : key ∉ m := by
  intro hmem
  obtain ⟨i, hi, hei, hkey⟩ := hR.mem_iff.1 hmem
  obtain ⟨d, hd, hpath, -, hbefore⟩ := hend
  rw [hC.length] at hi
  obtain ⟨d', hd', hpath'⟩ := hC.exists_path (F := equalTo hash) (by omega) key hi
  have hkey' : t.keyAt (path (equalTo hash) t key d') = key := by rw [hpath', hkey]
  rcases Nat.lt_trichotomy d d' with hlt | rfl | hlt
  · have hempty := hP key hk d' hd' hkey' d hlt
    have hdeleted := hU d' hd' hkey' d hlt
    rw [hpath] at hempty hdeleted
    simp [existsAt, deletedOrEmptyAt, hdeleted, emptyAt, hempty] at he
  · rw [← hpath, hpath', hei] at he
    exact absurd he (by simp)
  · exact (setCont_iff.1 (hbefore d' hlt)).2 hkey'

/-- The finite map after `Set`. -/
def setReference (m : Finmap fun _ : K => V) (key : K) (value : V) :
    Bool → Finmap fun _ : K => V
  | true => m.insert key value
  | false => putAbsent m key value

/-- Writing where the probe has ended is `Set` on the finite map. -/
theorem Represents.place (hR : Represents t m) (hi : index < t.buckets.length)
    (hk : t.isSentinel key = false) (hstop : t.setCont (equalTo hash) key index = false)
    (hnew : t.existsAt index = false → key ∉ m) :
    Represents (t.place index key value displace) (setReference m key value displace) := by
  cases he : t.existsAt index with
  | false =>
    have hmem := hnew he
    have hboth : setReference m key value displace = m.insert key value := by
      cases displace with
      | true => rfl
      | false => exact if_neg hmem
    rw [hboth]
    exact hR.place_of_not_exists hi he hk hmem
  | true =>
    have hkey := setCont_false_iff.1 hstop he
    unfold LinearHashmap.place
    rw [if_pos he]
    cases displace with
    | true =>
      have hassign := hR.assign hi he value
      rw [hkey] at hassign
      exact hassign
    | false =>
      rw [setReference, putAbsent, if_pos (hR.mem_iff.2 ⟨index, hi, he, hkey⟩)]
      exact hR

/-- **An unshadowed `Set` is `Set` on the finite map.** -/
theorem Represents.set (hR : Represents h m) (hS : Sound (equalTo hash) h) (hin : h.Within)
    (hk : h.isSentinel key = false)
    (hU : h.used < h.resizeCount → Unobstructed (equalTo hash) h key)
    (hset : h.set (equalTo hash) key value displace = some (h', index)) :
    Represents h' (setReference m key value displace) := by
  obtain ⟨t, i, hE, hCt, hroom, hend, heq⟩ :=
    set_spec (equalTo hash) hS.counters hin key value displace
  rw [hset] at heq
  cases heq
  have hRt := hE.represents hS.counters hR
  have hkt : t.isSentinel key = false := by rwa [hE.isSentinel_eq]
  refine hRt.place (by rw [hCt.length]; exact hend.lt) hkt hend.cont_eq ?_
  intro he
  exact not_mem_of_not_exists hCt (hE.probeChain hS.chain) hRt hkt
    (hE.unobstructed hS.counters.sentinels hU) hend he

/-- **A shadowed `Set` writes its key a second time.** -/
theorem Represents.set_of_obstructed (hR : Represents h m) (hS : Sound (equalTo hash) h)
    (hin : h.Within) (hk : h.isSentinel key = false) (hroom : h.used < h.resizeCount)
    (hU : ¬ Unobstructed (equalTo hash) h key)
    (hset : h.set (equalTo hash) key value displace = some (h', index)) :
    key ∈ m ∧ h'.size = h.size + 1 := by
  obtain ⟨t, i, hE, hC, -, hend, heq⟩ :=
    set_spec (equalTo hash) hS.counters hin key value displace
  rw [hset] at heq
  cases heq
  have ht : t = h := by
    cases hE with
    | same => rfl
    | first _ hfull | grown _ hfull => omega
  subst ht
  unfold Unobstructed at hU
  push Not at hU
  obtain ⟨d, hd, hkey, j, hj, hdel⟩ := hU
  have hlt : path (equalTo hash) t key d < t.buckets.length := by
    rw [hC.length]
    exact path_lt (by omega) d
  have hed : t.existsAt (path (equalTo hash) t key d) = true := by
    rw [existsAt_eq, hkey, hk]
    rfl
  refine ⟨hR.mem_iff.2 ⟨_, hlt, hed, hkey⟩, ?_⟩
  have hi := hend.lt
  obtain ⟨d', hd', hpath, hstop, hbefore⟩ := hend
  have hle : d' ≤ j := by
    by_contra hgt
    have he := (setCont_iff.1 (hbefore j (by omega))).1
    simp [existsAt, deletedOrEmptyAt, hdel] at he
  have he : t.existsAt index = false := by
    rw [← Bool.not_eq_true]
    intro he
    have heq := hR.existing_injective (by rwa [hC.length]) hlt he
      ((setCont_false_iff.1 hstop he).trans hkey.symm)
    have := path_injective hd' hd (hpath.trans heq)
    omega
  unfold LinearHashmap.place
  rw [if_neg (by simp [he])]

/-! ## `Get`, `erase` and `clear` -/

theorem get_of_isSentinel (hC : h.Counters) (hk : h.isSentinel key = true) :
    h.get (equalTo hash) key = some h.bucketCount := by
  rcases get_spec (equalTo hash) hC key with ⟨-, hget⟩ | ⟨-, i, hend, hget⟩
  · exact hget
  have hempty : h.emptyAt i = true := by
    by_contra hne
    have hnot : h.emptyAt i = false := by simpa using hne
    have hstop := hend.cont_eq
    simp only [getCont, Bool.or_eq_false_iff, Bool.and_eq_false_iff] at hstop
    obtain ⟨hdel, hmiss⟩ := hstop
    have he : h.existsAt i = true := by simp [existsAt, deletedOrEmptyAt, hdel, hnot]
    have hkey : h.keyAt i = key := by simpa [he, equalTo] using hmiss
    rw [existsAt_eq, hkey, hk] at he
    exact absurd he (by simp)
  rw [hget, if_pos hempty]

/-- `Get` finds the bucket of a key that the finite map has, and misses any other key. -/
theorem Represents.get (hR : Represents h m) (hS : Sound (equalTo hash) h) (key : K) :
    ∃ i, h.get (equalTo hash) key = some i ∧
      (i < h.bucketCount ∧ h.existsAt i = true ∧ h.keyAt i = key ∨
        i = h.bucketCount ∧ key ∉ m) := by
  have hlen := hS.counters.length
  cases hk : h.isSentinel key with
  | true =>
    refine ⟨_, get_of_isSentinel hS.counters hk, Or.inr ⟨rfl, fun hmem => ?_⟩⟩
    obtain ⟨i, -, he, hkey⟩ := hR.mem_iff.1 hmem
    rw [existsAt_eq, hkey, hk] at he
    exact absurd he (by simp)
  | false =>
    obtain ⟨i, hget, hcase⟩ := hS.get hk
    refine ⟨i, hget, ?_⟩
    rcases hcase with ⟨hi, hkey⟩ | ⟨hi, hnone⟩
    · exact Or.inl ⟨hi, by rw [existsAt_eq, hkey, hk]; rfl, hkey⟩
    · refine Or.inr ⟨hi, ?_⟩
      intro hmem
      obtain ⟨j, hj, -, hkey⟩ := hR.mem_iff.1 hmem
      exact hnone j (by rwa [← hlen]) hkey

theorem Represents.marked (hR : Represents h m) (hi : index < h.buckets.length)
    (he : h.existsAt index = true) : Represents (h.marked index) (m.erase (h.keyAt index)) := by
  obtain ⟨v, hlookup, hval⟩ := hR.lookup_keyAt hi he
  have hset := existing_setBucket hi (⟨h.erasedKey, none⟩ : Bucket K V)
  have hmark : pairOf h.isSentinel (⟨h.erasedKey, none⟩ : Bucket K V) = 0 :=
    if_pos (by simp [isSentinel])
  have hold := Finmap.pairs_of_lookup some hlookup
  rw [pairOf_of_exists hi he, hmark, add_zero, hR.existing, hval, hold] at hset
  refine ⟨?_, ?_⟩
  · refine add_right_cancel (hset.trans ?_)
    rw [← Multiset.singleton_add, add_comm]
  · show h.size - 1 = _
    rw [hR.size, hold, Multiset.card_cons]
    omega

theorem Represents.erase (hR : Represents h m) (hS : Sound (equalTo hash) h)
    (herase : h.erase (equalTo hash) key = some h') : Represents h' (m.erase key) := by
  obtain ⟨i, hget, hcase⟩ := hR.get hS key
  rw [LinearHashmap.erase, hget, Option.bind_some] at herase
  obtain ⟨h'', hdel, -, hspec⟩ := delete_spec (equalTo hash) hS.counters i
  rw [herase] at hdel
  cases hdel
  rcases hcase with ⟨hi, he, hkey⟩ | ⟨hi, hmem⟩
  · rcases hspec with ⟨hno, -⟩ | ⟨-, -, hShr⟩
    · exact absurd ⟨hi, he⟩ hno
    · rw [← hkey]
      exact hShr.represents (hR.marked (by rwa [hS.counters.length]) he)
  · rcases hspec with ⟨-, rfl⟩ | ⟨hlt, -⟩
    · rwa [Finmap.erase_of_notMem hmem]
    · omega

/-- **What represents a finite map cannot be told apart from it.** -/
theorem Represents.agrees (hR : Represents h m) (hS : Sound (equalTo hash) h) :
    Agrees (equalTo hash) h m := by
  have hlen := hS.counters.length
  refine ⟨fun key => ?_, fun key => ?_, by rw [hR.size, Finmap.card_pairs], ?_⟩
  · obtain ⟨i, hget, hcase⟩ := hR.get hS key
    rw [find, hget, Option.map_some]
    rcases hcase with ⟨hi, he, hkey⟩ | ⟨hi, hmem⟩
    · obtain ⟨v, hlookup, hval⟩ := hR.lookup_keyAt (by rwa [hlen]) he
      rw [if_neg (by omega), hval, ← hkey, hlookup]
      rfl
    · rw [if_pos hi, Finmap.lookup_eq_none.2 hmem]
      rfl
  · obtain ⟨i, hget, hcase⟩ := hR.get hS key
    rw [count, hget, Option.map_some]
    rcases hcase with ⟨hi, he, hkey⟩ | ⟨hi, hmem⟩
    · rw [if_pos (by omega), if_pos (hR.mem_iff.2 ⟨i, by rwa [hlen], he, hkey⟩)]
    · rw [if_neg (by omega), if_neg hmem]
  · rw [traverse_eq hlen]
    exact hR.existing

/-! ## Runs beside the reference -/

variable [Inhabited V]

/-- **The step lemma**: an unshadowed call is the same call on the finite map. -/
theorem Represents.step (hR : Represents h m) (hS : Sound (equalTo hash) h) (op : MapOp K V)
    (hop : Ordinary h op) (hU : op.Unshadowed (equalTo hash) h)
    (hst : op.apply (equalTo hash) h = some h') : Represents h' (op.reference m) := by
  cases op with
  | insert key value | insertOrAssign key value | index key =>
    obtain ⟨⟨t, i⟩, hset, rfl⟩ := Option.map_eq_some_iff.1 hst
    exact hR.set hS (hop.1 rfl) (hop.2 key rfl) (fun hroom => hU rfl hroom key rfl) hset
  | indexAssign key value =>
    obtain ⟨⟨t, i⟩, hset, rfl⟩ := Option.map_eq_some_iff.1 hst
    have hk := hop.2 key rfl
    have hRt := hR.set hS (hop.1 rfl) hk (fun hroom => hU rfl hroom key rfl) hset
    obtain ⟨u, j, hE, hC, hroom, hend, heq⟩ :=
      set_spec (equalTo hash) hS.counters (hop.1 rfl) key default false
    rw [show h.set (equalTo hash) key default false = some (t, i) from hset] at heq
    cases heq
    have hself : (u.place i key default false).keyAt i = key :=
      keyAt_place_self (by rw [hC.length]; exact hend.lt) hend.cont_eq
    have hlt : i < (u.place i key default false).buckets.length := by
      rw [(hC.place hroom hend.lt).length, bucketCount_place]
      exact hend.lt
    have he : (u.place i key default false).existsAt i = true := by
      rw [existsAt_eq, hself, isSentinel_place, hE.isSentinel_eq, hk]
      rfl
    have hassign := hRt.assign hlt he value
    have hsame : (setReference m key default false).insert key value = m.insert key value := by
      rw [setReference, putAbsent]
      split_ifs
      · rfl
      · rw [Finmap.insert_insert]
    rw [hself, hsame] at hassign
    show Represents ((u.place i key default false).setBucket i _) _
    rw [hself]
    exact hassign
  | erase key => exact hR.erase hS hst
  | clear =>
    cases hst
    exact represents_of_empty (keyAt_of_keys_replicate (keys_clear h)) rfl

theorem MapOp.exists_set (op : MapOp K V) (hcalls : op.callsSet = true) (hkey : op.key? = some key)
    (hst : op.apply F h = some h') :
    ∃ value displace t i, h.set F key value displace = some (t, i) ∧ h'.size = t.size := by
  cases op with
  | insert k value | insertOrAssign k value | index k =>
    cases hkey
    obtain ⟨⟨t, i⟩, hset, rfl⟩ := Option.map_eq_some_iff.1 hst
    exact ⟨_, _, t, i, hset, rfl⟩
  | indexAssign k value =>
    cases hkey
    obtain ⟨⟨t, i⟩, hset, rfl⟩ := Option.map_eq_some_iff.1 hst
    exact ⟨_, _, t, i, hset, rfl⟩
  | erase k => exact absurd hcalls (by simp [MapOp.callsSet])
  | clear => exact absurd hcalls (by simp [MapOp.callsSet])

theorem MapOp.card_reference (op : MapOp K V) (hcalls : op.callsSet = true)
    (hkey : op.key? = some key) (hmem : key ∈ m) :
    Multiset.card (op.reference m).entries = Multiset.card m.entries := by
  have hput : ∀ value : V, putAbsent m key value = m := fun _ => if_pos hmem
  have hinsert : ∀ value : V,
      Multiset.card (m.insert key value).entries = Multiset.card m.entries := by
    intro value
    obtain ⟨v, hv⟩ := Finmap.mem_iff.1 hmem
    rw [← Finmap.card_pairs id, ← Finmap.card_pairs id, Finmap.pairs_insert,
      Finmap.pairs_of_lookup id hv, Multiset.card_cons, Multiset.card_cons]
  cases op with
  | insert k value | index k =>
    cases hkey
    rw [reference, hput]
  | insertOrAssign k value | indexAssign k value =>
    cases hkey
    exact hinsert value
  | erase k => exact absurd hcalls (by simp [MapOp.callsSet])
  | clear => exact absurd hcalls (by simp [MapOp.callsSet])

/-- A shadowed call breaks the agreement: `size_` counts its key twice. -/
theorem Represents.not_agrees (hR : Represents h m) (hS : Sound (equalTo hash) h) (op : MapOp K V)
    (hop : Ordinary h op) (hU : ¬ op.Unshadowed (equalTo hash) h)
    (hst : op.apply (equalTo hash) h = some h') : ¬ Agrees (equalTo hash) h' (op.reference m) := by
  intro hA
  unfold MapOp.Unshadowed at hU
  push Not at hU
  obtain ⟨hcalls, hroom, key, hkey, hob⟩ := hU
  obtain ⟨value, displace, t, i, hset, hsize⟩ := op.exists_set hcalls hkey hst
  obtain ⟨hmem, hgrown⟩ :=
    hR.set_of_obstructed hS (hop.1 hcalls) (hop.2 key hkey) hroom hob hset
  have hcard := op.card_reference hcalls hkey hmem
  have hbefore := hR.size
  have hafter := hA.size
  rw [Finmap.card_pairs] at hbefore
  omega

/-- The machine of one map beside the reference map. -/
def paired (F : Functors K) (h₀ : LinearHashmap K V) :
    Machine (LinearHashmap K V × Finmap fun _ : K => V) (MapOp K V) where
  init := (h₀, ∅)
  step s op := (op.apply F s.1).map fun h => (h, op.reference s.2)

omit [Inhabited V] in
theorem represents_construct {e d : K} (h : construct n e d = some t) :
    Represents t (∅ : Finmap fun _ : K => V) := by
  unfold construct at h
  split_ifs at h <;> cases h
  · exact represents_of_empty (keyAt_of_keys_replicate (keys_firstResize _ _)) rfl
  · exact represents_of_empty (fun i => by simp [keyAt, blank]) rfl

/-- **The map is the reference map, as long as no call is shadowed.** After every step of a run
of unshadowed calls with ordinary keys, `find` and `count` of every key, `size` and the pairs
from `begin` to `end` are those of the reference; and the next call keeps this exactly when it
is not shadowed either. -/
theorem agrees_iff_unshadowed {e d : K} {h₀ : LinearHashmap K V} (hcon : construct n e d = some h₀)
    (hn : nextPowTwo n ≤ 2 ^ 30)
    (hs : (paired (equalTo hash) h₀).Reach
      (fun s op => Ordinary s.1 op ∧ op.Unshadowed (equalTo hash) s.1) (h, m)) :
    Agrees (equalTo hash) h m ∧
      ∀ op, Ordinary h op → ∃ h', op.apply (equalTo hash) h = some h' ∧
        (Agrees (equalTo hash) h' (op.reference m) ↔ op.Unshadowed (equalTo hash) h) := by
  obtain ⟨hS, hR⟩ : Sound (equalTo hash) h ∧ Represents h m := by
    refine hs.invariant (I := fun s => Sound (equalTo hash) s.1 ∧ Represents s.1 s.2)
      ⟨⟨counters_construct hn hcon, probeChain_construct hcon⟩, represents_construct hcon⟩ ?_
    intro s op s' hI hok hst
    obtain ⟨h, m⟩ := s
    obtain ⟨hS, hR⟩ := hI
    obtain ⟨hop, hU⟩ := hok
    obtain ⟨h', happly, rfl⟩ := Option.map_eq_some_iff.1 hst
    exact ⟨hS.step op hop happly, hR.step hS op hop hU happly⟩
  refine ⟨hR.agrees hS, ?_⟩
  intro op hop
  obtain ⟨h', hst, -⟩ := hS.counters.apply (F := equalTo hash) op hop.1
  refine ⟨h', hst, fun hA => ?_, fun hU => (hR.step hS op hop hU hst).agrees (hS.step op hop hst)⟩
  by_contra hU
  exact hR.not_agrees hS op hop hU hst hA

/-- A map without buckets, all of whose keys collide, with sentinels `100` and `101`. -/
def collidingMap : LinearHashmap ℕ ℕ := blank 100 101

/-- The conditions of `agrees_iff_unshadowed` hold of a run that leaves a tombstone. -/
theorem agrees_after_erase :
    ∃ h m, (paired (equalTo fun _ => 0) collidingMap).Reach
        (fun s op => Ordinary s.1 op ∧ op.Unshadowed (equalTo fun _ => 0) s.1) (h, m) ∧
      Agrees (equalTo fun _ => 0) h m ∧ m.lookup 2 = some 20 ∧ h.deletedAt 0 = true := by
  have hrun := (paired (equalTo fun _ => 0) collidingMap).reach_of_run
    (fun s op => Ordinary s.1 op ∧ op.Unshadowed (equalTo fun _ => 0) s.1)
    [.insert 1 10, .insert 2 20, .erase 1] rfl
  exact ⟨_, _, hrun, (agrees_iff_unshadowed (n := 0) (e := 100) (d := 101) rfl (by decide) hrun).1,
    rfl, rfl⟩

/-- Without the condition the map and the reference part: inserting `2` again, after `1` has left
a tombstone before it, writes `2` into the tombstone and keeps the old bucket as well. -/
theorem not_agrees_of_shadowed :
    ∃ h m, (paired (equalTo fun _ => 0) collidingMap).Reach
        (fun s op => Ordinary s.1 op) (h, m) ∧
      ¬ Agrees (equalTo fun _ => 0) h m ∧ h.traverse = [(2, some 30), (2, some 20)] := by
  have hrun := (paired (equalTo fun _ => 0) collidingMap).reach_of_run
    (fun s op => Ordinary s.1 op) [.insert 1 10, .insert 2 20, .erase 1, .insert 2 30] rfl
  exact ⟨_, _, hrun, fun hA => absurd hA.size (by decide), rfl⟩

end LinearHashmap

end Naesala
