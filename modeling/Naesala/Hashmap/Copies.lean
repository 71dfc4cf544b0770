import Naesala.Hashmap.Formed

/-!
# Copies

Both ways of copying leave the table that they copy, bucket by bucket: in a formed table the mapped
objects are where the keys say, so nothing of what was in the target before can be left behind, and
the mask and the thresholds, which copying in place does not touch, belong to the bucket count.

A constructor whose request `NextPowTwo` rounds to no buckets leaves a table that is `Hollow`:
`bucket_count_` is 0, and `buckets_` is not null. `Destory` does nothing then, and
`UninitializedCopy` asserts that there is no array.

**Theorem (`copies_iff`).** In every program with ordinary keys, the copies of `b`, by assignment
to `a` and by construction, are as good as `b` exactly if neither of the two is hollow.
-/

namespace Naesala

namespace LinearHashmap

variable {K V : Type} [DecidableEq K] {F : Functors K}
variable {h t other : LinearHashmap K V}

/-! ## Tables without buckets -/

/-- No buckets, but an array. -/
def Hollow (h : LinearHashmap K V) : Prop := h.bucketCount = 0 ∧ h.isNull = false

theorem Formed.notNull (hF : h.Formed) (h0 : h.bucketCount ≠ 0) : h.isNull = false := by
  cases hnull : h.isNull with
  | false => rfl
  | true =>
    rw [hF.null hnull] at h0
    exact absurd rfl h0

theorem Formed.eq_blank (hF : h.Formed) (h0 : h.bucketCount = 0) (hh : ¬ h.Hollow) :
    h = blank h.emptyKey h.erasedKey := by
  refine hF.null ?_
  cases hnull : h.isNull with
  | true => rfl
  | false => exact absurd ⟨h0, hnull⟩ hh

omit [DecidableEq K] in
theorem destory_of_pos (h0 : h.bucketCount ≠ 0) : h.destory = blank h.emptyKey h.erasedKey :=
  if_neg h0

omit [DecidableEq K] in
theorem destory_of_zero (h0 : h.bucketCount = 0) : h.destory = h := if_pos h0

/-! ## Copying a table with buckets -/

/-- A bucket whose mapped object is constructed exactly if the key is no mark. -/
theorem copyBucket_eq (hs : SameSentinels other h) {b : Bucket K V}
    (hb : b.second.isSome = !other.isSentinel b.first) : h.copyBucket b = b := by
  rw [← hs.isSentinel_eq] at hb
  obtain ⟨first, second⟩ := b
  unfold copyBucket
  cases hk : h.isSentinel first with
  | false => rfl
  | true => simp_all

theorem assignBucket_eq (hs : SameSentinels other h) {b s : Bucket K V}
    (hb : b.second.isSome = !h.isSentinel b.first)
    (hb' : s.second.isSome = !other.isSentinel s.first) : h.assignBucket b s = s := by
  rw [← hs.isSentinel_eq] at hb'
  obtain ⟨first, second⟩ := b
  obtain ⟨first', second'⟩ := s
  unfold assignBucket
  by_cases heq : first' = first
  · subst heq
    rw [if_pos rfl]
    cases hk : h.isSentinel first' with
    | false => rfl
    | true =>
      -- both are raw
      rw [hk] at hb hb'
      simp only [Bool.not_true, Option.isSome_eq_false_iff, Option.isNone_iff_eq_none] at hb hb'
      rw [hb, hb']
      rfl
  · rw [if_neg heq]
    cases hk : h.isSentinel first' with
    | false => rfl
    | true =>
      rw [hk] at hb'
      simp only [Bool.not_true, Option.isSome_eq_false_iff, Option.isNone_iff_eq_none] at hb'
      have hraw : (h.clearBucket ⟨first, second⟩).second = none := by
        unfold clearBucket
        by_cases hempty : first = h.emptyKey
        · simpa [hempty, isSentinel] using hb
        · rw [if_neg hempty]
          by_cases herased : first = h.erasedKey
          · simpa [herased, isSentinel] using hb
          · rw [if_pos herased]
      rw [if_pos rfl, hraw, hb']

/-- **`UninitializedCopy`** into a table without an array. -/
theorem Formed.uninitializedCopy_eq (hF : other.Formed) (h0 : other.bucketCount ≠ 0) :
    (blank other.emptyKey other.erasedKey).uninitializedCopy other = some other := by
  have hbuckets : other.buckets.map
      (blank other.emptyKey other.erasedKey : LinearHashmap K V).copyBucket = other.buckets := by
    refine (List.map_congr_left fun b hb => ?_).trans (List.map_id _)
    exact copyBucket_eq ⟨rfl, rfl⟩ (hF.constructed b hb)
  have hmask : sizeT (other.bucketCount + (2 ^ 64 - 1)) = other.mask := by
    have hlt := hF.lt
    have := hF.mask h0
    unfold sizeT
    omega
  have hnull := hF.notNull h0
  unfold uninitializedCopy
  rw [if_neg (by simp [blank]), hbuckets, hmask]
  obtain ⟨_, _, _, _, _, _, _, _, _, _⟩ := other
  simp only at hnull
  rw [hnull]
  rfl

/-- **`InitializedCopy`** into a table with as many buckets. -/
theorem Formed.initializedCopy_eq (hF : other.Formed) (hFh : h.Formed) (hs : SameSentinels other h)
    (h0 : other.bucketCount ≠ 0) (hcount : h.bucketCount = other.bucketCount) :
    h.initializedCopy other = some other := by
  have hbuckets : List.zipWith h.assignBucket h.buckets other.buckets = other.buckets := by
    refine List.ext_getElem ?_ fun i hi hi' => ?_
    · rw [List.length_zipWith, hF.length, hFh.length, hcount, min_self]
    · rw [List.getElem_zipWith]
      exact assignBucket_eq hs (hFh.constructed _ (List.getElem_mem _))
        (hF.constructed _ (List.getElem_mem _))
  have hmask : h.mask = other.mask := by
    have := hF.mask h0
    have := hFh.mask (by rwa [hcount])
    omega
  have hresize : h.resizeCount = other.resizeCount := by
    rw [hF.resizeCount, hFh.resizeCount, hcount]
  have hshrink : h.shrinkCount = other.shrinkCount := by
    rw [hF.shrinkCount, hFh.shrinkCount, hcount]
  have hnull : h.isNull = other.isNull := by
    rw [hF.notNull h0, hFh.notNull (by rwa [hcount])]
  unfold initializedCopy
  rw [if_neg (by rw [hcount]; exact not_not.2 rfl), hbuckets]
  obtain ⟨he, hd⟩ := hs
  obtain ⟨_, _, _, _, _, _, _, _, _, _⟩ := h
  obtain ⟨_, _, _, _, _, _, _, _, _, _⟩ := other
  simp only at hmask hresize hshrink hnull he hd hcount
  rw [hmask, hresize, hshrink, hnull, he, hd, hcount]

/-! ## The two ways of copying -/

theorem Formed.copyConstruct_eq (hF : other.Formed) :
    other.copyConstruct =
      some (if other.bucketCount = 0 then blank other.emptyKey other.erasedKey else other) := by
  unfold copyConstruct
  split_ifs with h0
  · rfl
  · exact hF.uninitializedCopy_eq h0

theorem copyAssign_of_same (hs : SameSentinels other h) :
    h.copyAssign other = if other.bucketCount = 0 then some h.destory
      else if h.bucketCount = other.bucketCount then h.initializedCopy other
      else h.destory.uninitializedCopy other :=
  if_pos hs

theorem copyAssign_of_not_same (hs : ¬ SameSentinels other h) : h.copyAssign other = none :=
  if_neg hs

theorem copyAssign_of_zero (hs : SameSentinels other h) (h0 : other.bucketCount = 0) :
    h.copyAssign other = some h.destory := by
  rw [copyAssign_of_same hs, if_pos h0]

theorem Formed.copyAssign_of_pos (hF : other.Formed) (hFh : h.Formed) (hs : SameSentinels other h)
    (h0 : other.bucketCount ≠ 0) (hh : ¬ h.Hollow) : h.copyAssign other = some other := by
  rw [copyAssign_of_same hs, if_neg h0]
  by_cases hcount : h.bucketCount = other.bucketCount
  · rw [if_pos hcount]
    exact hF.initializedCopy_eq hFh hs h0 hcount
  · have hblank : h.destory = blank other.emptyKey other.erasedKey := by
      rw [← hs.1, ← hs.2]
      by_cases hzero : h.bucketCount = 0
      · rw [destory_of_zero hzero]
        exact hFh.eq_blank hzero hh
      · exact destory_of_pos hzero
    rw [if_neg hcount, hblank]
    exact hF.uninitializedCopy_eq h0

/-- A hollow table keeps its array, and the assertion of `UninitializedCopy` fails. -/
theorem Hollow.copyAssign (hh : h.Hollow) (h0 : other.bucketCount ≠ 0) :
    h.copyAssign other = none := by
  unfold LinearHashmap.copyAssign
  split_ifs with hs hcount
  · rw [hh.1] at hcount
    exact absurd hcount.symm h0
  · rw [destory_of_zero hh.1, uninitializedCopy, if_pos (Or.inr (by simp [hh.2]))]
  · rfl

/-- Assignment leaves the other table, the table itself, or no buckets. -/
theorem Formed.copyAssign_cases (hF : other.Formed) (hFh : h.Formed)
    (hc : h.copyAssign other = some t) :
    t = other ∨ t = h ∨ t = blank h.emptyKey h.erasedKey := by
  have hs : SameSentinels other h := by
    by_contra hne
    rw [copyAssign_of_not_same hne] at hc
    cases hc
  by_cases h0 : other.bucketCount = 0
  · rw [copyAssign_of_zero hs h0] at hc
    cases hc
    by_cases hzero : h.bucketCount = 0
    · exact Or.inr (Or.inl (destory_of_zero hzero))
    · exact Or.inr (Or.inr (destory_of_pos hzero))
  · by_cases hh : h.Hollow
    · rw [hh.copyAssign h0] at hc
      cases hc
    · rw [hF.copyAssign_of_pos hFh hs h0 hh] at hc
      cases hc
      exact Or.inl rfl

/-! ## Programs with ordinary keys -/

section

variable {P : LinearHashmap K V → Prop}

theorem Closed.emptied (hP : Closed F P) (hh : P h) : P (blank h.emptyKey h.erasedKey) :=
  hP.construct (n := 0) (if_neg (hP.formed hh).sentinels)

theorem Closed.destory (hP : Closed F P) (hh : P h) : P h.destory := by
  unfold LinearHashmap.destory
  split_ifs
  · exact hh
  · exact hP.emptied hh

end

end LinearHashmap

open LinearHashmap

variable {K V : Type} [DecidableEq K] [Inhabited V] {F : Functors K}
variable {P : LinearHashmap K V → Prop} {s s' : Objects K V} {x y z : ℕ} {a b c : LinearHashmap K V}

/-- The statement names no sentinel as a key. -/
def Statement.Keyed (s : Objects K V) : Statement K V → Prop
  | .call x op => ∀ h, s x = some h → ∀ key ∈ op.key?, h.isSentinel key = false
  | _ => True

instance (s : Objects K V) (st : Statement K V) : Decidable (st.Keyed s) :=
  match st with
  | .call x op => inferInstanceAs (Decidable (∀ h ∈ s x, ∀ key ∈ op.key?, h.isSentinel key = false))
  | .construct _ _ _ _ | .destruct _ | .eraseAt _ _ | .copyConstruct _ _ | .moveConstruct _ _
  | .copyAssign _ _ | .moveAssign _ _ | .swap _ _ => isTrue trivial

theorem LinearHashmap.Closed.step (hP : Closed F P) (hs : All P s) (st : Statement K V)
    (hk : st.Keyed s) (hst : st.apply F s = some s') : All P s' := by
  refine hs.step hst fun t ht => ?_
  cases st with
  | construct x n e d => exact hP.construct ht
  | destruct x => exact ht.elim
  | call x op =>
    obtain ⟨h, hx, ht⟩ := ht
    exact (hP.apply (hs x h hx) op (hk h hx) ht).1
  | eraseAt x index =>
    obtain ⟨h, hx, ht⟩ := ht
    exact (hP.delete (hs x h hx) ht).1
  | copyConstruct x y =>
    obtain ⟨other, hy, ht⟩ := ht
    have hother := hs y other hy
    rw [(hP.formed hother).copyConstruct_eq] at ht
    cases ht
    split_ifs
    · exact hP.emptied hother
    · exact hother
  | moveConstruct x y =>
    obtain ⟨other, hy, rfl | rfl⟩ := ht
    · exact hs y _ hy
    · exact hP.emptied (hs y _ hy)
  | copyAssign x y =>
    obtain ⟨h, other, hx, hy, ht⟩ := ht
    have hh := hs x h hx
    have hother := hs y other hy
    obtain rfl | rfl | rfl := (hP.formed hother).copyAssign_cases (hP.formed hh) ht
    · exact hother
    · exact hh
    · exact hP.emptied hh
  | moveAssign x y =>
    obtain ⟨h, other, h', other', hx, hy, hh', ht⟩ := ht
    unfold moveAssign swap at hh'
    split_ifs at hh'
    cases hh'
    obtain rfl | rfl := ht
    · exact hs y _ hy
    · exact hP.destory (hs x h hx)
  | swap x y =>
    obtain ⟨h, other, h', other', hx, hy, hh', ht⟩ := ht
    unfold LinearHashmap.swap at hh'
    split_ifs at hh'
    cases hh'
    obtain rfl | rfl := ht
    · exact hs y _ hy
    · exact hs x _ hx

/-- **What holds of every table holds of every map of a program** that uses ordinary keys. -/
theorem LinearHashmap.Closed.reach (hP : Closed F P)
    (hs : (objects K V F).Reach Statement.Keyed s) : All P s :=
  hs.invariant (fun _ _ hx => by cases hx) fun _ st _ ih hk hst => hP.step ih st hk hst

/-! ## Copies are as good as what they copy -/

namespace LinearHashmap

/-- What a program may do to a map later; `other` is another map. -/
inductive Later (K V : Type) where
  | call (op : MapOp K V)
  | eraseAt (index : ℕ)
  | copyAssign (other : LinearHashmap K V)
  | moveAssign (other : LinearHashmap K V)
  | swap (other : LinearHashmap K V)

def Later.apply (F : Functors K) (h : LinearHashmap K V) : Later K V → Option (LinearHashmap K V)
  | .call op => op.apply F h
  | .eraseAt index => h.delete F index
  | .copyAssign other => h.copyAssign other
  | .moveAssign other => (h.moveAssign other).map Prod.fst
  | .swap other => (h.swap other).map Prod.fst

/-- What a map shows. -/
structure View (K V : Type) where
  bucketCount : ℕ
  size : ℕ
  find : K → Option (Option (K × Option V))
  count : K → Option ℕ
  traverse : List (K × Option V)

def view (F : Functors K) (h : LinearHashmap K V) : View K V :=
  ⟨h.bucketCount, h.size, h.find F, h.count F, h.traverse⟩

/-- What the map shows after a sequence of operations. -/
def results (F : Functors K) (h : LinearHashmap K V) (ops : List (Later K V)) :
    Option (View K V) :=
  (ops.foldlM (Later.apply F) h).map (view F)

/-- The map `c` is a copy of `b`. -/
structure IsCopy (F : Functors K) (b c : LinearHashmap K V) : Prop where
  /-- If `b` has buckets. -/
  fields : b.bucketCount ≠ 0 → c.bucketCount = b.bucketCount ∧ c.resizeCount = b.resizeCount ∧
    c.shrinkCount = b.shrinkCount ∧ c.mask = b.mask ∧ c.size = b.size ∧ c.used = b.used ∧
    (∀ i, c.keyAt i = b.keyAt i) ∧ ∀ i, b.existsAt i = true → c.valueAt i = b.valueAt i
  /-- If `b` has none. -/
  empty : b.bucketCount = 0 → c.bucketCount = 0 ∧ c.buckets = [] ∧ c.size = 0 ∧ c.used = 0
  later : ∀ ops, results F c ops = results F b ops

theorem Formed.isCopy_self (hF : b.Formed) : IsCopy F b b where
  fields _ := ⟨rfl, rfl, rfl, rfl, rfl, rfl, fun _ => rfl, fun _ _ => rfl⟩
  empty h0 := ⟨h0, hF.buckets_eq_nil h0, hF.counts_zero h0⟩
  later _ := rfl

/-- A hollow map and one that is not are told apart by assigning to them. -/
theorem IsCopy.hollow_iff (hc : IsCopy F b c) (hFb : b.Formed) (hFc : c.Formed)
    (hs : SameSentinels b c) : c.Hollow ↔ b.Hollow := by
  let source := (blank b.emptyKey b.erasedKey : LinearHashmap K V).firstResize 8
  have hsource : source.Formed := Formed.firstResize hFb.sentinels ⟨rfl, rfl⟩ (by decide)
  have hpos : source.bucketCount ≠ 0 := by
    show 8 ≠ 0
    decide
  have hresults : (c.copyAssign source).isSome = (b.copyAssign source).isSome := by
    have hlater := congrArg Option.isSome (hc.later [.copyAssign source])
    simpa [results, Later.apply] using hlater
  have hcopied : ∀ h : LinearHashmap K V, h.Formed → SameSentinels b h →
      ((h.copyAssign source).isSome = true ↔ ¬ h.Hollow) := by
    intro h hF hs
    by_cases hh : h.Hollow
    · rw [hh.copyAssign hpos]
      simp [hh]
    · rw [hsource.copyAssign_of_pos hF hs hpos hh]
      simp [hh]
  have hiff : (¬ c.Hollow) ↔ ¬ b.Hollow := by
    rw [← hcopied c hFc hs, ← hcopied b hFb ⟨rfl, rfl⟩, hresults]
  exact not_iff_not.1 hiff

end LinearHashmap

/-- What `a = b` does. -/
theorem exists_copyAssign_iff (hx : s x = some a) (hy : s y = some b)
    {Q : LinearHashmap K V → Prop} :
    (∃ s' c, (Statement.copyAssign x y).apply F s = some s' ∧ s' x = some c ∧ s' y = some b ∧
      Q c) ↔ x = y ∧ Q b ∨ x ≠ y ∧ ∃ c, a.copyAssign b = some c ∧ Q c := by
  by_cases hxy : x = y
  · subst hxy
    obtain rfl := Option.some.inj (hx.symm.trans hy)
    simp [Statement.apply, hx]
  · simp [Statement.apply, hxy, hx, hy, Function.update_of_ne (Ne.symm hxy)]

/-- What the construction of a map from `b` does. -/
theorem exists_copyConstruct_iff (hy : s y = some b) (hz : s z = none) (hF : b.Formed)
    {Q : LinearHashmap K V → Prop} :
    (∃ s' c, (Statement.copyConstruct z y).apply F s = some s' ∧ s' z = some c ∧ s' y = some b ∧
      Q c) ↔ Q (if b.bucketCount = 0 then blank b.emptyKey b.erasedKey else b) := by
  have hzy : y ≠ z := by
    intro heq
    rw [heq, hz] at hy
    cases hy
  simp [Statement.apply, hz, hy, hF.copyConstruct_eq, Function.update_of_ne hzy]

/-- **Copies are as good as what they copy**, exactly if neither map is hollow. In every program
with ordinary keys, for all maps `a` and `b` with the same sentinels: the assignment `a = b` and
the construction of a map `z` from `b` both return, leave `b` as it is, and give a map with its
counts, thresholds, mask and counters, the key of each bucket and the value of each existing one,
or no buckets if `b` has none, so that everything done to it later shows the same as on `b`. -/
theorem copies_iff (hs : (objects K V F).Reach Statement.Keyed s) (hx : s x = some a)
    (hy : s y = some b) (hz : s z = none) (hab : SameSentinels b a) :
    ((∃ s' c, (Statement.copyAssign x y).apply F s = some s' ∧ s' x = some c ∧ s' y = some b ∧
        IsCopy F b c) ∧
      ∃ s' c, (Statement.copyConstruct z y).apply F s = some s' ∧ s' z = some c ∧ s' y = some b ∧
        IsCopy F b c) ↔ ¬ a.Hollow ∧ ¬ b.Hollow := by
  have hF := (closed_formed F).reach hs
  have hFa := hF x a hx
  have hFb := hF y b hy
  rw [exists_copyAssign_iff hx hy, exists_copyConstruct_iff hy hz hFb]
  constructor
  · rintro ⟨hassign, hconstruct⟩
    have hb : ¬ b.Hollow := by
      by_cases h0 : b.bucketCount = 0
      · rw [if_pos h0] at hconstruct
        rw [← hconstruct.hollow_iff hFb (formed_blank hFb.sentinels) ⟨rfl, rfl⟩]
        exact fun hh => by cases hh.2
      · exact fun hh => h0 hh.1
    refine ⟨fun ha => ?_, hb⟩
    obtain ⟨rfl, -⟩ | ⟨-, c, hc, hcopy⟩ := hassign
    · exact hb (Option.some.inj (hx.symm.trans hy) ▸ ha)
    · by_cases h0 : b.bucketCount = 0
      · -- `Destory` has returned early, and the map is as hollow as before
        rw [copyAssign_of_zero hab h0, destory_of_zero ha.1] at hc
        cases hc
        exact hb ((hcopy.hollow_iff hFb hFa hab).1 ha)
      · rw [ha.copyAssign h0] at hc
        cases hc
  · rintro ⟨ha, hb⟩
    -- what the assignment leaves is `b` itself, also where it goes through `Destory`
    have hself : IsCopy F b b := hFb.isCopy_self
    by_cases h0 : b.bucketCount = 0
    · have hblank := hFb.eq_blank h0 hb
      have hdestory : a.destory = b := by
        rw [hblank, ← hab.1, ← hab.2]
        by_cases hzero : a.bucketCount = 0
        · rw [destory_of_zero hzero]
          exact hFa.eq_blank hzero ha
        · exact destory_of_pos hzero
      rw [if_pos h0, ← hblank]
      refine ⟨?_, hself⟩
      by_cases hxy : x = y
      · exact Or.inl ⟨hxy, hself⟩
      · exact Or.inr ⟨hxy, b, by rw [copyAssign_of_zero hab h0, hdestory], hself⟩
    · rw [if_neg h0]
      refine ⟨?_, hself⟩
      by_cases hxy : x = y
      · exact Or.inl ⟨hxy, hself⟩
      · exact Or.inr ⟨hxy, b, hFb.copyAssign_of_pos hFa hab h0 ha, hself⟩

/-- Map 1 has the keys `9` and `2`, and a tombstone in the bucket that `9` probes first; map 0 has a
key too. -/
def usedMaps : List (Statement ℕ ℕ) :=
  [.construct 0 16 100 101, .construct 1 8 100 101, .call 0 (.insert 5 50), .call 1 (.insert 1 10),
    .call 1 (.insert 9 90), .call 1 (.insert 2 20), .call 1 (.erase 1)]

/-- Map 1 can be assigned to map 0, with its tombstone, and finds `9` behind it in both. -/
theorem copies_iff_tombstone :
    ∃ (s s' : Objects ℕ ℕ) (b c : LinearHashmap ℕ ℕ),
      (objects ℕ ℕ (equalTo id)).Reach Statement.Keyed s ∧ s 1 = some b ∧ b.deletedAt 1 = true ∧
      b.keyAt 2 = 9 ∧ b.size = 2 ∧ (Statement.copyAssign 0 1).apply (equalTo id) s = some s' ∧
      s' 0 = some c ∧ IsCopy (equalTo id) b c ∧ c.bucketCount = 8 ∧ c.keyAt 2 = 9 ∧
      c.deletedAt 1 = true := by
  have hs := (objects ℕ ℕ (equalTo id)).reach_of_run Statement.Keyed usedMaps rfl
  have hcopies := (copies_iff hs (x := 0) (y := 1) (z := 2) rfl rfl rfl ⟨rfl, rfl⟩).2
    ⟨fun hh => absurd hh.1 (by decide), fun hh => absurd hh.1 (by decide)⟩
  obtain ⟨s', c, hassign, hc, -, hcopy⟩ := hcopies.1
  obtain ⟨hcount, -, -, -, -, -, hkeys, -⟩ := hcopy.fields (by decide)
  cases hassign
  cases hc
  exact ⟨_, _, _, _, hs, rfl, rfl, rfl, rfl, rfl, rfl, hcopy, hcount, hkeys 2, rfl⟩

/-- The maps of the program that constructs map 0 for `n` elements and map 1 for eight. -/
def twoMaps (n : ℕ) : Objects ℕ ℕ :=
  Function.update (Function.update (fun _ => none) 0
    (some ((blank 100 101).firstResize (nextPowTwo n)))) 1 (some ((blank 100 101).firstResize 8))

theorem reach_twoMaps {n : ℕ} (hn : n ≠ 0) :
    (objects ℕ ℕ (equalTo id)).Reach Statement.Keyed (twoMaps n) := by
  have hmade : construct n 100 101 =
      some ((blank 100 101 : LinearHashmap ℕ ℕ).firstResize (nextPowTwo n)) :=
    construct_eq hn (by decide)
  have hfirst : (objects ℕ ℕ (equalTo id)).Reach Statement.Keyed (Function.update (fun _ => none) 0
      (some ((blank 100 101).firstResize (nextPowTwo n)))) := by
    refine .step (a := .construct 0 n 100 101) .init trivial ?_
    show (construct n 100 101).map _ = _
    rw [hmade]
    rfl
  exact .step (a := .construct 1 8 100 101) hfirst trivial rfl

/-- **A request of `2 ^ 31 + 1` elements gives a map that cannot be assigned to**: it has no
buckets, and the assertion of `UninitializedCopy` finds its array. -/
theorem not_copyAssign_hollow :
    (objects ℕ ℕ (equalTo id)).Reach Statement.Keyed (twoMaps (2 ^ 31 + 1)) ∧
      (∃ a, twoMaps (2 ^ 31 + 1) 0 = some a ∧ a.bucketCount = 0 ∧ a.isNull = false) ∧
      (∃ b, twoMaps (2 ^ 31 + 1) 1 = some b ∧ b.bucketCount = 8) ∧
      (Statement.copyAssign 0 1).apply (equalTo id) (twoMaps (2 ^ 31 + 1)) = none :=
  ⟨reach_twoMaps (by decide), ⟨_, rfl, by decide, rfl⟩, ⟨_, rfl, rfl⟩, rfl⟩

end Naesala
