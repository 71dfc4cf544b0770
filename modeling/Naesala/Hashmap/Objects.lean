import Naesala.Library.Machine
import Naesala.Hashmap.Operations

/-!
# Programs with any number of maps

`Objects` is the maps a program has constructed, by name, and `objects F` the machine whose
actions are the public operations: construction from a bucket count, calls on one map, erasing
at an iterator, and copies, moves and swaps between maps. A failed `assert` ends the run.

**Theorem (`probes_end`).** In every run that keeps bucket counts at or below `2 ^ 30`, with
arbitrary keys and an arbitrary `Pred`, every map satisfies the counter invariant, so it has an
empty bucket and the loops of `Get` and `Set` exit within `bucket_count_` tests for every key.

Copies go through `Counters.of_keys`: the counters depend on the keys of the buckets only.
-/

namespace Naesala

namespace LinearHashmap

variable {K V : Type} [DecidableEq K] {F : Functors K} {h h' t source : LinearHashmap K V}

/-! ## Copies and moves -/

/-- Two tables with the same keys and counters, and mapped objects where needed, agree on the
counter invariant. -/
theorem Counters.of_keys (hC : source.Counters) (he : t.emptyKey = source.emptyKey)
    (hd : t.erasedKey = source.erasedKey) (hk : t.keys = source.keys)
    (hb : t.bucketCount = source.bucketCount) (hr : t.resizeCount = source.resizeCount)
    (hs : t.shrinkCount = source.shrinkCount) (hm : t.bucketCount ≠ 0 → t.mask = source.mask)
    (hsize : t.size = source.size) (hused : t.used = source.used)
    (hcon : ∀ b ∈ t.buckets, t.isSentinel b.first = false → b.second.isSome) : t.Counters := by
  have hsent : t.isSentinel = source.isSentinel := by
    funext k
    simp [isSentinel, he, hd]
  refine ⟨by rw [he, hd]; exact hC.sentinels, by rw [hb]; exact hC.pow, ?_, fun h0 => ?_,
    by rw [hr, hb]; exact hC.resizeCount, by rw [hs, hb]; exact hC.shrinkCount, ?_,
    by rw [hused, hr]; exact hC.used_le, ?_, hcon⟩
  · rw [← length_keys, hk, length_keys, hb]
    exact hC.length
  · rw [hm h0, hb]
    exact hC.mask (by rwa [← hb])
  · rw [nonEmptyCount, hk, he, hused]
    exact hC.nonEmpty_le
  · rw [existsCount, hk, hsent, hsize]
    exact hC.exists_le

theorem counters_blank {e d : K} (hed : e ≠ d) : (blank e d : LinearHashmap K V).Counters :=
  ⟨hed, fun h => absurd rfl h, rfl, fun h => absurd rfl h, rfl, rfl, le_rfl, le_rfl, le_rfl,
    fun _ hb => absurd hb List.not_mem_nil⟩

theorem Counters.destory (hC : h.Counters) : h.destory.Counters := by
  unfold LinearHashmap.destory
  split_ifs
  · exact hC
  · exact counters_blank hC.sentinels

omit [DecidableEq K] in
theorem sentinels_destory (h : LinearHashmap K V) :
    h.destory.emptyKey = h.emptyKey ∧ h.destory.erasedKey = h.erasedKey := by
  unfold LinearHashmap.destory
  split_ifs <;> exact ⟨rfl, rfl⟩

theorem Counters.uninitializedCopy (hC : source.Counters)
    (hs : h.emptyKey = source.emptyKey ∧ h.erasedKey = source.erasedKey)
    (ht : h.uninitializedCopy source = some t) : t.Counters := by
  unfold LinearHashmap.uninitializedCopy at ht
  split_ifs at ht
  cases ht
  have hsent : ∀ k, h.isSentinel k = source.isSentinel k := fun k => by
    simp [isSentinel, hs.1, hs.2]
  refine hC.of_keys hs.1 hs.2 ?_ rfl rfl rfl (fun h0 => ?_) rfl rfl fun b hb hb' => ?_
  · simp [keys, copyBucket]
  · have hle := hC.bucketCount_le
    have hpos : source.bucketCount ≠ 0 := h0
    rw [hC.mask hpos]
    show (source.bucketCount + (2 ^ 64 - 1)) % 2 ^ 64 = _
    omega
  · obtain ⟨b₀, hmem, rfl⟩ := List.mem_map.1 hb
    have hb₀ : h.isSentinel b₀.first = false := hb'
    rw [copyBucket, if_neg (by simp [hb₀])]
    exact hC.constructed b₀ hmem (by rw [← hsent]; exact hb₀)

theorem map_first_zipWith (h : LinearHashmap K V) (bs ss : List (Bucket K V))
    (hlen : bs.length = ss.length) :
    (List.zipWith h.assignBucket bs ss).map Bucket.first = ss.map Bucket.first := by
  induction bs generalizing ss with
  | nil =>
    cases ss with
    | nil => rfl
    | cons s ss => simp at hlen
  | cons b bs ih =>
    cases ss with
    | nil => simp at hlen
    | cons s ss =>
      have hfirst : (h.assignBucket b s).first = s.first := by
        by_cases hbs : s.first = b.first
        · rw [assignBucket, if_pos hbs]
          exact hbs.symm
        · rw [assignBucket, if_neg hbs]
      rw [List.zipWith_cons_cons, List.map_cons, List.map_cons, hfirst,
        ih ss (by simpa using hlen)]

theorem exists_of_mem_zipWith {bs ss : List (Bucket K V)} {b : Bucket K V}
    (hb : b ∈ List.zipWith h.assignBucket bs ss) :
    ∃ b₀, ∃ s ∈ ss, b = h.assignBucket b₀ s := by
  obtain ⟨i, hi, rfl⟩ := List.getElem_of_mem hb
  rw [List.length_zipWith] at hi
  exact ⟨bs[i], ss[i], List.getElem_mem _, List.getElem_zipWith⟩

theorem Counters.initializedCopy (hC : source.Counters) (hCh : h.Counters)
    (hs : h.emptyKey = source.emptyKey ∧ h.erasedKey = source.erasedKey)
    (ht : h.initializedCopy source = some t) : t.Counters := by
  unfold LinearHashmap.initializedCopy at ht
  split_ifs at ht with hcount
  cases ht
  have hb : h.bucketCount = source.bucketCount := (not_not.1 hcount).symm
  have hsent : ∀ k, h.isSentinel k = source.isSentinel k := fun k => by
    simp [isSentinel, hs.1, hs.2]
  refine hC.of_keys hs.1 hs.2 ?_ hb ?_ ?_ (fun h0 => ?_) rfl rfl fun b hbm hb' => ?_
  · exact map_first_zipWith h _ _ (by rw [hCh.length, hC.length, hb])
  · show h.resizeCount = _
    rw [hCh.resizeCount, hC.resizeCount, hb]
  · show h.shrinkCount = _
    rw [hCh.shrinkCount, hC.shrinkCount, hb]
  · have h0' : h.bucketCount ≠ 0 := h0
    show h.mask = _
    rw [hCh.mask h0', hC.mask (by rwa [← hb]), hb]
  · obtain ⟨b₀, s, hmem, rfl⟩ := exists_of_mem_zipWith hbm
    have hb'' : h.isSentinel (h.assignBucket b₀ s).first = false := hb'
    unfold assignBucket at hb'' ⊢
    split_ifs at hb'' ⊢ with heq hsent₀ hsent₁
    · exact absurd hsent₀ (by simp [hb''])
    · exact hC.constructed s hmem (by rw [← hsent, heq]; exact hb'')
    · exact absurd hsent₁ (by simp [hb''])
    · exact hC.constructed s hmem (by rw [← hsent]; exact hb'')

theorem Counters.copyConstruct (hC : source.Counters) (ht : source.copyConstruct = some t) :
    t.Counters := by
  unfold LinearHashmap.copyConstruct at ht
  split_ifs at ht with h0
  · cases ht
    exact counters_blank hC.sentinels
  · exact hC.uninitializedCopy (h := blank source.emptyKey source.erasedKey) ⟨rfl, rfl⟩ ht

theorem Counters.copyAssign (hC : source.Counters) (hCh : h.Counters)
    (ht : h.copyAssign source = some t) : t.Counters := by
  unfold LinearHashmap.copyAssign at ht
  split_ifs at ht with hs h0 hcount
  · cases ht
    exact hCh.destory
  · exact hC.initializedCopy hCh hs ht
  · refine hC.uninitializedCopy ?_ ht
    rw [(sentinels_destory h).1, (sentinels_destory h).2]
    exact hs

theorem Counters.swap {u v : LinearHashmap K V} (hC : h.Counters) (hC' : h'.Counters)
    (ht : h.swap h' = some (u, v)) : u.Counters ∧ v.Counters := by
  unfold LinearHashmap.swap at ht
  split_ifs at ht
  cases ht
  exact ⟨hC', hC⟩

theorem Counters.moveAssign {u v : LinearHashmap K V} (hC : source.Counters) (hCh : h.Counters)
    (ht : h.moveAssign source = some (u, v)) : u.Counters ∧ v.Counters := by
  unfold LinearHashmap.moveAssign at ht
  split_ifs at ht
  exact hCh.destory.swap hC ht

end LinearHashmap

/-! ## Runs -/

open LinearHashmap

/-- The maps a program has, by name. -/
abbrev Objects (K V : Type) := ℕ → Option (LinearHashmap K V)

/-- A statement of a program; `x` and `y` name maps. -/
inductive Statement (K V : Type) where
  | construct (x initBucketCount : ℕ) (emptyKey erasedKey : K)
  | destruct (x : ℕ)
  | call (x : ℕ) (op : MapOp K V)
  | eraseAt (x index : ℕ)
  | copyConstruct (x y : ℕ)
  | moveConstruct (x y : ℕ)
  | copyAssign (x y : ℕ)
  | moveAssign (x y : ℕ)
  | swap (x y : ℕ)

variable {K V : Type} [DecidableEq K] [Inhabited V]

/-- Perform a statement. Constructors take a name not in use; assigning or swapping a map with
itself does nothing. -/
def Statement.apply (F : Functors K) (s : Objects K V) : Statement K V → Option (Objects K V)
  | .construct x n e d =>
    if (s x).isSome then none
    else (LinearHashmap.construct n e d).map fun h => Function.update s x (some h)
  | .destruct x => (s x).map fun _ => Function.update s x none
  | .call x op => (s x).bind fun h => (op.apply F h).map fun h' => Function.update s x (some h')
  | .eraseAt x index =>
    (s x).bind fun h => (h.delete F index).map fun h' => Function.update s x (some h')
  | .copyConstruct x y =>
    if (s x).isSome then none
    else (s y).bind fun other => other.copyConstruct.map fun h => Function.update s x (some h)
  | .moveConstruct x y =>
    if (s x).isSome then none
    else (s y).map fun other =>
      Function.update (Function.update s x (some other.moveConstruct.1)) y
        (some other.moveConstruct.2)
  | .copyAssign x y =>
    if x = y then some s
    else (s x).bind fun h => (s y).bind fun other =>
      (h.copyAssign other).map fun h' => Function.update s x (some h')
  | .moveAssign x y =>
    if x = y then some s
    else (s x).bind fun h => (s y).bind fun other =>
      (h.moveAssign other).map fun (h', other') =>
        Function.update (Function.update s x (some h')) y (some other')
  | .swap x y =>
    if x = y then some s
    else (s x).bind fun h => (s y).bind fun other =>
      (h.swap other).map fun (h', other') =>
        Function.update (Function.update s x (some h')) y (some other')

/-- The machine of programs with maps. -/
def objects (K V : Type) [DecidableEq K] [Inhabited V] (F : Functors K) :
    Machine (Objects K V) (Statement K V) where
  init := fun _ => none
  step := Statement.apply F

/-- No statement asks for more than `2 ^ 30` buckets. -/
def Statement.Within (s : Objects K V) : Statement K V → Prop
  | .construct _ n _ _ => nextPowTwo n ≤ 2 ^ 30
  | .call x op => ∀ h, s x = some h → op.Within h
  | _ => True

instance (s : Objects K V) (st : Statement K V) : Decidable (st.Within s) :=
  match st with
  | .construct _ n _ _ => inferInstanceAs (Decidable (nextPowTwo n ≤ 2 ^ 30))
  | .call x op => inferInstanceAs (Decidable (∀ h ∈ s x, op.Within h))
  | .destruct _ | .eraseAt _ _ | .copyConstruct _ _ | .moveConstruct _ _ | .copyAssign _ _
  | .moveAssign _ _ | .swap _ _ => isTrue trivial

/-- The maps that a statement makes of those there are. -/
def Statement.Makes (F : Functors K) (s : Objects K V) (t : LinearHashmap K V) :
    Statement K V → Prop
  | .construct _ n e d => LinearHashmap.construct n e d = some t
  | .destruct _ => False
  | .call x op => ∃ h, s x = some h ∧ op.apply F h = some t
  | .eraseAt x index => ∃ h, s x = some h ∧ h.delete F index = some t
  | .copyConstruct _ y => ∃ other, s y = some other ∧ other.copyConstruct = some t
  | .moveConstruct _ y =>
    ∃ other, s y = some other ∧ (t = other.moveConstruct.1 ∨ t = other.moveConstruct.2)
  | .copyAssign x y =>
    ∃ h other, s x = some h ∧ s y = some other ∧ h.copyAssign other = some t
  | .moveAssign x y => ∃ h other h' other', s x = some h ∧ s y = some other ∧
    h.moveAssign other = some (h', other') ∧ (t = h' ∨ t = other')
  | .swap x y => ∃ h other h' other', s x = some h ∧ s y = some other ∧
    h.swap other = some (h', other') ∧ (t = h' ∨ t = other')

/-- Every map of the program has the property. -/
def All (P : LinearHashmap K V → Prop) (s : Objects K V) : Prop := ∀ x h, s x = some h → P h

section

variable {F : Functors K} {P : LinearHashmap K V → Prop} {s s' : Objects K V} {x : ℕ}

omit [DecidableEq K] [Inhabited V] in
theorem All.update (hs : All P s) {o : Option (LinearHashmap K V)} (ho : ∀ h ∈ o, P h) :
    All P (Function.update s x o) := by
  intro y h hy
  by_cases hyx : y = x
  · subst hyx
    rw [Function.update_self] at hy
    exact ho h hy
  · rw [Function.update_of_ne hyx] at hy
    exact hs y h hy

omit [DecidableEq K] [Inhabited V] in
theorem All.update_some (hs : All P s) {a : LinearHashmap K V} (ha : P a) :
    All P (Function.update s x (some a)) :=
  hs.update fun _ hh => Option.some.inj hh ▸ ha

/-- A statement changes no map but those that it makes. -/
theorem All.step (hs : All P s) {a : Statement K V} (hst : a.apply F s = some s')
    (hmade : ∀ t, a.Makes F s t → P t) : All P s' := by
  cases a with
  | construct x n e d =>
    simp only [Statement.apply] at hst
    split_ifs at hst
    obtain ⟨h, hh, rfl⟩ := Option.map_eq_some_iff.1 hst
    exact hs.update_some (hmade h hh)
  | destruct x =>
    obtain ⟨h, -, rfl⟩ := Option.map_eq_some_iff.1 hst
    exact hs.update fun _ hh => by cases hh
  | call x op =>
    obtain ⟨h, hx, hst⟩ := Option.bind_eq_some_iff.1 hst
    obtain ⟨t, ht, rfl⟩ := Option.map_eq_some_iff.1 hst
    exact hs.update_some (hmade t ⟨h, hx, ht⟩)
  | eraseAt x index =>
    obtain ⟨h, hx, hst⟩ := Option.bind_eq_some_iff.1 hst
    obtain ⟨t, ht, rfl⟩ := Option.map_eq_some_iff.1 hst
    exact hs.update_some (hmade t ⟨h, hx, ht⟩)
  | copyConstruct x y =>
    simp only [Statement.apply] at hst
    split_ifs at hst
    obtain ⟨other, hy, hst⟩ := Option.bind_eq_some_iff.1 hst
    obtain ⟨t, ht, rfl⟩ := Option.map_eq_some_iff.1 hst
    exact hs.update_some (hmade t ⟨other, hy, ht⟩)
  | moveConstruct x y =>
    simp only [Statement.apply] at hst
    split_ifs at hst
    obtain ⟨other, hy, rfl⟩ := Option.map_eq_some_iff.1 hst
    exact (hs.update_some (x := x) (hmade _ ⟨other, hy, .inl rfl⟩)).update_some
      (hmade _ ⟨other, hy, .inr rfl⟩)
  | copyAssign x y =>
    simp only [Statement.apply] at hst
    split_ifs at hst
    · cases hst; exact hs
    obtain ⟨h, hx, hst⟩ := Option.bind_eq_some_iff.1 hst
    obtain ⟨other, hy, hst⟩ := Option.bind_eq_some_iff.1 hst
    obtain ⟨t, ht, rfl⟩ := Option.map_eq_some_iff.1 hst
    exact hs.update_some (hmade t ⟨h, other, hx, hy, ht⟩)
  | moveAssign x y | swap x y =>
    simp only [Statement.apply] at hst
    split_ifs at hst
    · cases hst; exact hs
    obtain ⟨h, hx, hst⟩ := Option.bind_eq_some_iff.1 hst
    obtain ⟨other, hy, hst⟩ := Option.bind_eq_some_iff.1 hst
    obtain ⟨⟨h', other'⟩, hh', rfl⟩ := Option.map_eq_some_iff.1 hst
    have hP := hmade h' ⟨h, other, h', other', hx, hy, hh', .inl rfl⟩
    have hP' := hmade other' ⟨h, other, h', other', hx, hy, hh', .inr rfl⟩
    exact (hs.update_some (x := x) hP).update_some hP'

end

/-- Every map of the program satisfies the counter invariant. -/
def AllCounters (s : Objects K V) : Prop := ∀ x h, s x = some h → h.Counters

theorem AllCounters.step {F : Functors K} {s s' : Objects K V} (a : Statement K V)
    (hs : AllCounters s) (hin : a.Within s) (hst : a.apply F s = some s') : AllCounters s' := by
  refine All.step (P := Counters) hs hst fun t ht => ?_
  cases a with
  | construct x n e d => exact counters_construct hin ht
  | destruct x => exact ht.elim
  | call x op =>
    obtain ⟨h, hx, ht⟩ := ht
    obtain ⟨h', hh', hC⟩ := (hs x h hx).apply (F := F) op (hin h hx)
    rw [ht] at hh'
    cases hh'
    exact hC
  | eraseAt x index =>
    obtain ⟨h, hx, ht⟩ := ht
    obtain ⟨h', hh', hC, -⟩ := delete_spec F (hs x h hx) index
    rw [ht] at hh'
    cases hh'
    exact hC
  | copyConstruct x y =>
    obtain ⟨other, hy, ht⟩ := ht
    exact (hs y other hy).copyConstruct ht
  | moveConstruct x y =>
    obtain ⟨other, hy, rfl | rfl⟩ := ht
    · exact hs y _ hy
    · exact counters_blank (hs y _ hy).sentinels
  | copyAssign x y =>
    obtain ⟨h, other, hx, hy, ht⟩ := ht
    exact (hs y other hy).copyAssign (hs x h hx) ht
  | moveAssign x y =>
    obtain ⟨h, other, h', other', hx, hy, hh', ht⟩ := ht
    obtain ⟨hC, hC'⟩ := (hs y other hy).moveAssign (hs x h hx) hh'
    obtain rfl | rfl := ht
    · exact hC
    · exact hC'
  | swap x y =>
    obtain ⟨h, other, h', other', hx, hy, hh', ht⟩ := ht
    obtain ⟨hC, hC'⟩ := (hs x h hx).swap (hs y other hy) hh'
    obtain rfl | rfl := ht
    · exact hC
    · exact hC'

theorem AllCounters.reach {F : Functors K} {s : Objects K V}
    (hs : (objects K V F).Reach Statement.Within s) : AllCounters s :=
  hs.invariant (fun x h hx => absurd hx (by simp [objects]))
    fun _ a _ hs hin hst => hs.step a hin hst

/-- **The counters, and the end of every probe.** In every run that keeps bucket counts at or
below `2 ^ 30`, in every map: the bucket count is a power of two with its mask and thresholds,
the buckets that are not empty number at most `used_`, and `used_` at most `resize_count_`,
which is below the bucket count; so a bucket is empty, and the loops of `Get` and of `Set`, in
the table it probes, exit within one turn for every key. -/
theorem probes_end {F : Functors K} {s : Objects K V}
    (hs : (objects K V F).Reach Statement.Within s) {x : ℕ} {h : LinearHashmap K V}
    (hx : s x = some h) :
    (h.bucketCount ≠ 0 →
      (∃ j ≤ 30, h.bucketCount = 2 ^ j) ∧ h.mask = h.bucketCount - 1 ∧
      h.resizeCount = resizeCountOf h.bucketCount kLoadFactor ∧
      h.shrinkCount = resizeCountOf h.bucketCount kShrinkFactor ∧
      h.nonEmptyCount ≤ h.used ∧ h.used ≤ h.resizeCount ∧ h.resizeCount < h.bucketCount ∧
      (∃ e < h.bucketCount, h.emptyAt e = true) ∧
      (∀ key, (scan (h.getCont F key) h.next h.bucketCount (F.hasher key &&& h.mask)).isSome) ∧
      ∀ key, (scan (h.setCont F key) h.next h.bucketCount (F.hasher key &&& h.mask)).isSome) ∧
    (∀ key, (h.get F key).isSome) ∧
    (h.Within → ∀ key value displace, ∃ t,
      expandWith (setNested F (maxNesting - 1)) h = some t ∧
      (scan (t.setCont F key) t.next t.bucketCount (F.hasher key &&& t.mask)).isSome ∧
      (h.set F key value displace).isSome) := by
  have hC := AllCounters.reach hs x h hx
  refine ⟨fun h0 => ⟨hC.pow h0, hC.mask h0, hC.resizeCount, hC.shrinkCount, hC.nonEmpty_le,
    hC.used_le, hC.resizeCount_lt h0, ?_, fun key => ?_, fun key => ?_⟩, fun key => ?_,
    fun hin key value displace => ?_⟩
  · obtain ⟨e, he, hempty⟩ := hC.exists_empty h0
    exact ⟨e, he, decide_eq_true hempty⟩
  · obtain ⟨i, hend⟩ := hC.exists_getEnd (F := F) h0 key
    rw [(hC.scan_iff h0).2 hend]
    rfl
  · obtain ⟨i, hend⟩ := hC.exists_setEnd (F := F) h0 key
    rw [(hC.scan_iff h0).2 hend]
    rfl
  · rcases get_spec F hC key with ⟨-, hget⟩ | ⟨-, i, -, hget⟩ <;> rw [hget] <;> rfl
  · obtain ⟨t, ht, -, hCt, hroom⟩ := hC.expandWith (F := F) hin 62
    have h0 := hCt.bucketCount_ne_zero hroom
    obtain ⟨i, hend⟩ := hCt.exists_setEnd (F := F) h0 key
    obtain ⟨h', j, hset, -⟩ := hC.set (F := F) hin key value displace
    refine ⟨t, ht, ?_, by rw [hset]; rfl⟩
    rw [(hCt.scan_iff h0).2 hend]
    rfl

/-- A map is made for three elements and gets seven, so it has grown from four buckets to sixteen;
then one is erased and leaves a tombstone. -/
def grownMap : List (Statement ℕ ℕ) :=
  .construct 0 3 100 101 ::
    [.insert 1 10, .insert 17 20, .insert 33 30, .insert 4 40, .insert 5 50, .insert 6 60,
      .insert 7 70, .erase 17].map (.call 0)

/-- Three keys in one chain, with the tombstone in the middle: every probe ends. -/
theorem probes_end_grown :
    ∃ (s : Objects ℕ ℕ) (h : LinearHashmap ℕ ℕ),
      (objects ℕ ℕ (equalTo id)).Reach Statement.Within s ∧ s 0 = some h ∧ h.bucketCount = 16 ∧
        h.used = 7 ∧ h.size = 6 ∧ h.deletedAt 2 = true ∧ h.keyAt 3 = 33 ∧
        (∃ e < h.bucketCount, h.emptyAt e = true) ∧
        ∀ key, (scan (h.getCont (equalTo id) key) h.next h.bucketCount
          ((equalTo id).hasher key &&& h.mask)).isSome := by
  have hs := (objects ℕ ℕ (equalTo id)).reach_of_run Statement.Within grownMap rfl
  have hends := probes_end hs (x := 0) rfl
  obtain ⟨-, -, -, -, -, -, -, hempty, hget, -⟩ := hends.1 (by decide)
  exact ⟨_, _, hs, rfl, rfl, rfl, rfl, rfl, rfl, hempty, hget⟩

end Naesala
