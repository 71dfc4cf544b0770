import Naesala.Hashmap.Iteration
import Naesala.Hashmap.Lookup
import Naesala.Hashmap.Objects

/-!
# Erasing at the iterator

`erase` takes an iterator, which stays where it is, and the loop that a client writes with it is

    for (auto ite = map.begin(); ite != map.end(); ++ite) if (p(*ite)) map.erase(ite);

`Delete` marks the bucket and leaves the others alone, unless it halves the table. Then the iterator
has its old index in the new array, or behind it.

**Theorem (`eraseIf_sweeps`).** In every map of every program, the loop has each pair once and
leaves those that `p` rejects, in order, if its erasures do not bring `size_` below `shrink_count_`
or the table has 8 buckets at most. Otherwise it does not return from the table that it started on.

A turn of the loop is a turn of `visit` on a table in which the buckets behind the iterator are
swept and those ahead are as they were.
-/

namespace Naesala

namespace LinearHashmap

variable {K V : Type} [DecidableEq K] {F : Functors K} {p : K × Option V → Bool}
variable {h h' : LinearHashmap K V} {index fuel n : ℕ} {visited : List (K × Option V)}

/-! ## The loop -/

/-- The pair that an iterator refers to. -/
def pairAt (h : LinearHashmap K V) (index : ℕ) : K × Option V := (h.keyAt index, h.valueAt index)

/-- The loop from `current` on: the table it leaves and the pairs it has had. `none` where `++`
starts behind the array of a rebuilt table. -/
def eraseLoop (F : Functors K) (p : K × Option V → Bool) :
    ℕ → LinearHashmap K V → ℕ → Option (LinearHashmap K V × List (K × Option V))
  | 0, _, _ => none
  | fuel + 1, h, current =>
    if current = h.bucketCount then some (h, [])
    else
      (if p (h.pairAt current) then h.delete F current else some h).bind fun h' =>
        if h'.bucketCount < current then none
        else (eraseLoop F p fuel h' (h'.increment current)).map fun r =>
          (r.1, h.pairAt current :: r.2)

/-- The loop from `begin()` to `end()`. -/
def eraseIf (F : Functors K) (p : K × Option V → Bool) (h : LinearHashmap K V) :
    Option (LinearHashmap K V × List (K × Option V)) :=
  eraseLoop F p (h.bucketCount + 1) h h.begin

/-- The number of pairs that the loop erases from bucket `index` on. -/
def matchesFrom (p : K × Option V → Bool) (h : LinearHashmap K V) (index : ℕ) : ℕ :=
  (existingIn h.isSentinel (h.buckets.drop index)).countP p

/-- The table is not halved when `n` of its pairs are erased. -/
def StaysLarge (h : LinearHashmap K V) (n : ℕ) : Prop :=
  n = 0 ∨ h.bucketCount ≤ 8 ∨ h.shrinkCount ≤ h.size - n

instance (h : LinearHashmap K V) (n : ℕ) : Decidable (h.StaysLarge n) :=
  inferInstanceAs (Decidable (_ ∨ _ ∨ _))

instance [Inhabited V] (s : Objects K V) : DecidablePred (Statement.Within s)
  | .construct _ n _ _ => inferInstanceAs (Decidable (nextPowTwo n ≤ 2 ^ 30))
  | .call x op => decidable_of_iff (∀ h ∈ s x, op.callsSet = true → h.Within) Iff.rfl
  | .destruct _ | .eraseAt _ _ | .copyConstruct _ _ | .moveConstruct _ _ | .copyAssign _ _
  | .moveAssign _ _ | .swap _ _ => inferInstanceAs (Decidable True)

/-! ## One bucket -/

theorem marked_keeps (h : LinearHashmap K V) (index : ℕ) :
    (h.marked index).buckets = h.buckets.set index ⟨h.erasedKey, none⟩ ∧
      (h.marked index).bucketCount = h.bucketCount ∧
      (h.marked index).shrinkCount = h.shrinkCount ∧ (h.marked index).size = h.size - 1 ∧
      (h.marked index).isSentinel = h.isSentinel :=
  ⟨rfl, rfl, rfl, rfl, rfl⟩

omit [DecidableEq K] in
theorem pairAt_eq (hi : index < h.buckets.length) : h.pairAt index = pair h.buckets[index] := by
  rw [pairAt, pair, keyAt_eq_first hi]
  simp [valueAt, hi]

theorem isSentinel_first (hi : index < h.buckets.length) :
    h.isSentinel h.buckets[index].first = !h.existsAt index := by
  rw [existsAt_eq, keyAt_eq_first hi, Bool.not_not]

theorem increment_eq (hn : index + (n + 1) = h.bucketCount) :
    h.increment index = h.seek n (index + 1) := by
  rw [increment, if_pos (by omega), show h.bucketCount - (index + 1) = n by omega]

/-- A bucket that does not exist is skipped. -/
theorem existingIn_drop_skip (hi : index < h.buckets.length) (he : h.existsAt index = false) :
    existingIn h.isSentinel (h.buckets.drop index) =
      existingIn h.isSentinel (h.buckets.drop (index + 1)) := by
  have hs := isSentinel_first hi
  rw [he] at hs
  rw [List.drop_eq_getElem_cons hi, existingIn_cons_of_sentinel hs]

theorem existingIn_drop_exists (hi : index < h.buckets.length) (he : h.existsAt index = true) :
    existingIn h.isSentinel (h.buckets.drop index) =
      h.pairAt index :: existingIn h.isSentinel (h.buckets.drop (index + 1)) := by
  have hs := isSentinel_first hi
  rw [he] at hs
  rw [List.drop_eq_getElem_cons hi, existingIn_cons_of_exists hs, pairAt_eq hi]

theorem existingIn_drop_marked (h : LinearHashmap K V) (index : ℕ) :
    existingIn (h.marked index).isSentinel ((h.marked index).buckets.drop (index + 1)) =
      existingIn h.isSentinel (h.buckets.drop (index + 1)) := by
  obtain ⟨hbuckets, -, -, -, hsentinel⟩ := marked_keeps h index
  rw [hbuckets, hsentinel, List.drop_set_of_lt (Nat.lt_succ_self index)]

/-- `Delete` of a bucket that exists, when the table is large enough afterwards. -/
theorem delete_of_staysLarge (F : Functors K) (hi : index < h.bucketCount)
    (he : h.existsAt index = true) (hk : h.bucketCount ≤ 8 ∨ h.shrinkCount ≤ h.size - 1) :
    h.delete F index = some (h.marked index) := by
  rw [delete_of_exists F hi he, if_neg]
  obtain ⟨-, hcount, hshrink, hsize, -⟩ := marked_keeps h index
  omega

/-! ## The loop that keeps its table -/

/-- A bucket after the loop. -/
def sweepBucket (p : K × Option V → Bool) (h : LinearHashmap K V) (b : Bucket K V) : Bucket K V :=
  if !h.isSentinel b.first && p (pair b) then ⟨h.erasedKey, none⟩ else b

/-- The table after the loop has gone over the buckets from `index` on. -/
def sweep (p : K × Option V → Bool) (h : LinearHashmap K V) (index : ℕ) : LinearHashmap K V :=
  { h with
    buckets := h.buckets.take index ++ (h.buckets.drop index).map (h.sweepBucket p)
    size := h.size - h.matchesFrom p index }

theorem existingIn_map_sweepBucket (p : K × Option V → Bool) (h : LinearHashmap K V)
    (bs : List (Bucket K V)) : existingIn h.isSentinel (bs.map (h.sweepBucket p)) =
      (existingIn h.isSentinel bs).filter fun kv => !p kv := by
  have herased : h.isSentinel h.erasedKey = true := by simp [isSentinel]
  induction bs with
  | nil => rfl
  | cons b bs ih =>
    rw [List.map_cons]
    cases hb : h.isSentinel b.first with
    | true =>
      have hsweep : h.sweepBucket p b = b := by simp [sweepBucket, hb]
      rw [hsweep, existingIn_cons_of_sentinel hb, existingIn_cons_of_sentinel hb, ih]
    | false =>
      rw [existingIn_cons_of_exists hb]
      cases hp : p (pair b) with
      | true =>
        have hsweep : h.sweepBucket p b = ⟨h.erasedKey, none⟩ := by simp [sweepBucket, hb, hp]
        rw [hsweep, existingIn_cons_of_sentinel herased, ih, List.filter_cons_of_neg (by simp [hp])]
      | false =>
        have hsweep : h.sweepBucket p b = b := by simp [sweepBucket, hp]
        rw [hsweep, existingIn_cons_of_exists hb, ih, List.filter_cons_of_pos (by simp [hp])]

theorem sweep_end (hlen : h.buckets.length = h.bucketCount) : h.sweep p h.bucketCount = h := by
  rw [sweep, matchesFrom, List.drop_of_length_le (by omega), List.take_of_length_le (by omega)]
  simp [existingIn]

/-- A bucket that exists afterwards is as it was. -/
theorem existsAt_sweep (he : (h.sweep p 0).existsAt index = true) :
    h.existsAt index = true ∧ (h.sweep p 0).pairAt index = h.pairAt index := by
  have hget : (h.sweep p 0).buckets[index]? = h.buckets[index]?.map (h.sweepBucket p) := by
    rw [← List.getElem?_map]
    rfl
  have hsame : (h.sweep p 0).buckets[index]? = h.buckets[index]? := by
    cases hb : h.buckets[index]? with
    | none => rw [hget, hb, Option.map_none]
    | some b =>
      rw [hget, hb, Option.map_some, sweepBucket]
      split_ifs with herased
      · have hkey : (h.sweep p 0).keyAt index = h.erasedKey := by
          rw [keyAt, hget, hb, Option.map_some, sweepBucket, if_pos herased]
          rfl
        exact absurd hkey (existsAt_iff.1 he).1
      · rfl
  have hkey : (h.sweep p 0).keyAt index = h.keyAt index := by
    rw [keyAt, hsame]
    rfl
  refine ⟨?_, ?_⟩
  · rw [existsAt_eq, ← hkey]
    exact he
  · rw [pairAt, hkey, valueAt, hsame]
    rfl

theorem sweep_of_left (hi : index < h.buckets.length)
    (hb : h.sweepBucket p h.buckets[index] = h.buckets[index])
    (hm : h.matchesFrom p index = h.matchesFrom p (index + 1)) :
    h.sweep p (index + 1) = h.sweep p index := by
  rw [sweep, sweep, hm, List.drop_eq_getElem_cons hi, List.map_cons, hb,
    List.take_succ_eq_append_getElem hi, List.append_assoc]
  rfl

theorem sweep_of_marked (hi : index < h.buckets.length)
    (hb : h.sweepBucket p h.buckets[index] = ⟨h.erasedKey, none⟩)
    (hm : h.matchesFrom p index = h.matchesFrom p (index + 1) + 1) :
    (h.marked index).sweep p (index + 1) = h.sweep p index := by
  have hrest : (h.marked index).matchesFrom p (index + 1) = h.matchesFrom p (index + 1) := by
    rw [matchesFrom, existingIn_drop_marked, matchesFrom]
  have hbuckets : (h.marked index).buckets = h.buckets.set index ⟨h.erasedKey, none⟩ := rfl
  have hset : index < (h.buckets.set index ⟨h.erasedKey, none⟩).length := by simpa using hi
  have hsize : h.size - (h.matchesFrom p (index + 1) + 1) =
      h.size - 1 - h.matchesFrom p (index + 1) := by omega
  rw [sweep, sweep, hrest, hm, hsize, hbuckets, List.drop_set_of_lt (Nat.lt_succ_self index),
    List.take_succ_eq_append_getElem hset, List.take_set_of_le (Nat.le_refl index),
    List.getElem_set_self, List.drop_eq_getElem_cons hi, List.map_cons, hb, List.append_assoc]
  rfl

/-- **The loop over a table that is not halved.** -/
theorem eraseLoop_of_staysLarge (F : Functors K) (hlen : h.buckets.length = h.bucketCount)
    (hn : index + n = h.bucketCount) (hfuel : n < fuel)
    (hk : h.StaysLarge (h.matchesFrom p index)) :
    eraseLoop F p fuel h (h.seek n index) =
      some (h.sweep p index, existingIn h.isSentinel (h.buckets.drop index)) := by
  induction n generalizing h index fuel with
  | zero =>
    obtain ⟨fuel, rfl⟩ : ∃ k, fuel = k + 1 := ⟨fuel - 1, by omega⟩
    have hi : index = h.bucketCount := by omega
    rw [seek, hi, eraseLoop, if_pos rfl, sweep_end hlen, List.drop_of_length_le (by omega)]
    rfl
  | succ n ih =>
    have hlt : index < h.buckets.length := by omega
    have hs := isSentinel_first hlt
    cases he : h.existsAt index with
    | false =>
      have hrest := existingIn_drop_skip hlt he
      have hm : h.matchesFrom p index = h.matchesFrom p (index + 1) := by
        rw [matchesFrom, hrest, matchesFrom]
      have hleft : h.sweepBucket p h.buckets[index] = h.buckets[index] := by
        simp [sweepBucket, hs, he]
      rw [seek, if_neg (by simp [he]), ih hlen (by omega) (by omega) (hm ▸ hk),
        sweep_of_left hlt hleft hm, hrest]
    | true =>
      obtain ⟨fuel, rfl⟩ : ∃ k, fuel = k + 1 := ⟨fuel - 1, by omega⟩
      have hrest := existingIn_drop_exists hlt he
      rw [seek_eq_of_exists he, eraseLoop, if_neg (by omega)]
      cases hp : p (h.pairAt index) with
      | false =>
        have hm : h.matchesFrom p index = h.matchesFrom p (index + 1) := by
          rw [matchesFrom, hrest, List.countP_cons_of_neg (by simp [hp]), matchesFrom]
        have hleft : h.sweepBucket p h.buckets[index] = h.buckets[index] := by
          simp [sweepBucket, ← pairAt_eq hlt, hp]
        rw [if_neg (by simp), Option.bind_some, if_neg (by omega), increment_eq hn,
          ih hlen (by omega) (by omega) (hm ▸ hk), sweep_of_left hlt hleft hm, hrest]
        rfl
      | true =>
        have hm : h.matchesFrom p index = h.matchesFrom p (index + 1) + 1 := by
          rw [matchesFrom, hrest, List.countP_cons_of_pos hp, matchesFrom]
        have herased : h.sweepBucket p h.buckets[index] = ⟨h.erasedKey, none⟩ := by
          simp [sweepBucket, hs, he, ← pairAt_eq hlt, hp]
        obtain ⟨hbuckets, hcount, hshrink, hsize, -⟩ := marked_keeps h index
        have hrest' := existingIn_drop_marked h index
        have hm' : (h.marked index).matchesFrom p (index + 1) = h.matchesFrom p (index + 1) := by
          rw [matchesFrom, hrest', matchesFrom]
        -- one pair fewer, and one fewer to erase: the table still stays large
        have hk' : (h.marked index).StaysLarge ((h.marked index).matchesFrom p (index + 1)) := by
          rw [StaysLarge, hcount, hshrink, hsize, hm']
          rw [StaysLarge, hm] at hk
          omega
        have hdelete := delete_of_staysLarge F (by omega) he (by rw [StaysLarge, hm] at hk; omega)
        have hn' : index + 1 + n = (h.marked index).bucketCount := by omega
        have hlen' : (h.marked index).buckets.length = (h.marked index).bucketCount := by
          rw [hbuckets, List.length_set, hlen, hcount]
        rw [if_pos rfl, hdelete, Option.bind_some, if_neg (by omega),
          increment_eq (by omega : index + (n + 1) = (h.marked index).bucketCount),
          ih hlen' hn' (by omega) hk', hrest', sweep_of_marked hlt herased hm, hrest]
        rfl

/-! ## The loop that halves its table -/

theorem Shrunk.bucketCount_le (hS : Shrunk F h h') : h'.bucketCount ≤ h.bucketCount := by
  cases hS with
  | same => exact Nat.le_refl _
  | @half t q hhalf _ _ _ hM =>
    have hcount : h'.bucketCount = q := hM.bucketCount_eq
    omega

omit [DecidableEq K] in
/-- What a turn returns is what the rest of the loop does. -/
theorem exists_rest {o : Option (LinearHashmap K V × List (K × Option V))} {kv : K × Option V}
    (hr : o.map (fun r => (r.1, kv :: r.2)) = some (h', visited)) :
    ∃ rest, o = some (h', rest) := by
  obtain ⟨r, ho, heq⟩ := Option.map_eq_some_iff.1 hr
  cases heq
  exact ⟨r.2, ho⟩

theorem bucketCount_eraseLoop_le (hC : h.Counters)
    (hr : eraseLoop F p fuel h index = some (h', visited)) : h'.bucketCount ≤ h.bucketCount := by
  induction fuel generalizing h index visited with
  | zero => cases hr
  | succ fuel ih =>
    rw [eraseLoop] at hr
    split_ifs at hr with hend hp
    · cases hr
      exact Nat.le_refl _
    · obtain ⟨t, ht, hC', hcases⟩ := delete_spec F hC index
      have hle : t.bucketCount ≤ h.bucketCount := by
        rcases hcases with ⟨-, rfl⟩ | ⟨-, -, hS⟩
        · exact Nat.le_refl _
        · exact hS.bucketCount_le
      rw [ht, Option.bind_some] at hr
      split_ifs at hr
      obtain ⟨rest, hrest⟩ := exists_rest hr
      exact (ih hC' hrest).trans hle
    · rw [Option.bind_some] at hr
      split_ifs at hr
      obtain ⟨rest, hrest⟩ := exists_rest hr
      exact ih hC hrest

/-- **The loop over a table that is halved.** -/
theorem bucketCount_eraseLoop_lt (hC : h.Counters) (hn : index + n = h.bucketCount)
    (hk : ¬h.StaysLarge (h.matchesFrom p index))
    (hr : eraseLoop F p fuel h (h.seek n index) = some (h', visited)) :
    h'.bucketCount < h.bucketCount := by
  induction n generalizing h index fuel visited with
  | zero =>
    -- no pair is left to erase, which would have kept the table
    have hm : h.matchesFrom p index = 0 := by
      rw [matchesFrom, List.drop_of_length_le (by rw [hC.length]; omega)]
      rfl
    exact absurd (Or.inl hm) hk
  | succ n ih =>
    have hlt : index < h.buckets.length := by rw [hC.length]; omega
    cases he : h.existsAt index with
    | false =>
      have hm : h.matchesFrom p index = h.matchesFrom p (index + 1) := by
        rw [matchesFrom, existingIn_drop_skip hlt he, matchesFrom]
      rw [seek, if_neg (by simp [he])] at hr
      exact ih hC (by omega) (hm ▸ hk) hr
    | true =>
      have hrest := existingIn_drop_exists hlt he
      cases fuel with
      | zero => cases hr
      | succ fuel =>
        rw [seek_eq_of_exists he, eraseLoop, if_neg (by omega)] at hr
        cases hp : p (h.pairAt index) with
        | false =>
          have hm : h.matchesFrom p index = h.matchesFrom p (index + 1) := by
            rw [matchesFrom, hrest, List.countP_cons_of_neg (by simp [hp]), matchesFrom]
          rw [hp, if_neg (by simp), Option.bind_some, if_neg (by omega), increment_eq hn] at hr
          obtain ⟨_, hr⟩ := exists_rest hr
          exact ih hC (by omega) (hm ▸ hk) hr
        | true =>
          have hm : h.matchesFrom p index = h.matchesFrom p (index + 1) + 1 := by
            rw [matchesFrom, hrest, List.countP_cons_of_pos hp, matchesFrom]
          rw [StaysLarge, hm] at hk
          have hCm := hC.marked (by omega : index < h.bucketCount) he
          obtain ⟨-, hcount, hshrink, hsize, -⟩ := marked_keeps h index
          rw [hp, if_pos rfl] at hr
          by_cases hsmall : h.size - 1 < h.shrinkCount
          · -- this erasure halves the table
            obtain ⟨t, q, ht, hhalf, -, hM⟩ := hCm.halve (F := F) (by omega) (by omega)
            have hdelete : h.delete F index = some t := by
              rw [delete_of_exists F (by omega) he, if_pos ⟨by omega, by omega⟩]
              exact ht _ (places_setNested F 63)
            have hq : t.bucketCount = q := hM.bucketCount_eq
            obtain ⟨t', ht', hC', -⟩ := delete_spec F hC index
            rw [hdelete] at ht' hr
            cases ht'
            rw [Option.bind_some] at hr
            split_ifs at hr
            obtain ⟨_, hr⟩ := exists_rest hr
            have hle := bucketCount_eraseLoop_le hC' hr
            omega
          · -- a later one does
            have hm' : (h.marked index).matchesFrom p (index + 1) =
                h.matchesFrom p (index + 1) := by
              rw [matchesFrom, existingIn_drop_marked, matchesFrom]
            have hk' : ¬(h.marked index).StaysLarge
                ((h.marked index).matchesFrom p (index + 1)) := by
              rw [StaysLarge, hcount, hshrink, hsize, hm']
              omega
            rw [delete_of_staysLarge F (by omega) he (by omega), Option.bind_some, if_neg (by omega),
              increment_eq (by omega : index + (n + 1) = (h.marked index).bucketCount)] at hr
            obtain ⟨_, hr⟩ := exists_rest hr
            have hlt' := ih hCm (by omega) hk' hr
            omega

/-- **Erasing at the iterator.** In every map of every program, with any keys and any `Pred`: if the
loop erases no pair, or the table has 8 buckets at most, or as many pairs stay as `shrink_count_`,
then the loop has each pair once, in slot order, and leaves those that `p` rejects, in the same
buckets as before. If not, it ends behind the array of a smaller table, or with a smaller table. -/
theorem eraseIf_sweeps [Inhabited V] {s : Objects K V} {x : ℕ}
    (hs : (objects K V F).Reach Statement.Within s) (hx : s x = some h)
    (p : K × Option V → Bool) :
    (h.StaysLarge (h.existing.countP p) → ∃ h', h.eraseIf F p = some (h', h.existing) ∧
      h'.existing = h.existing.filter (fun kv => !p kv) ∧
      h'.size = h.size - h.existing.countP p ∧ h'.bucketCount = h.bucketCount ∧
      ∀ i, h'.existsAt i = true → h.existsAt i = true ∧ h'.pairAt i = h.pairAt i) ∧
    (¬h.StaysLarge (h.existing.countP p) → ∀ h' visited, h.eraseIf F p = some (h', visited) →
      h'.bucketCount < h.bucketCount) := by
  have hC := AllCounters.reach hs x h hx
  have hm : h.matchesFrom p 0 = h.existing.countP p := rfl
  rw [← hm]
  constructor
  · intro hk
    have hloop := eraseLoop_of_staysLarge F hC.length (Nat.zero_add _) (Nat.lt_succ_self _) hk
    refine ⟨h.sweep p 0, hloop, ?_, rfl, rfl, ?_⟩
    · exact existingIn_map_sweepBucket p h h.buckets
    · exact fun i he => existsAt_sweep he
  · intro hk h' visited hr
    exact bucketCount_eraseLoop_lt hC (Nat.zero_add _) hk hr

/-- A client that erases all of three pairs in 16 buckets goes over two of them, in two tables, and
keeps the third. -/
theorem eraseIf_sweeps_halved :
    ∃ (s : Objects ℕ ℕ) (h h' : LinearHashmap ℕ ℕ),
      (objects ℕ ℕ (equalTo id)).Reach Statement.Within s ∧ s 0 = some h ∧
      h.eraseIf (equalTo id) (fun _ => true) = some (h', [(5, some 50), (6, some 60)]) ∧
      h'.existing = [(13, some 130)] ∧ h'.bucketCount < h.bucketCount := by
  have hrun : ∃ (s : Objects ℕ ℕ) (h h' : LinearHashmap ℕ ℕ),
      (objects ℕ ℕ (equalTo id)).Reach Statement.Within s ∧ s 0 = some h ∧
      ¬h.StaysLarge (h.existing.countP fun _ => true) ∧
      h.eraseIf (equalTo id) (fun _ => true) = some (h', [(5, some 50), (6, some 60)]) ∧
      h'.existing = [(13, some 130)] :=
    ⟨_, _, _, (objects ℕ ℕ (equalTo id)).reach_of_run Statement.Within
      [.construct 0 9 100 101, .call 0 (.insert 5 50), .call 0 (.insert 6 60),
        .call 0 (.insert 13 130)] rfl, rfl, by decide, rfl, by decide⟩
  obtain ⟨s, h, h', hs, hx, hk, hr, hexisting⟩ := hrun
  exact ⟨s, h, h', hs, hx, hr, hexisting, (eraseIf_sweeps hs hx fun _ => true).2 hk h' _ hr⟩

end LinearHashmap

end Naesala
