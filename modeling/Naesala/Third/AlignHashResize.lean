import Mathlib.Data.Nat.Prime.Basic
import Mathlib.Tactic.Abel
import Naesala.Library.Slots
import Naesala.Third.AlignHashFlags

/-!
# `alignhash_resize` moves the elements in place

The arrays hold the old table and the new one at once. The flags of the old table say which buckets
still have an element of it, the new flags which have one of the new. An element that is placed
where one of the old table still is takes its bucket, and what was there is lost: the loop places
the same element once more. `Moving` accounts for the elements. Those of the old table, those that
were lost and those that were placed are the elements that there were; the new table has no others
than those that were placed, and as many copies more as were lost. It is one that `alignhash_get`
can search.

Each turn of the inner loop but the last takes an element of the old table, so it ends, and a table
with more buckets than elements has an empty one on every probe.

**Theorem (`resize_spec`).** The loops end. The new table has the elements of the old one that were
not lost, and it is a well-formed table with all of them if none was.
-/

namespace Naesala

namespace AlignHash

open Slots

variable {K V : Type} {P : Probing} {hashfn : K → ℕ}

/-! ## Probes -/

/-- The bucket that a probe for `key` looks at in its test number `d`, in a table of `n`. -/
def path (P : Probing) (hashfn : K → ℕ) (n : ℕ) (key : K) (d : ℕ) : ℕ :=
  ((hashfn key &&& (n - 1)) + d * P.probeStep (hashfn key)) % n

/-- The bucket after `i` in a probe for `key`. -/
abbrev next (P : Probing) (hashfn : K → ℕ) (n : ℕ) (key : K) (i : ℕ) : ℕ :=
  (i + P.probeStep (hashfn key)) &&& (n - 1)

theorem coprime_probeStep (P : Probing) (k e : ℕ) : Nat.Coprime (P.probeStep k) (2 ^ (e + 1)) :=
  Nat.Coprime.pow_right _ (Nat.coprime_two_right.2 (Nat.odd_iff.2 (P.odd_probeStep k)))

theorem and_mask (k e : ℕ) : k &&& (2 ^ (e + 1) - 1) = k % 2 ^ (e + 1) :=
  Nat.and_two_pow_sub_one_eq_mod k (e + 1)

variable {e d d' : ℕ} {key : K} {val : V}

theorem path_lt (P : Probing) (hashfn : K → ℕ) (e : ℕ) (key : K) (d : ℕ) :
    path P hashfn (2 ^ (e + 1)) key d < 2 ^ (e + 1) :=
  Nat.mod_lt _ (Nat.two_pow_pos _)

/-- The slots that the loops go through. -/
theorem iterate_next (P : Probing) (hashfn : K → ℕ) (e : ℕ) (key : K) (d : ℕ) :
    (next P hashfn (2 ^ (e + 1)) key)^[d] (hashfn key &&& (2 ^ (e + 1) - 1)) =
      path P hashfn (2 ^ (e + 1)) key d := by
  unfold next
  simp only [and_mask, path]
  exact Cyclic.iterate_add_mod (Nat.mod_lt _ (Nat.two_pow_pos _)) _ d

theorem path_injective (hd : d < 2 ^ (e + 1)) (hd' : d' < 2 ^ (e + 1))
    (h : path P hashfn (2 ^ (e + 1)) key d = path P hashfn (2 ^ (e + 1)) key d') : d = d' :=
  Cyclic.probe_injective (coprime_probeStep P _ e) hd hd' h

theorem exists_path (P : Probing) (hashfn : K → ℕ) (key : K) {i : ℕ} (hi : i < 2 ^ (e + 1)) :
    ∃ d < 2 ^ (e + 1), path P hashfn (2 ^ (e + 1)) key d = i :=
  Cyclic.exists_probe (coprime_probeStep P _ e) _ hi

/-! ## Buckets -/

/-- What the arrays have at `i`. -/
def pairAt (keys : List (Option K)) (vals : List (Option V)) (i : ℕ) : Option (K × V) := do
  let key ← keyAt keys i
  let val ← vals.getD i none
  some (key, val)

variable {keys : List (Option K)} {vals : List (Option V)} {i j n : ℕ}

theorem pairAt_eq_some {p : K × V} :
    pairAt keys vals i = some p ↔ keyAt keys i = some p.1 ∧ vals.getD i none = some p.2 := by
  obtain ⟨key, val⟩ := p
  unfold pairAt
  cases keyAt keys i <;> cases vals.getD i none <;> simp

theorem pairAt_set_self (hk : i < keys.length) (hv : i < vals.length) (key : K) (val : V) :
    pairAt (keys.set i (some key)) (vals.set i (some val)) i = some (key, val) := by
  simp [pairAt, keyAt, hk, hv]

theorem pairAt_set_ne (hij : j ≠ i) (key : Option K) (val : Option V) :
    pairAt (keys.set i key) (vals.set i val) j = pairAt keys vals j := by
  simp [pairAt, keyAt, List.getElem?_set_ne fun heq : i = j => hij heq.symm]

/-- A bucket of the old table that has not been moved. -/
def Rehash.oldAt (n : ℕ) (r : Rehash K V) (i : ℕ) : Option (K × V) :=
  if i < n ∧ r.flags.isEither i = false then pairAt r.keys r.vals i else none

/-- A bucket of the new table. -/
def Rehash.newAt (r : Rehash K V) (i : ℕ) : Option (K × V) :=
  if r.newFlags.isEmpty i = false then pairAt r.keys r.vals i else none

/-- A bucket that is written is not one of the old table. -/
theorem oldAt_write {r : Rehash K V} {flags : Flags} (newFlags : Flags) (key : K) (val : V)
    (lost : List K)
    (hflags : ∀ j, flags.isEither j = (r.flags.isEither j || decide (j = i ∧ i < n))) :
    Rehash.oldAt n ⟨flags, newFlags, r.keys.set i (some key), r.vals.set i (some val), lost⟩ =
      Function.update (r.oldAt n) i none := by
  funext j
  by_cases hj : j = i
  · subst hj
    rw [Function.update_self, Rehash.oldAt, if_neg]
    simpa [hflags] using fun hlt _ => hlt
  · rw [Function.update_of_ne hj, Rehash.oldAt, Rehash.oldAt, pairAt_set_ne hj]
    simp [hflags, hj]

theorem isEither_setDel_iff {flags : Flags} (hj : j < 32 * flags.length) (i : ℕ) :
    (flags.setDel j).isEither i = false ↔ flags.isEither i = false ∧ i ≠ j := by
  rw [Flags.isEither_setDel hj, Bool.or_eq_false_iff, decide_eq_false_iff_not]

/-- A bucket that has no element of the old table need not be marked. -/
theorem isEither_of_free {flags : Flags} (hfree : ¬(i < n ∧ flags.isEither i = false)) (j : ℕ) :
    flags.isEither j = (flags.isEither j || decide (j = i ∧ i < n)) := by
  by_cases hj : j = i ∧ i < n
  · have htrue : flags.isEither j = true := by
      rw [hj.1, ← Bool.not_eq_false]
      exact fun hflag => hfree ⟨hj.2, hflag⟩
    rw [htrue, Bool.true_or]
  · rw [decide_eq_false hj, Bool.or_false]

/-- A bucket that is marked is not one of the old table. -/
theorem oldAt_setDel {r : Rehash K V} (hj : j < 32 * r.flags.length) :
    Rehash.oldAt n { r with flags := r.flags.setDel j } = Function.update (r.oldAt n) j none := by
  funext i
  by_cases hij : i = j
  · rw [hij, Function.update_self, Rehash.oldAt, if_neg]
    exact fun hp => ((isEither_setDel_iff hj j).1 hp.2).2 rfl
  · rw [Function.update_of_ne hij, Rehash.oldAt, Rehash.oldAt]
    simp [isEither_setDel_iff hj, hij]

theorem content_oldAt_add (r : Rehash K V) (n i : ℕ) :
    Slots.content n (Function.update (r.oldAt n) i none) + one (r.oldAt n i) =
      Slots.content n (r.oldAt n) := by
  by_cases hin : i < n
  · rw [content_update hin]
    exact add_zero _
  · -- behind the old table there is nothing to take out
    have hout : r.oldAt n i = none := by rw [Rehash.oldAt, if_neg fun hp => hin hp.1]
    have hsame : Function.update (r.oldAt n) i none = r.oldAt n := by
      rw [← hout, Function.update_eq_self]
    rw [hout, hsame]
    exact add_zero _

theorem newAt_write {r : Rehash K V} (flags : Flags) (hwords : i < 32 * r.newFlags.length)
    (hk : i < r.keys.length) (hv : i < r.vals.length) (key : K) (val : V) (lost : List K) :
    Rehash.newAt ⟨flags, r.newFlags.clearEmpty i, r.keys.set i (some key), r.vals.set i (some val),
      lost⟩ = Function.update r.newAt i (some (key, val)) := by
  funext j
  by_cases hj : j = i
  · rw [hj, Function.update_self, Rehash.newAt, pairAt_set_self hk hv, if_pos]
    simp [Flags.isEmpty_clearEmpty hwords]
  · rw [Function.update_of_ne hj, Rehash.newAt, Rehash.newAt, pairAt_set_ne hj]
    simp [Flags.isEmpty_clearEmpty hwords, hj]

/-- What a table has in its buckets: each is found by a probe for its key that meets no empty bucket
before. -/
def Chained (P : Probing) (hashfn : K → ℕ) (n : ℕ) (isEmpty : ℕ → Bool) (f : ℕ → Option (K × V)) :
    Prop :=
  ∀ i < n, ∀ p, f i = some p →
    ∃ d < n, path P hashfn n p.1 d = i ∧ ∀ j < d, isEmpty (path P hashfn n p.1 j) = false

/-- A key is put where a probe for it has met no empty bucket before; no bucket becomes empty. -/
theorem Chained.put {isEmpty isEmpty' : ℕ → Bool} {f f' : ℕ → Option (K × V)} {key : K} {val : V}
    (h : Chained P hashfn n isEmpty f)
    (hf : ∀ j, f' j = Function.update f i (some (key, val)) j)
    (hkeep : ∀ j, isEmpty j = false → isEmpty' j = false) (hd : d < n)
    (hi : path P hashfn n key d = i)
    (hbefore : ∀ j < d, isEmpty (path P hashfn n key j) = false) :
    Chained P hashfn n isEmpty' f' := by
  intro j hj p hp
  rw [hf] at hp
  by_cases hji : j = i
  · rw [hji, Function.update_self, Option.some_inj] at hp
    subst hp
    exact ⟨d, hd, hi.trans hji.symm, fun m hm => hkeep _ (hbefore m hm)⟩
  · rw [Function.update_of_ne hji] at hp
    obtain ⟨d', hd', hpath, hbefore'⟩ := h j hj p hp
    exact ⟨d', hd', hpath, fun m hm => hkeep _ (hbefore' m hm)⟩

/-- **The invariant of the loops**: the old table has `n` buckets, the new one `2 ^ (e + 1)`. Of the
elements `all`, those in `placed` have been taken out of the old table to be placed, and those in
`lost` were overwritten there; `hand` is what the loop is about to place. -/
structure Moving (P : Probing) (hashfn : K → ℕ) (n e : ℕ) (all placed lost hand : Multiset (K × V))
    (r : Rehash K V) : Prop where
  flags_length : n ≤ 32 * r.flags.length
  newFlags_length : 2 ^ (e + 1) ≤ 32 * r.newFlags.length
  keys_length : n ≤ r.keys.length ∧ 2 ^ (e + 1) ≤ r.keys.length
  vals_length : n ≤ r.vals.length ∧ 2 ^ (e + 1) ≤ r.vals.length
  content : content n (r.oldAt n) + lost + placed = all
  mem_placed : ∀ p, p ∈ Slots.content (2 ^ (e + 1)) r.newAt + hand ↔ p ∈ placed
  card_placed : Multiset.card (Slots.content (2 ^ (e + 1)) r.newAt) + Multiset.card hand =
    Multiset.card placed + Multiset.card lost
  lost_keys : (r.lost : Multiset K) = lost.map Prod.fst
  apart : ∀ i < n, r.flags.isEither i = false → i < 2 ^ (e + 1) → r.newFlags.isEmpty i = true
  old_some : ∀ i < n, r.flags.isEither i = false → (pairAt r.keys r.vals i).isSome
  new_some : ∀ i < 2 ^ (e + 1), r.newFlags.isEmpty i = false → (pairAt r.keys r.vals i).isSome
  new_isDel : ∀ i < 2 ^ (e + 1), r.newFlags.isDel i = false
  chained : Chained P hashfn (2 ^ (e + 1)) r.newFlags.isEmpty r.newAt

variable {all placed lost hand : Multiset (K × V)} {r : Rehash K V}

/-- What the loop has in its hand after it has placed an element in a bucket with `o`: the element
again, if one of the old table was there. -/
def again (key : K) (val : V) (o : Option (K × V)) : Multiset (K × V) := one (o.map fun _ => (key, val))

theorem card_again (o : Option (K × V)) :
    Multiset.card (again key val o) = Multiset.card (one o) := by
  cases o <;> rfl

namespace Moving

/-- As long as an element has to be placed, a bucket is empty. -/
theorem exists_isEmpty (h : Moving P hashfn n e all placed lost {(key, val)} r)
    (hcard : Multiset.card all ≤ 2 ^ (e + 1)) :
    ∃ i < 2 ^ (e + 1), r.newFlags.isEmpty i = true := by
  by_contra hnone
  have hfull : ∀ i < 2 ^ (e + 1), r.newFlags.isEmpty i = false := by
    intro i hi
    rw [← Bool.not_eq_true]
    exact fun hempty => hnone ⟨i, hi, hempty⟩
  have hnew : Multiset.card (Slots.content (2 ^ (e + 1)) r.newAt) = 2 ^ (e + 1) := by
    rw [card_content]
    have hlen := List.length_range (n := 2 ^ (e + 1))
    conv_rhs => rw [← hlen]
    refine List.countP_eq_length.2 fun i hi => ?_
    rw [List.mem_range] at hi
    rw [Rehash.newAt, if_pos (hfull i hi)]
    exact h.new_some i hi (hfull i hi)
  have hall := congrArg Multiset.card h.content
  have hplaced := h.card_placed
  rw [Multiset.card_add, Multiset.card_add] at hall
  rw [hnew, Multiset.card_singleton] at hplaced
  omega

/-- **The probe for a place**: an empty bucket, after buckets that are not. -/
theorem exists_place [DecidableEq K] (h : Moving P hashfn n e all placed lost {(key, val)} r)
    (hcard : Multiset.card all ≤ 2 ^ (e + 1)) :
    ∃ d < 2 ^ (e + 1),
      r.place P hashfn (2 ^ (e + 1)) key = some (path P hashfn (2 ^ (e + 1)) key d) ∧
      r.newFlags.isEmpty (path P hashfn (2 ^ (e + 1)) key d) = true ∧
      ∀ j < d, r.newFlags.isEmpty (path P hashfn (2 ^ (e + 1)) key j) = false := by
  obtain ⟨i, hi, hempty⟩ := h.exists_isEmpty hcard
  obtain ⟨d, hd, rfl⟩ := exists_path P hashfn key hi
  rw [← iterate_next] at hempty
  obtain ⟨x, hx⟩ : ∃ x, r.place P hashfn (2 ^ (e + 1)) key = some x := by
    refine Cyclic.exists_scan hd ?_
    rw [hempty]
    rfl
  obtain ⟨d', hd', rfl, hstop, hbefore⟩ := Cyclic.scan_eq_some_iff.1 hx
  rw [iterate_next] at hx hstop
  refine ⟨d', hd', hx, by simpa using hstop, fun j hj => ?_⟩
  have hj' := hbefore j hj
  rw [iterate_next] at hj'
  simpa using hj'

/-- Writing an element into an empty bucket of the new table. What the old table had there is lost,
and the element is still to be placed. -/
theorem write (h : Moving P hashfn n e all placed lost {(key, val)} r) (hd : d < 2 ^ (e + 1))
    (hi : path P hashfn (2 ^ (e + 1)) key d = i) (hempty : r.newFlags.isEmpty i = true)
    (hbefore : ∀ j < d, r.newFlags.isEmpty (path P hashfn (2 ^ (e + 1)) key j) = false)
    {flags : Flags} (hlength : flags.length = r.flags.length)
    (hflags : ∀ j, flags.isEither j = (r.flags.isEither j || decide (j = i ∧ i < n)))
    {lostKeys : List K}
    (hlost : (lostKeys : Multiset K) = (one (r.oldAt n i)).map Prod.fst + (r.lost : Multiset K)) :
    Moving P hashfn n e all placed (one (r.oldAt n i) + lost) (again key val (r.oldAt n i))
      ⟨flags, r.newFlags.clearEmpty i, r.keys.set i (some key), r.vals.set i (some val),
        lostKeys⟩ := by
  have hlt : i < 2 ^ (e + 1) := hi ▸ path_lt P hashfn e key d
  have hkeys : i < r.keys.length := hlt.trans_le h.keys_length.2
  have hvals : i < r.vals.length := hlt.trans_le h.vals_length.2
  have hwords : i < 32 * r.newFlags.length := hlt.trans_le h.newFlags_length
  have hself := pairAt_set_self hkeys hvals key val
  have hother : ∀ j, j ≠ i →
      pairAt (r.keys.set i (some key)) (r.vals.set i (some val)) j = pairAt r.keys r.vals j :=
    fun j hj => pairAt_set_ne hj _ _
  have hisEmpty : ∀ j, (r.newFlags.clearEmpty i).isEmpty j =
      (r.newFlags.isEmpty j && decide (j ≠ i)) := fun j => Flags.isEmpty_clearEmpty hwords
  have hkeep : ∀ j, r.newFlags.isEmpty j = false → (r.newFlags.clearEmpty i).isEmpty j = false := by
    intro j hj
    rw [hisEmpty, hj, Bool.false_and]
  -- the old table loses bucket `i`, and the new one gets it
  have hold := oldAt_write (r.newFlags.clearEmpty i) key val lostKeys hflags
  have hnew := newAt_write flags hwords hkeys hvals key val lostKeys
  have hnone : r.newAt i = none := by
    rw [Rehash.newAt, if_neg (by simp [hempty])]
  have hput : Slots.content (2 ^ (e + 1)) (Rehash.newAt ⟨flags, r.newFlags.clearEmpty i,
      r.keys.set i (some key), r.vals.set i (some val), lostKeys⟩) =
      (key, val) ::ₘ Slots.content (2 ^ (e + 1)) r.newAt := by
    rw [hnew, content_put hlt hnone]
  refine ⟨?_, ?_, ?_, ?_, ?_, ?_, ?_, ?_, ?_, ?_, ?_, ?_, ?_⟩
  · show n ≤ 32 * flags.length
    rw [hlength]
    exact h.flags_length
  · show 2 ^ (e + 1) ≤ 32 * (r.newFlags.clearEmpty i).length
    rw [Flags.length_clearEmpty]
    exact h.newFlags_length
  · show n ≤ (r.keys.set i (some key)).length ∧ 2 ^ (e + 1) ≤ (r.keys.set i (some key)).length
    rw [List.length_set]
    exact h.keys_length
  · show n ≤ (r.vals.set i (some val)).length ∧ 2 ^ (e + 1) ≤ (r.vals.set i (some val)).length
    rw [List.length_set]
    exact h.vals_length
  · rw [hold, ← h.content, ← content_oldAt_add r n i]
    abel
  · intro p
    rw [hput, ← h.mem_placed, again]
    cases r.oldAt n i <;> simp [one, or_comm]
  · have hplaced := h.card_placed
    rw [Multiset.card_singleton] at hplaced
    rw [hput, Multiset.card_cons, card_again, Multiset.card_add]
    omega
  · rw [Multiset.map_add, ← h.lost_keys]
    exact hlost
  · intro j hj hflag hjlt
    show (r.newFlags.clearEmpty i).isEmpty j = true
    rw [show Flags.isEither _ j = flags.isEither j from rfl, hflags, Bool.or_eq_false_iff,
      decide_eq_false_iff_not] at hflag
    -- bucket `i` has no element of the old table any more
    have hji : j ≠ i := fun heq => hflag.2 ⟨heq, heq ▸ hj⟩
    rw [hisEmpty, h.apart j hj hflag.1 hjlt, decide_eq_true hji]
    rfl
  · intro j hj hflag
    show (pairAt (r.keys.set i (some key)) (r.vals.set i (some val)) j).isSome
    rw [show Flags.isEither _ j = flags.isEither j from rfl, hflags, Bool.or_eq_false_iff,
      decide_eq_false_iff_not] at hflag
    have hji : j ≠ i := fun heq => hflag.2 ⟨heq, heq ▸ hj⟩
    rw [hother j hji]
    exact h.old_some j hj hflag.1
  · intro j hj hflag
    show (pairAt (r.keys.set i (some key)) (r.vals.set i (some val)) j).isSome
    by_cases hji : j = i
    · rw [hji, hself]
      rfl
    · rw [hother j hji]
      refine h.new_some j hj ?_
      rwa [show Flags.isEmpty _ j = (r.newFlags.clearEmpty i).isEmpty j from rfl, hisEmpty,
        decide_eq_true hji, Bool.and_true] at hflag
  · intro j hj
    show (r.newFlags.clearEmpty i).isDel j = false
    rw [Flags.isDel_clearEmpty hwords]
    exact h.new_isDel j hj
  · exact h.chained.put (fun j => congrFun hnew j) hkeep hd hi hbefore

/-- Where nothing of the old table was, the element is placed. -/
theorem write_free (h : Moving P hashfn n e all placed lost {(key, val)} r) (hd : d < 2 ^ (e + 1))
    (hi : path P hashfn (2 ^ (e + 1)) key d = i) (hempty : r.newFlags.isEmpty i = true)
    (hbefore : ∀ j < d, r.newFlags.isEmpty (path P hashfn (2 ^ (e + 1)) key j) = false)
    (hfree : ¬(i < n ∧ r.flags.isEither i = false)) :
    Moving P hashfn n e all placed lost 0 ⟨r.flags, r.newFlags.clearEmpty i,
      r.keys.set i (some key), r.vals.set i (some val), r.lost⟩ := by
  have hflags := isEither_of_free hfree
  have hat : r.oldAt n i = none := by rw [Rehash.oldAt, if_neg hfree]
  have hlost : (r.lost : Multiset K) =
      (one (r.oldAt n i)).map Prod.fst + (r.lost : Multiset K) := by
    rw [hat]
    exact (zero_add _).symm
  have hwrite := h.write hd hi hempty hbefore rfl hflags hlost
  have hone : one (r.oldAt n i) + lost = lost := by
    rw [hat]
    exact zero_add _
  have hhand : again key val (r.oldAt n i) = 0 := by
    rw [hat]
    rfl
  rwa [hone, hhand] at hwrite

theorem lift (h : Moving P hashfn n e all placed lost 0 r) (hj : j < n)
    (hflag : r.flags.isEither j = false) (hpair : pairAt r.keys r.vals j = some (key, val)) :
    Moving P hashfn n e all ((key, val) ::ₘ placed) lost {(key, val)}
      { r with flags := r.flags.setDel j } := by
  have hwords : j < 32 * r.flags.length := hj.trans_le h.flags_length
  have hisEither := isEither_setDel_iff hwords
  have hat : r.oldAt n j = some (key, val) := by rw [Rehash.oldAt, if_pos ⟨hj, hflag⟩, hpair]
  have hmem := h.mem_placed
  have hplaced := h.card_placed
  refine ⟨?_, h.newFlags_length, h.keys_length, h.vals_length, ?_, fun p => ?_, ?_, h.lost_keys, ?_,
    ?_, h.new_some, h.new_isDel, h.chained⟩
  · show n ≤ 32 * (r.flags.setDel j).length
    rw [Flags.length_setDel]
    exact h.flags_length
  · have hcontent := h.content
    rw [content_take hj hat, ← Multiset.singleton_add] at hcontent
    rw [oldAt_setDel hwords, ← hcontent, ← Multiset.singleton_add]
    abel
  · rw [Multiset.mem_cons, ← hmem p, add_zero, Multiset.mem_add, Multiset.mem_singleton, or_comm]
    exact Iff.rfl
  · rw [Multiset.card_zero, add_zero] at hplaced
    rw [Multiset.card_singleton, Multiset.card_cons]
    show Multiset.card (Slots.content (2 ^ (e + 1)) r.newAt) + 1 = _
    omega
  · exact fun i hi hflag' => h.apart i hi ((hisEither i).1 hflag').1
  · exact fun i hi hflag' => h.old_some i hi ((hisEither i).1 hflag').1

/-- **The inner loop** places what it has in its hand, more than once if it meets elements of the
old table. -/
theorem kickOut [DecidableEq K] {fuel : ℕ} (h : Moving P hashfn n e all placed lost {(key, val)} r)
    (hcard : Multiset.card all ≤ 2 ^ (e + 1))
    (hfuel : Multiset.card (Slots.content n (r.oldAt n)) < fuel) :
    ∃ r' lost', Rehash.kickOut P hashfn n (2 ^ (e + 1)) fuel r key (some val) = some r' ∧
      Moving P hashfn n e all placed lost' 0 r' ∧
      ∀ j, r.flags.isEither j = true → r'.flags.isEither j = true := by
  induction fuel generalizing r lost with
  | zero => omega
  | succ fuel ih =>
    obtain ⟨d, hd, hplace, hempty, hbefore⟩ := h.exists_place hcard
    set i := path P hashfn (2 ^ (e + 1)) key d with hi
    by_cases hmet : i < n ∧ r.flags.isEither i = false
    · -- an element of the old table is there: it is overwritten, and the loop goes on
      obtain ⟨hin, hflag⟩ := hmet
      obtain ⟨other, hpair⟩ := Option.isSome_iff_exists.1 (h.old_some i hin hflag)
      have hwords : i < 32 * r.flags.length := hin.trans_le h.flags_length
      have hflags : ∀ j, (r.flags.setDel i).isEither j =
          (r.flags.isEither j || decide (j = i ∧ i < n)) := by
        intro j
        rw [Flags.isEither_setDel hwords]
        simp [hin]
      have hat : r.oldAt n i = some other := by
        rw [Rehash.oldAt, if_pos ⟨hin, hflag⟩, hpair]
      have hlost : (((keyAt r.keys i).toList ++ r.lost : List K) : Multiset K) =
          (one (r.oldAt n i)).map Prod.fst + (r.lost : Multiset K) := by
        rw [(pairAt_eq_some.1 hpair).1, hat]
        rfl
      have hwrite := h.write hd hi.symm hempty hbefore Flags.length_setDel hflags hlost
      have hhand : again key val (r.oldAt n i) = {(key, val)} := by
        rw [hat]
        rfl
      rw [hhand] at hwrite
      have hless : Multiset.card (Slots.content n (r.oldAt n)) =
          Multiset.card (Slots.content n (Function.update (r.oldAt n) i none)) + 1 := by
        rw [content_take hin hat, Multiset.card_cons]
      rw [← oldAt_write (r.newFlags.clearEmpty i) key val ((keyAt r.keys i).toList ++ r.lost) hflags]
        at hless
      obtain ⟨r', lost', hr', hmoving, hkeep⟩ := ih hwrite (by omega)
      refine ⟨r', lost', ?_, hmoving, fun j hj => hkeep j ?_⟩
      · rw [Rehash.kickOut, hplace]
        simp only [Option.bind_eq_bind, Option.bind_some]
        rw [if_pos ⟨hin, hflag⟩]
        exact hr'
      · show (r.flags.setDel i).isEither j = true
        rw [hflags, hj, Bool.true_or]
    · refine ⟨_, lost, ?_, h.write_free hd hi.symm hempty hbefore hmet, fun j hj => hj⟩
      rw [Rehash.kickOut, hplace]
      simp only [Option.bind_eq_bind, Option.bind_some]
      rw [if_neg hmet]

/-- **One turn of the outer loop.** -/
theorem bucket [DecidableEq K] (h : Moving P hashfn n e all placed lost 0 r)
    (hcard : Multiset.card all ≤ 2 ^ (e + 1)) (hj : j < n) :
    ∃ r' placed' lost', Rehash.bucket P hashfn n (2 ^ (e + 1)) r j = some r' ∧
      Moving P hashfn n e all placed' lost' 0 r' ∧ r'.flags.isEither j = true ∧
      ∀ i, r.flags.isEither i = true → r'.flags.isEither i = true := by
  rw [Rehash.bucket]
  cases hflag : r.flags.isEither j with
  | true => exact ⟨r, placed, lost, by simp, h, hflag, fun i hi => hi⟩
  | false =>
    obtain ⟨⟨key, val⟩, hpair⟩ := Option.isSome_iff_exists.1 (h.old_some j hj hflag)
    have hwords : j < 32 * r.flags.length := hj.trans_le h.flags_length
    have hlift := h.lift hj hflag hpair
    have hfuel : Multiset.card (Slots.content n
        (Rehash.oldAt n { r with flags := r.flags.setDel j })) < n + 1 := by
      rw [card_content]
      have hle := List.countP_le_length (l := List.range n)
        (p := fun i => (Rehash.oldAt n { r with flags := r.flags.setDel j } i).isSome)
      rw [List.length_range] at hle
      omega
    obtain ⟨r', lost', hr', hmoving, hkeep⟩ := hlift.kickOut hcard hfuel
    obtain ⟨hkey, hval⟩ := pairAt_eq_some.1 hpair
    refine ⟨r', _, lost', ?_, hmoving, hkeep j ?_, fun i hi => hkeep i ?_⟩
    · rw [if_pos rfl, hkey, hval]
      exact hr'
    · show (r.flags.setDel j).isEither j = true
      rw [Flags.isEither_setDel hwords, decide_eq_true rfl, Bool.or_true]
    · show (r.flags.setDel j).isEither i = true
      rw [Flags.isEither_setDel hwords, hi, Bool.true_or]

/-- The loop over the first `m` buckets of the old table. -/
theorem buckets [DecidableEq K] (h : Moving P hashfn n e all placed lost 0 r)
    (hcard : Multiset.card all ≤ 2 ^ (e + 1)) {m : ℕ} (hm : m ≤ n) :
    ∃ r' placed' lost',
      (List.range m).foldlM (Rehash.bucket P hashfn n (2 ^ (e + 1))) r = some r' ∧
      Moving P hashfn n e all placed' lost' 0 r' ∧ ∀ j < m, r'.flags.isEither j = true := by
  induction m with
  | zero => exact ⟨r, placed, lost, rfl, h, fun j hj => by omega⟩
  | succ m ih =>
    obtain ⟨r₁, placed₁, lost₁, hr₁, hmoving₁, hdone₁⟩ := ih (by omega)
    obtain ⟨r₂, placed₂, lost₂, hr₂, hmoving₂, hdone₂, hkeep⟩ :=
      hmoving₁.bucket hcard (j := m) (by omega)
    refine ⟨r₂, placed₂, lost₂, ?_, hmoving₂, fun j hj => ?_⟩
    · rw [List.range_succ, List.foldlM_append, hr₁]
      simp only [Option.bind_eq_bind, Option.bind_some, List.foldlM_cons, List.foldlM_nil, hr₂]
      rfl
    · rcases Nat.lt_succ_iff_lt_or_eq.1 hj with hlt | heq
      · exact hkeep j (hdone₁ j hlt)
      · exact heq ▸ hdone₂

theorem lost_add_placed (h : Moving P hashfn n e all placed lost 0 r)
    (hdone : ∀ j < n, r.flags.isEither j = true) : lost + placed = all := by
  have hnone : Slots.content n (r.oldAt n) = 0 := by
    refine content_of_none fun j hj => ?_
    rw [Rehash.oldAt, if_neg]
    rw [hdone j hj]
    exact fun hp => Bool.noConfusion hp.2
  have hcontent := h.content
  rwa [hnone, zero_add] at hcontent

/-- The buckets of the new table are as many as the elements that there were, some of them with
copies where elements were lost. -/
theorem card_newAt (h : Moving P hashfn n e all placed lost 0 r)
    (hdone : ∀ j < n, r.flags.isEither j = true) :
    Multiset.card (Slots.content (2 ^ (e + 1)) r.newAt) = Multiset.card all := by
  have hplaced := h.card_placed
  rw [Multiset.card_zero, add_zero] at hplaced
  rw [hplaced, ← h.lost_add_placed hdone, Multiset.card_add, add_comm]

/-- The new table has the elements that were not lost. -/
theorem mem_newAt (h : Moving P hashfn n e all placed lost 0 r)
    (hdone : ∀ j < n, r.flags.isEither j = true) (hnodup : (all.map Prod.fst).Nodup) (p : K × V) :
    p ∈ Slots.content (2 ^ (e + 1)) r.newAt ↔ p ∈ all ∧ p.1 ∉ r.lost := by
  have hsplit := h.lost_add_placed hdone
  have hmem := h.mem_placed p
  rw [add_zero] at hmem
  rw [← hsplit, Multiset.map_add] at hnodup
  have hlost : p.1 ∈ r.lost ↔ p.1 ∈ lost.map Prod.fst := by
    rw [← h.lost_keys, Multiset.mem_coe]
  rw [hmem, hlost, ← hsplit, Multiset.mem_add]
  constructor
  · intro hp
    refine ⟨.inr hp, fun hkey => ?_⟩
    exact Multiset.disjoint_left.1 (Multiset.nodup_add.1 hnodup).2.2 hkey
      (Multiset.mem_map_of_mem Prod.fst hp)
  · intro hp
    exact hp.1.resolve_left fun hin => hp.2 (Multiset.mem_map_of_mem Prod.fst hin)

/-- Where nothing was lost, the new table has the elements that there were. -/
theorem content_newAt (h : Moving P hashfn n e all placed lost 0 r)
    (hdone : ∀ j < n, r.flags.isEither j = true) (hnodup : (all.map Prod.fst).Nodup)
    (hlost : r.lost = []) : Slots.content (2 ^ (e + 1)) r.newAt = all := by
  refine (Multiset.eq_of_le_of_card_le ?_ (h.card_newAt hdone).le).symm
  refine (Multiset.le_iff_subset (Multiset.Nodup.of_map _ hnodup)).2 fun p hp => ?_
  refine (h.mem_newAt hdone hnodup p).2 ⟨hp, ?_⟩
  rw [hlost]
  exact List.not_mem_nil

end Moving

/-! ## Tables -/

/-- What a table has in bucket `i`. -/
def bucketAt (h : AlignHash K V) (i : ℕ) : Option (K × V) :=
  if h.flags.isEither i = false then pairAt h.keys h.vals i else none

/-- Whether bucket `i` has been used since the last `alignhash_resize`. -/
def usedAt (h : AlignHash K V) (i : ℕ) : Option Unit :=
  if h.flags.isEmpty i then none else some ()

/-- The elements of a table. -/
def elements (h : AlignHash K V) : Multiset (K × V) := content h.nbucket h.bucketAt

/-- A table that `alignhash_get` can search. -/
structure Searchable (P : Probing) (hashfn : K → ℕ) (h : AlignHash K V) : Prop where
  nbucket : h.nbucket = 0 ∧ h.flags = [] ∧ h.sup = 0 ∨
    (∃ e, h.nbucket = 2 ^ (e + 1)) ∧ h.sup = P.upperBound h.nbucket
  flags_length : h.nbucket ≤ 32 * h.flags.length
  keys_length : h.nbucket ≤ h.keys.length
  vals_length : h.nbucket ≤ h.vals.length
  bucket_some : ∀ i < h.nbucket, h.flags.isEither i = false → (pairAt h.keys h.vals i).isSome
  chained : Chained P hashfn h.nbucket h.flags.isEmpty h.bucketAt

/-- **The invariant of a table** that has lost no element. -/
structure Formed (P : Probing) (hashfn : K → ℕ) (h : AlignHash K V) : Prop extends
    Searchable P hashfn h where
  size_eq : h.size = Multiset.card h.elements
  nused_eq : h.nused = Multiset.card (content h.nbucket h.usedAt)
  nused_le : h.nused ≤ h.sup
  nodup : (h.elements.map Prod.fst).Nodup
  lost : h.lost = []

variable {t t' : AlignHash K V}

theorem formed_construct (P : Probing) (hashfn : K → ℕ) : Formed P hashfn (construct K V) where
  nbucket := Or.inl ⟨rfl, rfl, rfl⟩
  flags_length := Nat.zero_le _
  keys_length := Nat.zero_le _
  vals_length := Nat.zero_le _
  bucket_some i hi := absurd hi (Nat.not_lt_zero i)
  chained i hi := absurd hi (Nat.not_lt_zero i)
  size_eq := rfl
  nused_eq := rfl
  nused_le := le_rfl
  nodup := Multiset.nodup_zero
  lost := rfl

/-- The table with other arrays. -/
def withArrays (t : AlignHash K V) (keys : List (Option K)) (vals : List (Option V)) :
    AlignHash K V :=
  { t with keys := keys, vals := vals }

/-- Other arrays have the buckets of the table. -/
structure SameBuckets (t : AlignHash K V) (keys : List (Option K)) (vals : List (Option V)) :
    Prop where
  keys_length : t.nbucket ≤ keys.length
  vals_length : t.nbucket ≤ vals.length
  pair : ∀ i < t.nbucket, pairAt keys vals i = pairAt t.keys t.vals i

section

variable (hsame : SameBuckets t keys vals)
include hsame

theorem SameBuckets.bucketAt_eq (hi : i < t.nbucket) :
    (t.withArrays keys vals).bucketAt i = t.bucketAt i := by
  rw [bucketAt, bucketAt]
  show (if t.flags.isEither i = false then pairAt keys vals i else none) = _
  rw [hsame.pair i hi]

theorem SameBuckets.elements_eq : (t.withArrays keys vals).elements = t.elements :=
  content_congr fun _ hi => hsame.bucketAt_eq hi

theorem Searchable.withArrays (h : Searchable P hashfn t) :
    Searchable P hashfn (t.withArrays keys vals) := by
  refine ⟨h.nbucket, h.flags_length, hsame.keys_length, hsame.vals_length, fun i hi hflag => ?_,
    fun i hi p hp => ?_⟩
  · show (pairAt keys vals i).isSome
    rw [hsame.pair i hi]
    exact h.bucket_some i hi hflag
  · rw [hsame.bucketAt_eq hi] at hp
    exact h.chained i hi p hp

/-- Other arrays with the same buckets are the same table. -/
theorem Formed.withArrays (h : Formed P hashfn t) : Formed P hashfn (t.withArrays keys vals) := by
  refine ⟨h.toSearchable.withArrays hsame, ?_, h.nused_eq, h.nused_le, ?_, h.lost⟩
  · rw [hsame.elements_eq]
    exact h.size_eq
  · rw [hsame.elements_eq]
    exact h.nodup

end

theorem length_resized {α : Type} (array : List (Option α)) (n : ℕ) :
    (resized array n).length = n := by
  rw [resized, List.length_take, List.length_append, List.length_replicate]
  omega

theorem getD_resized {α : Type} (array : List (Option α)) (hi : i < n) :
    (resized array n).getD i none = array.getD i none := by
  rw [resized, List.getD_eq_getElem?_getD, List.getElem?_take_of_lt hi, List.getD_eq_getElem?_getD]
  by_cases hlt : i < array.length
  · rw [List.getElem?_append_left hlt]
  · rw [List.getElem?_append_right (by omega), List.getElem?_eq_none (l := array) (by omega),
      List.getElem?_replicate]
    split_ifs <;> rfl

theorem length_shrunk {α : Type} (array : List (Option α)) (b : Bool) (hn : n ≤ array.length) :
    n ≤ (if b then resized array n else array).length := by
  split_ifs
  · rw [length_resized]
  · exact hn

theorem getD_shrunk {α : Type} (array : List (Option α)) (b : Bool) (hi : i < n) :
    (if b then resized array n else array).getD i none = array.getD i none := by
  split_ifs
  · exact getD_resized array hi
  · rfl

theorem pairAt_congr {keys' : List (Option K)} {vals' : List (Option V)}
    (hkeys : keyAt keys' i = keyAt keys i) (hvals : vals'.getD i none = vals.getD i none) :
    pairAt keys' vals' i = pairAt keys vals i := by
  rw [pairAt, pairAt, hkeys, hvals]

theorem Searchable.grown (h : Searchable P hashfn t) (b : Bool) (hlt : t.nbucket < n) :
    SameBuckets t (resized t.keys n) (if b then resized t.vals n else t.vals) where
  keys_length := by
    rw [length_resized]
    exact hlt.le
  vals_length := by
    split_ifs
    · rw [length_resized]
      exact hlt.le
    · exact h.vals_length
  pair i hi := pairAt_congr (getD_resized t.keys (hi.trans hlt))
    (getD_shrunk t.vals b (hi.trans hlt))

/-! ## `alignhash_resize` -/

/-- **What `alignhash_resize` does to the elements**: it loses some. -/
structure Resized (P : Probing) (hashfn : K → ℕ) (t t' : AlignHash K V) : Prop where
  searchable : Searchable P hashfn t'
  mem_elements : ∀ p, p ∈ t'.elements ↔ p ∈ t.elements ∧ p.1 ∉ t'.lost
  lost_sub : ∀ key ∈ t'.lost, key ∈ t.elements.map Prod.fst
  size_eq : t'.size = t.size
  formed : t'.lost = [] → Formed P hashfn t' ∧ t'.elements = t.elements

theorem Formed.resized_self (h : Formed P hashfn t) : Resized P hashfn t t where
  searchable := h.toSearchable
  mem_elements p := by simp [h.lost]
  lost_sub key hkey := by
    rw [h.lost] at hkey
    exact absurd hkey List.not_mem_nil
  size_eq := rfl
  formed _ := ⟨h, rfl⟩

/-- Arrays may be replaced before. -/
theorem Resized.of_withArrays (hsame : SameBuckets t keys vals)
    (h : Resized P hashfn (t.withArrays keys vals) t') : Resized P hashfn t t' := by
  have hmem := h.mem_elements
  have hsub := h.lost_sub
  have hformed := h.formed
  rw [hsame.elements_eq] at hmem hsub hformed
  exact ⟨h.searchable, hmem, hsub, h.size_eq, hformed⟩

theorem Resized.withArrays (h : Resized P hashfn t t') (hsame : SameBuckets t' keys vals) :
    Resized P hashfn t (t'.withArrays keys vals) where
  searchable := h.searchable.withArrays hsame
  mem_elements p := by
    rw [hsame.elements_eq]
    exact h.mem_elements p
  lost_sub := h.lost_sub
  size_eq := h.size_eq
  formed hlost := by
    rw [hsame.elements_eq]
    exact ⟨(h.formed hlost).1.withArrays hsame, (h.formed hlost).2⟩

theorem Formed.moving (h : Formed P hashfn t) (hkeys : 2 ^ (e + 1) ≤ t.keys.length)
    (hvals : 2 ^ (e + 1) ≤ t.vals.length) :
    Moving P hashfn t.nbucket e t.elements 0 0 0
      ⟨t.flags, Flags.allEmpty (2 ^ (e + 1)), t.keys, t.vals, t.lost⟩ := by
  have hlength := Flags.le_length_allEmpty e
  have hempty : ∀ i < 2 ^ (e + 1), (Flags.allEmpty (2 ^ (e + 1))).isEmpty i = true :=
    fun i hi => Flags.isEmpty_allEmpty (hi.trans_le hlength)
  have hnone : ∀ i < 2 ^ (e + 1),
      Rehash.newAt ⟨t.flags, Flags.allEmpty (2 ^ (e + 1)), t.keys, t.vals, t.lost⟩ i = none := by
    intro i hi
    rw [Rehash.newAt, if_neg (by simp [hempty i hi])]
  refine ⟨h.flags_length, hlength, ⟨h.keys_length, hkeys⟩, ⟨h.vals_length, hvals⟩, ?_, fun p => ?_,
    ?_, ?_, ?_, h.bucket_some, ?_, ?_, ?_⟩
  · rw [add_zero, add_zero]
    refine content_congr fun i hi => ?_
    rw [Rehash.oldAt, bucketAt]
    simp only [hi, true_and]
  · rw [content_of_none hnone, add_zero]
  · rw [content_of_none hnone]
  · rw [h.lost]
    rfl
  · exact fun i _ _ hi => hempty i hi
  · intro i hi hfalse
    rw [show Flags.isEmpty _ i = (Flags.allEmpty (2 ^ (e + 1))).isEmpty i from rfl, hempty i hi]
      at hfalse
    exact Bool.noConfusion hfalse
  · exact fun i hi => Flags.isDel_allEmpty (hi.trans_le hlength)
  · intro i hi p hp
    rw [hnone i hi] at hp
    cases hp

/-- The table that the loops leave. -/
def Rehash.table (P : Probing) (r : Rehash K V) (size e : ℕ) : AlignHash K V :=
  ⟨2 ^ (e + 1), size, size, P.upperBound (2 ^ (e + 1)), r.newFlags, r.keys, r.vals, r.lost⟩

namespace Moving

variable {m size : ℕ}

theorem isEither_eq (h : Moving P hashfn n e all placed lost hand r) (hi : i < 2 ^ (e + 1)) :
    r.newFlags.isEither i = r.newFlags.isEmpty i := by
  rw [Flags.isEither_eq, h.new_isDel i hi, Bool.false_or]

theorem bucketAt_table (h : Moving P hashfn n e all placed lost hand r) (hi : i < 2 ^ (e + 1)) :
    (r.table P size e).bucketAt i = r.newAt i := by
  rw [bucketAt, Rehash.newAt]
  show (if r.newFlags.isEither i = false then _ else _) = _
  rw [h.isEither_eq hi]
  rfl

theorem elements_table (h : Moving P hashfn n e all placed lost hand r) :
    (r.table P size e).elements = Slots.content (2 ^ (e + 1)) r.newAt :=
  content_congr fun _ hi => h.bucketAt_table hi

theorem searchable (h : Moving P hashfn n e all placed lost hand r) :
    Searchable P hashfn (r.table P size e) where
  nbucket := .inr ⟨⟨e, rfl⟩, rfl⟩
  flags_length := h.newFlags_length
  keys_length := h.keys_length.2
  vals_length := h.vals_length.2
  bucket_some i hi hflag := h.new_some i hi ((h.isEither_eq hi).symm.trans hflag)
  chained i hi p hp := by
    rw [h.bucketAt_table hi] at hp
    exact h.chained i hi p hp

/-- No bucket of the new table is deleted: as many are used as have data. -/
theorem card_usedAt (h : Moving P hashfn n e all placed lost hand r) :
    Multiset.card (Slots.content (2 ^ (e + 1)) (r.table P size e).usedAt) =
      Multiset.card (Slots.content (2 ^ (e + 1)) r.newAt) := by
  rw [card_content, card_content]
  refine List.countP_congr fun i hi => ?_
  rw [List.mem_range] at hi
  rw [usedAt, Rehash.newAt]
  show (if r.newFlags.isEmpty i then none else some ()).isSome = true ↔ _
  cases hempty : r.newFlags.isEmpty i with
  | true => simp
  | false => simp [h.new_some i hi hempty]

theorem resized (hmoving : Moving P hashfn m e t.elements placed lost 0 r) (h : Formed P hashfn t)
    (hsize : t.size < P.upperBound (2 ^ (e + 1))) (hdone : ∀ j < m, r.flags.isEither j = true) :
    Resized P hashfn t (r.table P t.size e) where
  searchable := hmoving.searchable
  mem_elements p := by
    rw [hmoving.elements_table]
    exact hmoving.mem_newAt hdone h.nodup p
  lost_sub key hkey := by
    have hkey' : key ∈ (r.lost : Multiset K) := hkey
    rw [hmoving.lost_keys] at hkey'
    rw [← hmoving.lost_add_placed hdone, Multiset.map_add]
    exact Multiset.mem_add.2 (.inl hkey')
  size_eq := rfl
  formed hlost := by
    have hcontent := hmoving.content_newAt hdone h.nodup hlost
    have helements : (r.table P t.size e).elements = t.elements :=
      hmoving.elements_table.trans hcontent
    refine ⟨⟨hmoving.searchable, ?_, ?_, hsize.le, ?_, hlost⟩, helements⟩
    · rw [helements]
      exact h.size_eq
    · show t.size = Multiset.card (Slots.content (2 ^ (e + 1)) _)
      rw [hmoving.card_usedAt, hcontent]
      exact h.size_eq
    · rw [helements]
      exact h.nodup

end Moving

variable [DecidableEq K]

/-- **The loops end.** -/
theorem Formed.rehash_moves (h : Formed P hashfn t) (hkeys : 2 ^ (e + 1) ≤ t.keys.length)
    (hvals : 2 ^ (e + 1) ≤ t.vals.length) (hsize : t.size < P.upperBound (2 ^ (e + 1)))
    (mem : Memory) :
    ∃ t', t.rehash P hashfn (2 ^ (e + 1)) mem = some t' ∧ Resized P hashfn t t' ∧
      t'.nbucket = 2 ^ (e + 1) ∧ t'.nused = t.size := by
  have hcard : Multiset.card t.elements ≤ 2 ^ (e + 1) := by
    rw [← h.size_eq]
    exact hsize.le.trans (P.upperBound_le e)
  obtain ⟨r, placed, lost, hr, hmoving, hdone⟩ := (h.moving hkeys hvals).buckets hcard le_rfl
  have hshrunk : SameBuckets (r.table P t.size e)
      (if decide (2 ^ (e + 1) < t.nbucket) && mem.keys then resized r.keys (2 ^ (e + 1)) else r.keys)
      (if decide (2 ^ (e + 1) < t.nbucket) && mem.vals then resized r.vals (2 ^ (e + 1))
        else r.vals) :=
    ⟨length_shrunk r.keys _ hmoving.keys_length.2, length_shrunk r.vals _ hmoving.vals_length.2,
      fun i hi => pairAt_congr (getD_shrunk r.keys _ hi) (getD_shrunk r.vals _ hi)⟩
  refine ⟨_, ?_, (hmoving.resized h hsize hdone).withArrays hshrunk, rfl, rfl⟩
  rw [rehash, hr]
  rfl

/-- **`alignhash_resize`.** A table can be made larger or smaller in place, to any power of two that
its elements fit in: what is not lost on the way is in the new table, and nothing is left of what
was deleted. It says that it failed exactly if they do not fit or memory is refused, and then the
table has what it had. -/
theorem Formed.resize_spec (h : Formed P hashfn t) (e : ℕ) (mem : Memory) :
    ∃ t' ok, t.resize P hashfn (2 ^ (e + 1)) mem = some (t', ok) ∧ Resized P hashfn t t' ∧
      (ok = true ↔ t.size < P.upperBound (2 ^ (e + 1)) ∧ mem.flags = true ∧
        (t.nbucket < 2 ^ (e + 1) → mem.keys = true ∧ mem.vals = true)) ∧
      (ok = true → t'.nbucket = 2 ^ (e + 1) ∧ t'.nused = t.size) ∧
      (ok = false → t'.nbucket = t.nbucket ∧ t'.lost = []) := by
  by_cases hsize : t.size < P.upperBound (2 ^ (e + 1))
  · cases hflags : mem.flags with
    | false =>
      refine ⟨t, false, ?_, h.resized_self, ?_, fun hok => Bool.noConfusion hok, fun _ => ⟨rfl, h.lost⟩⟩
      · rw [resize, if_neg (by omega), if_pos hflags]
      · simp
    | true =>
      by_cases hlt : t.nbucket < 2 ^ (e + 1)
      · cases hkeys : mem.keys with
        | false =>
          refine ⟨t, false, ?_, h.resized_self, ?_, fun hok => Bool.noConfusion hok,
            fun _ => ⟨rfl, h.lost⟩⟩
          · rw [resize, if_neg (by omega), if_neg (by simp [hflags]), if_pos hlt, if_pos hkeys]
          · simp [hlt]
        | true =>
          cases hvals : mem.vals with
          | false =>
            have hgrow := h.grown false hlt
            refine ⟨_, false, ?_, (h.withArrays hgrow).resized_self.of_withArrays hgrow, ?_,
              fun hok => Bool.noConfusion hok, fun _ => ⟨rfl, h.lost⟩⟩
            · rw [resize, if_neg (by omega), if_neg (by simp [hflags]), if_pos hlt,
                if_neg (by simp [hkeys]), if_pos hvals]
              rfl
            · simp [hlt]
          | true =>
            have hgrow := h.grown true hlt
            obtain ⟨t', ht', hresized, hnbucket, hnused⟩ :=
              (h.withArrays hgrow).rehash_moves (e := e) (length_resized _ _).ge
                (length_resized _ _).ge hsize mem
            refine ⟨t', true, ?_, hresized.of_withArrays hgrow, ?_, fun _ => ⟨hnbucket, hnused⟩,
              fun hok => Bool.noConfusion hok⟩
            · rw [resize, if_neg (by omega), if_neg (by simp [hflags]), if_pos hlt,
                if_neg (by simp [hkeys]), if_neg (by simp [hvals])]
              exact congrArg (Option.map fun h => (h, true)) ht'
            · simp [hsize, hlt]
      · have hge : 2 ^ (e + 1) ≤ t.nbucket := Nat.le_of_not_lt hlt
        obtain ⟨t', ht', hresized, hnbucket, hnused⟩ :=
          h.rehash_moves (hge.trans h.keys_length) (hge.trans h.vals_length) hsize mem
        refine ⟨t', true, ?_, hresized, ?_, fun _ => ⟨hnbucket, hnused⟩,
          fun hok => Bool.noConfusion hok⟩
        · rw [resize, if_neg (by omega), if_neg (by simp [hflags]), if_neg hlt, ht']
          rfl
        · simp [hsize, hlt]
  · refine ⟨t, false, ?_, h.resized_self, ?_, fun hok => Bool.noConfusion hok, fun _ => ⟨rfl, h.lost⟩⟩
    · rw [resize, if_pos (by omega)]
    · simp [hsize]

end AlignHash

end Naesala
