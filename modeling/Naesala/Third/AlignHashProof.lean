import Naesala.Library.Machine
import Naesala.Library.Pairs
import Naesala.Third.AlignHashResize

/-!
# `align_hash_map` is a finite map

A probe that meets no empty bucket before a key's own finds it, so `Searchable` lets `alignhash_get`
and `alignhash_set` search. `alignhash_set` takes a deleted bucket only after it has looked as far as
an empty one, so no key gets two buckets.

A call may lose elements where the table grows, and the table is no finite map after that: some keys
are gone, and others have several buckets. So the runs here are those whose calls lose nothing.

**Theorem (`refines`).** In every such run, whatever the hash function, the probing and the memory
that is refused, the table shows what a finite map shows after the same calls. Each call ends, also
one that loses elements. A call that throws leaves the map as it was, and it throws only if it has
to allocate and cannot.

**Theorem (`resize_in_place`).** `alignhash_resize` to any power of two ends, and what is found
after it is what was there before, without the keys that it lost.
-/

namespace Naesala

namespace AlignHash

open Slots

variable {K V : Type} {P : Probing} {hashfn : K → ℕ} {t : AlignHash K V} {key : K} {val : V}
variable {e d i : ℕ}

/-! ## Buckets -/

theorem bucketAt_eq_some {p : K × V} : t.bucketAt i = some p ↔
    t.flags.isEither i = false ∧ keyAt t.keys i = some p.1 ∧ t.vals.getD i none = some p.2 := by
  rw [bucketAt]
  split_ifs with hflag
  · rw [pairAt_eq_some]
    exact ⟨fun hp => ⟨hflag, hp⟩, fun hp => hp.2⟩
  · simp [hflag]

theorem Searchable.bucketAt_of_isEither (h : Searchable P hashfn t) (hi : i < t.nbucket)
    (hflag : t.flags.isEither i = false) : ∃ p, t.bucketAt i = some p := by
  obtain ⟨p, hp⟩ := Option.isSome_iff_exists.1 (h.bucket_some i hi hflag)
  exact ⟨p, by rw [bucketAt, if_pos hflag, hp]⟩

theorem Formed.eq_of_key (h : Formed P hashfn t) {i j : ℕ} (hi : i < t.nbucket) (hj : j < t.nbucket)
    {p q : K × V} (hp : t.bucketAt i = some p) (hq : t.bucketAt j = some q) (hkey : p.1 = q.1) :
    i = j :=
  eq_of_nodup h.nodup hi hj hp hq hkey

/-- The table has no bucket for the key. -/
def Absent (t : AlignHash K V) (key : K) : Prop :=
  ∀ i < t.nbucket, ∀ val, t.bucketAt i ≠ some (key, val)

theorem isEmpty_of_bucketAt {p : K × V} (hp : t.bucketAt i = some p) :
    t.flags.isEmpty i = false := by
  have hflag := (bucketAt_eq_some.1 hp).1
  rw [Flags.isEither_eq, Bool.or_eq_false_iff] at hflag
  exact hflag.2

/-- A table with fewer used buckets than it may have has an empty one. -/
theorem Formed.exists_isEmpty (h : Formed P hashfn t) (hroom : t.nused < t.nbucket) :
    ∃ i < t.nbucket, t.flags.isEmpty i = true := by
  by_contra hnone
  have hfull : ∀ i < t.nbucket, (t.usedAt i).isSome := by
    intro i hi
    have hempty : t.flags.isEmpty i = false := by
      rw [← Bool.not_eq_true]
      exact fun hempty => hnone ⟨i, hi, hempty⟩
    rw [usedAt, hempty]
    rfl
  have hcard := h.nused_eq
  rw [card_content, List.countP_eq_length.2 fun i hi => hfull i (List.mem_range.1 hi),
    List.length_range] at hcard
  omega

theorem Formed.sup_le (h : Formed P hashfn t) : t.sup ≤ t.nbucket := by
  rcases h.nbucket with ⟨-, -, hsup⟩ | ⟨⟨e, hn⟩, hsup⟩
  · omega
  · rw [hsup, hn]
    exact P.upperBound_le e

/-! ## Probing -/

theorem path_lt_nbucket (hn : t.nbucket = 2 ^ (e + 1)) (key : K) (d : ℕ) :
    path P hashfn t.nbucket key d < t.nbucket := by
  rw [hn]
  exact path_lt P hashfn e key d

theorem carried_site (hn : t.nbucket = 2 ^ (e + 1)) (key : K) (d : ℕ) {site : ℕ}
    (hsite : Cyclic.carried (next P hashfn t.nbucket key)
      (fun site i => if t.flags.isDel i then i else site) (hashfn key &&& (t.nbucket - 1))
      t.nbucket d = site) :
    site = t.nbucket ∨ ∃ j < d, path P hashfn t.nbucket key j = site ∧ t.flags.isDel site = true := by
  rw [← hsite]
  refine Cyclic.carried_invariant (P := fun site => site = t.nbucket ∨
    ∃ j < d, path P hashfn t.nbucket key j = site ∧ t.flags.isDel site = true) (Or.inl rfl) ?_
  intro site j hj hP
  have hpath : (next P hashfn t.nbucket key)^[j] (hashfn key &&& (t.nbucket - 1)) =
      path P hashfn t.nbucket key j := by
    rw [hn]
    exact iterate_next P hashfn e key j
  rw [hpath]
  show (if t.flags.isDel _ then _ else _) = _ ∨ _
  split_ifs with hdel
  · exact Or.inr ⟨j, hj, rfl, hdel⟩
  · exact hP

theorem Searchable.start_not_isEmpty (h : Searchable P hashfn t) (hn : t.nbucket = 2 ^ (e + 1))
    (hi : i < t.nbucket) (hp : t.bucketAt i = some (key, val)) :
    t.flags.isEmpty (hashfn key &&& (t.nbucket - 1)) = false := by
  obtain ⟨d, -, hpath, hempty⟩ := h.chained i hi _ hp
  have hstart : path P hashfn t.nbucket key 0 = hashfn key &&& (t.nbucket - 1) := by
    rw [hn]
    exact (iterate_next P hashfn e key 0).symm
  rw [← hstart]
  rcases Nat.eq_zero_or_pos d with rfl | hd
  · rw [hpath]
    exact isEmpty_of_bucketAt hp
  · exact hempty 0 hd

variable [DecidableEq K]

theorem probing_eq_false : t.probing key i = false ↔
    t.flags.isEmpty i = true ∨ t.flags.isEither i = false ∧ keyAt t.keys i = some key := by
  rw [probing, Flags.isEither_eq]
  cases t.flags.isEmpty i <;> cases t.flags.isDel i <;> simp

/-- Where the loop of `alignhash_get` and `alignhash_set` ends: at the first bucket at which it may,
or, if there is none, where it began. -/
theorem turn_cases {ι : Type} (P : Probing) (hashfn : K → ℕ) (hn : t.nbucket = 2 ^ (e + 1))
    (key : K)
    (f : ι → ℕ → ι) (acc : ι) :
    (∃ d < t.nbucket, t.probing key (path P hashfn t.nbucket key d) = false ∧
      (∀ j < d, t.probing key (path P hashfn t.nbucket key j) = true) ∧
      turn (t.probing key) (next P hashfn t.nbucket key) f (hashfn key &&& (t.nbucket - 1)) t.nbucket
          (hashfn key &&& (t.nbucket - 1)) acc =
        some (path P hashfn t.nbucket key d, Cyclic.carried (next P hashfn t.nbucket key) f
          (hashfn key &&& (t.nbucket - 1)) acc d, false)) ∨
    (∀ d < t.nbucket, t.probing key (path P hashfn t.nbucket key d) = true) ∧
      turn (t.probing key) (next P hashfn t.nbucket key) f (hashfn key &&& (t.nbucket - 1))
          t.nbucket (hashfn key &&& (t.nbucket - 1)) acc =
        some (hashfn key &&& (t.nbucket - 1), Cyclic.carried (next P hashfn t.nbucket key) f
          (hashfn key &&& (t.nbucket - 1)) acc t.nbucket, true) := by
  have hpos : 0 < 2 ^ (e + 1) := Nat.two_pow_pos _
  rw [hn]
  have hpath := iterate_next P hashfn e key
  have hstart : path P hashfn (2 ^ (e + 1)) key 0 = hashfn key &&& (2 ^ (e + 1) - 1) :=
    (hpath 0).symm
  -- it is not back before a whole turn
  have hlast : ∀ j, j + 1 < 2 ^ (e + 1) → (next P hashfn (2 ^ (e + 1)) key)^[j + 1]
      (hashfn key &&& (2 ^ (e + 1) - 1)) ≠ hashfn key &&& (2 ^ (e + 1) - 1) := by
    intro j hj heq
    rw [hpath, ← hstart] at heq
    exact absurd (path_injective hj hpos heq) (Nat.succ_ne_zero j)
  by_cases hex : ∃ d, d < 2 ^ (e + 1) ∧ t.probing key (path P hashfn (2 ^ (e + 1)) key d) = false
  · left
    classical
    obtain ⟨hd, hstop⟩ := Nat.find_spec hex
    have hbefore : ∀ j < Nat.find hex,
        t.probing key (path P hashfn (2 ^ (e + 1)) key j) = true := by
      intro j hj
      rw [← Bool.not_eq_false]
      exact fun hfalse => Nat.find_min hex hj ⟨hj.trans hd, hfalse⟩
    refine ⟨Nat.find hex, hd, hstop, hbefore, ?_⟩
    rw [← hpath]
    refine Cyclic.turn_stops hd ?_ ?_ fun j hj => hlast j (by omega)
    · rw [hpath]
      exact hstop
    · intro j hj
      rw [hpath]
      exact hbefore j hj
  · right
    have hall : ∀ d < 2 ^ (e + 1), t.probing key (path P hashfn (2 ^ (e + 1)) key d) = true := by
      intro d hd
      rw [← Bool.not_eq_false]
      exact fun hfalse => hex ⟨d, hd, hfalse⟩
    have hturns : 2 ^ (e + 1) - 1 + 1 = 2 ^ (e + 1) := by omega
    refine ⟨hall, ?_⟩
    conv_rhs => rw [← hturns]
    refine Cyclic.turn_gives_up (by omega) ?_ (fun j hj => hlast j (by omega)) ?_
    · intro j hj
      rw [hpath]
      exact hall j (by omega)
    · rw [hturns, hpath, path, Nat.add_mul_mod_self_left, and_mask, Nat.mod_mod]

/-- The loop ends at a bucket with the key, if the table has one. -/
theorem Searchable.stops_at_key (h : Searchable P hashfn t) (hn : t.nbucket = 2 ^ (e + 1))
    (hi : i < t.nbucket) (hp : t.bucketAt i = some (key, val))
    (hstop : t.probing key (path P hashfn t.nbucket key d) = false)
    (hbefore : ∀ j < d, t.probing key (path P hashfn t.nbucket key j) = true) :
    ∃ val', t.bucketAt (path P hashfn t.nbucket key d) = some (key, val') := by
  obtain ⟨d', hd', hpath, hempty⟩ := h.chained i hi _ hp
  have hstop' : t.probing key (path P hashfn t.nbucket key d') = false := by
    rw [hpath]
    obtain ⟨hflag, hkey, -⟩ := bucketAt_eq_some.1 hp
    exact probing_eq_false.2 (Or.inr ⟨hflag, hkey⟩)
  have hle : d ≤ d' := by
    by_contra hlt
    have := hbefore d' (by omega)
    rw [hstop'] at this
    exact Bool.noConfusion this
  rcases hle.lt_or_eq with hlt | rfl
  · -- a bucket before is not empty, so the loop has stopped there for the key
    rcases probing_eq_false.1 hstop with hfalse | ⟨hflag, hkey⟩
    · rw [hempty d hlt] at hfalse
      exact Bool.noConfusion hfalse
    · have hlt' : path P hashfn t.nbucket key d < t.nbucket := by
        rw [hn]
        exact path_lt P hashfn e key d
      obtain ⟨⟨key', val'⟩, hq⟩ := h.bucketAt_of_isEither hlt' hflag
      obtain rfl : key' = key := Option.some_inj.1 ((bucketAt_eq_some.1 hq).2.1.symm.trans hkey)
      exact ⟨val', hq⟩
  · exact ⟨val, hpath ▸ hp⟩

theorem Searchable.isEmpty_of_stop (h : Searchable P hashfn t) (habsent : Absent t key)
    (hi : i < t.nbucket) (hstop : t.probing key i = false) : t.flags.isEmpty i = true := by
  rcases probing_eq_false.1 hstop with hempty | ⟨hflag, hkey⟩
  · exact hempty
  · obtain ⟨⟨key', val⟩, hp⟩ := h.bucketAt_of_isEither hi hflag
    have hkey' : key' = key := Option.some_inj.1 ((bucketAt_eq_some.1 hp).2.1.symm.trans hkey)
    exact absurd (hkey' ▸ hp) (habsent i hi val)

theorem Searchable.exists_stop (h : Searchable P hashfn t) (hi : i < t.nbucket)
    (hp : t.bucketAt i = some (key, val)) :
    ∃ d < t.nbucket, t.probing key (path P hashfn t.nbucket key d) = false := by
  obtain ⟨d, hd, hpath, -⟩ := h.chained i hi _ hp
  obtain ⟨hflag, hkey, -⟩ := bucketAt_eq_some.1 hp
  refine ⟨d, hd, ?_⟩
  rw [hpath]
  exact probing_eq_false.2 (Or.inr ⟨hflag, hkey⟩)

/-! ## `alignhash_get` -/

theorem Searchable.get_of_mem (h : Searchable P hashfn t) (hi : i < t.nbucket)
    (hp : t.bucketAt i = some (key, val)) :
    ∃ j < t.nbucket, ∃ val', t.get P hashfn key = some j ∧ t.bucketAt j = some (key, val') := by
  rcases h.nbucket with ⟨hzero, -, -⟩ | ⟨⟨e, hn⟩, -⟩
  · omega
  · rw [AlignHash.get, if_pos (by omega)]
    rcases turn_cases P hashfn hn key (fun u _ => u) () with
      ⟨d, hd, hstop, hbefore, hturn⟩ | ⟨hall, -⟩
    · obtain ⟨val', hq⟩ := h.stops_at_key hn hi hp hstop hbefore
      refine ⟨_, path_lt_nbucket hn key d, val', ?_, hq⟩
      simp only [hturn]
      simp [isEmpty_of_bucketAt hq]
    · obtain ⟨d, hd, hstop⟩ := h.exists_stop hi hp
      rw [hall d hd] at hstop
      exact Bool.noConfusion hstop

theorem Formed.get_of_mem (h : Formed P hashfn t) (hi : i < t.nbucket)
    (hp : t.bucketAt i = some (key, val)) : t.get P hashfn key = some i := by
  obtain ⟨j, hj, val', hget, hq⟩ := h.toSearchable.get_of_mem hi hp
  rw [hget, h.eq_of_key hj hi hq hp rfl]

/-- **A key that is not there**, also in a table without an empty bucket. -/
theorem Searchable.get_of_absent (h : Searchable P hashfn t) (habsent : Absent t key) :
    t.get P hashfn key = some t.nbucket := by
  rcases h.nbucket with ⟨hzero, -, -⟩ | ⟨⟨e, hn⟩, -⟩
  · rw [AlignHash.get, if_neg (by omega), hzero]
  · have hpos : 0 < 2 ^ (e + 1) := Nat.two_pow_pos _
    rw [AlignHash.get, if_pos (by omega)]
    rcases turn_cases P hashfn hn key (fun u _ => u) () with
      ⟨d, hd, hstop, -, hturn⟩ | ⟨-, hturn⟩
    · simp only [hturn]
      simp [h.isEmpty_of_stop habsent (path_lt_nbucket hn key d) hstop]
    · simp only [hturn]
      simp

/-! ## `alignhash_set` -/

theorem Searchable.site_lt (h : Searchable P hashfn t) (hpos : t.nbucket ≠ 0) (key : K) :
    ∃ x < t.nbucket, t.site P hashfn key = some x := by
  rcases h.nbucket with ⟨hzero, -, -⟩ | ⟨⟨e, hn⟩, -⟩
  · omega
  have hlt : ∀ d, path P hashfn t.nbucket key d < t.nbucket := path_lt_nbucket hn key
  have hstart : path P hashfn t.nbucket key 0 = hashfn key &&& (t.nbucket - 1) := by
    rw [hn]
    exact (iterate_next P hashfn e key 0).symm
  -- both ways out of the loop give it a bucket and what it carries, a deleted bucket or none
  have hchosen : ∀ d d' (wrapped : Bool), ∃ x < t.nbucket,
      (let site := Cyclic.carried (next P hashfn t.nbucket key)
        (fun site i => if t.flags.isDel i then i else site) (hashfn key &&& (t.nbucket - 1))
        t.nbucket d'
      let x := if wrapped then site else t.nbucket
      if x = t.nbucket then
        if t.flags.isEmpty (path P hashfn t.nbucket key d) ∧ site ≠ t.nbucket then site
        else path P hashfn t.nbucket key d
      else x) = x := by
    intro d d' wrapped
    refine ⟨_, ?_, rfl⟩
    generalize hsite : Cyclic.carried (next P hashfn t.nbucket key) _ _ _ d' = site
    have hcarried : site = t.nbucket ∨ site < t.nbucket := by
      rcases carried_site hn key d' hsite with heq | ⟨j, -, rfl, -⟩
      · exact .inl heq
      · exact .inr (hlt j)
    have hbucket := hlt d
    dsimp only
    split_ifs <;> omega
  rw [site]
  split_ifs with hempty
  · exact ⟨_, hstart ▸ hlt 0, rfl⟩
  · rcases turn_cases P hashfn hn key
        (fun site i => if t.flags.isDel i then i else site) t.nbucket with
      ⟨d, -, -, -, hturn⟩ | ⟨-, hturn⟩
    · obtain ⟨x, hx, hchoice⟩ := hchosen d d false
      refine ⟨x, hx, ?_⟩
      simp only [hturn]
      exact congrArg some hchoice
    · obtain ⟨x, hx, hchoice⟩ := hchosen 0 t.nbucket true
      refine ⟨x, hx, ?_⟩
      simp only [hturn]
      rw [hstart] at hchoice
      exact congrArg some hchoice

theorem Formed.site_of_mem (h : Formed P hashfn t) (hi : i < t.nbucket)
    (hp : t.bucketAt i = some (key, val)) : t.site P hashfn key = some i := by
  rcases h.nbucket with ⟨hzero, -, -⟩ | ⟨⟨e, hn⟩, -⟩
  · omega
  · have hempty := isEmpty_of_bucketAt hp
    have hstart := h.start_not_isEmpty hn hi hp
    rw [site, if_neg (by simp [hstart])]
    rcases turn_cases P hashfn hn key
        (fun site i => if t.flags.isDel i then i else site) t.nbucket with
      ⟨d, hd, hstop, hbefore, hturn⟩ | ⟨hall, -⟩
    · obtain ⟨val', hq⟩ := h.stops_at_key hn hi hp hstop hbefore
      simp only [hturn]
      rw [h.eq_of_key (path_lt_nbucket hn key d) hi hq hp rfl]
      simp [hempty]
    · obtain ⟨d, hd, hstop⟩ := h.exists_stop hi hp
      rw [hall d hd] at hstop
      exact Bool.noConfusion hstop

/-- **A key that is not there** goes to an empty or deleted bucket, where a probe for it finds it.
-/
theorem Formed.site_of_absent (h : Formed P hashfn t) (habsent : Absent t key)
    (hroom : t.nused < t.sup) :
    ∃ d < t.nbucket, t.site P hashfn key = some (path P hashfn t.nbucket key d) ∧
      t.flags.isEither (path P hashfn t.nbucket key d) = true ∧
      ∀ j < d, t.flags.isEmpty (path P hashfn t.nbucket key j) = false := by
  rcases h.nbucket with ⟨-, -, hsup⟩ | ⟨⟨e, hn⟩, -⟩
  · omega
  have hpos : 0 < 2 ^ (e + 1) := Nat.two_pow_pos _
  have hstart : path P hashfn t.nbucket key 0 = hashfn key &&& (t.nbucket - 1) := by
    rw [hn]
    exact (iterate_next P hashfn e key 0).symm
  have heither : ∀ i, t.flags.isEmpty i = true → t.flags.isEither i = true := by
    intro i hi
    rw [Flags.isEither_eq, hi, Bool.or_true]
  have hnotEmpty : ∀ j, t.probing key (path P hashfn t.nbucket key j) = true →
      t.flags.isEmpty (path P hashfn t.nbucket key j) = false := by
    intro j hj
    rw [probing, Bool.and_eq_true] at hj
    simpa using hj.1
  rw [site]
  cases hempty : t.flags.isEmpty (hashfn key &&& (t.nbucket - 1)) with
  | true =>
    refine ⟨0, by omega, ?_, ?_, fun j hj => absurd hj (Nat.not_lt_zero j)⟩
    · rw [hstart]
      simp
    · rw [hstart]
      exact heither _ hempty
  | false =>
    rw [if_neg (by simp)]
    rcases turn_cases P hashfn hn key
        (fun site i => if t.flags.isDel i then i else site) t.nbucket with
      ⟨d, hd, hstop, hbefore, hturn⟩ | ⟨hall, -⟩
    · have hfree := h.isEmpty_of_stop habsent (path_lt_nbucket hn key d) hstop
      generalize hsite : Cyclic.carried (next P hashfn t.nbucket key) _ _ _ d = site at hturn
      simp only [hturn]
      rcases carried_site hn key d hsite with rfl | ⟨j, hj, hpath, hdel⟩
      · -- no deleted bucket on the way: the empty one
        refine ⟨d, hd, ?_, heither _ hfree, fun j hj => hnotEmpty j (hbefore j hj)⟩
        simp
      · -- the last deleted bucket on the way
        have hne : path P hashfn t.nbucket key j ≠ t.nbucket :=
          (path_lt_nbucket hn key j).ne
        refine ⟨j, hj.trans hd, ?_, ?_, fun m hm => hnotEmpty m (hbefore m (hm.trans hj))⟩
        · rw [← hpath]
          simp [hfree, hne]
        · rw [Flags.isEither_eq, hpath, hdel, Bool.true_or]
    · obtain ⟨i, hi, hfree⟩ := h.exists_isEmpty (hroom.trans_le h.sup_le)
      have hi' : i < 2 ^ (e + 1) := hn ▸ hi
      obtain ⟨d, hd, hpath⟩ := exists_path P hashfn key hi'
      have hfalse := hnotEmpty d (hall d (hn ▸ hd))
      rw [hn, hpath, hfree] at hfalse
      exact Bool.noConfusion hfalse

/-! ## Writing -/

section

omit [DecidableEq K]

theorem occupy_eq (hflag : t.flags.isEither i = true) (key : K) : ∃ ret ≠ Ret.err,
    t.occupy key i = (⟨t.nbucket, t.size + 1, t.nused + (if t.flags.isEmpty i then 1 else 0), t.sup,
      t.flags.clearBoth i, t.keys.set i (some key), t.vals, t.lost⟩, ret) := by
  rw [occupy]
  cases hempty : t.flags.isEmpty i with
  | true => exact ⟨.new, by simp, rfl⟩
  | false =>
    have hdel : t.flags.isDel i = true := by
      rwa [Flags.isEither_eq, hempty, Bool.or_false] at hflag
    exact ⟨.del, by simp, by simp [hdel]⟩

/-- A bucket that was deleted is used already. -/
theorem card_used_put {t' : AlignHash K V} (hi : i < t.nbucket)
    (hisEmpty : ∀ j, t'.flags.isEmpty j = (t.flags.isEmpty j && decide (j ≠ i))) :
    Multiset.card (content t.nbucket t'.usedAt) =
      Multiset.card (content t.nbucket t.usedAt) + if t.flags.isEmpty i then 1 else 0 := by
  have hused : ∀ j, t'.usedAt j = Function.update t.usedAt i (some ()) j := by
    intro j
    by_cases hj : j = i
    · rw [hj, Function.update_self, usedAt, if_neg]
      simp [hisEmpty]
    · rw [Function.update_of_ne hj, usedAt, usedAt]
      simp [hisEmpty, hj]
  rw [content_congr fun j _ => hused j]
  cases hempty : t.flags.isEmpty i with
  | true =>
    rw [content_put hi (by rw [usedAt, if_pos hempty]), Multiset.card_cons]
    rfl
  | false =>
    have hsame : Function.update t.usedAt i (some ()) = t.usedAt := by
      rw [Function.update_eq_self_iff, usedAt, if_neg (by simp [hempty])]
    rw [hsame]
    rfl

/-- **Taking a bucket for a new key.** -/
theorem Formed.put (h : Formed P hashfn t) (habsent : Absent t key) (hroom : t.nused < t.sup)
    (hd : d < t.nbucket) (hi : path P hashfn t.nbucket key d = i)
    (hflag : t.flags.isEither i = true)
    (hbefore : ∀ j < d, t.flags.isEmpty (path P hashfn t.nbucket key j) = false) (val : V) :
    let t' : AlignHash K V := ⟨t.nbucket, t.size + 1,
      t.nused + (if t.flags.isEmpty i then 1 else 0), t.sup, t.flags.clearBoth i,
      t.keys.set i (some key), t.vals.set i (some val), t.lost⟩
    Formed P hashfn t' ∧ t'.elements = (key, val) ::ₘ t.elements ∧
      t'.bucketAt i = some (key, val) := by
  intro t'
  have hn : (∃ e, t.nbucket = 2 ^ (e + 1)) ∧ t.sup = P.upperBound t.nbucket := by
    rcases h.nbucket with ⟨hzero, -, -⟩ | hn
    · omega
    · exact hn
  have hlt : i < t.nbucket := by
    obtain ⟨⟨e, hn⟩, -⟩ := hn
    exact hi ▸ path_lt_nbucket hn key d
  have hwords : i < 32 * t.flags.length := hlt.trans_le h.flags_length
  have hself : pairAt t'.keys t'.vals i = some (key, val) :=
    pairAt_set_self (hlt.trans_le h.keys_length) (hlt.trans_le h.vals_length) key val
  have hother : ∀ j, j ≠ i → pairAt t'.keys t'.vals j = pairAt t.keys t.vals j :=
    fun j hj => pairAt_set_ne hj _ _
  have hisEmpty : ∀ j, t'.flags.isEmpty j = (t.flags.isEmpty j && decide (j ≠ i)) :=
    fun j => Flags.isEmpty_clearBoth hwords
  have hisEither : ∀ j, t'.flags.isEither j = (t.flags.isEither j && decide (j ≠ i)) := by
    intro j
    rw [Flags.isEither_eq, Flags.isEither_eq, hisEmpty j, Bool.and_or_distrib_right]
    exact congrArg (· || _) (Flags.isDel_clearBoth hwords)
  have hkeep : ∀ j, t.flags.isEmpty j = false → t'.flags.isEmpty j = false := by
    intro j hj
    rw [hisEmpty, hj, Bool.false_and]
  have hbucket : ∀ j, t'.bucketAt j = Function.update t.bucketAt i (some (key, val)) j := by
    intro j
    by_cases hj : j = i
    · rw [hj, Function.update_self, bucketAt, hself, if_pos]
      simp [hisEither]
    · rw [Function.update_of_ne hj, bucketAt, bucketAt, hother j hj]
      simp [hisEither, hj]
  have hnone : t.bucketAt i = none := by rw [bucketAt, if_neg (by simp [hflag])]
  have helements : t'.elements = (key, val) ::ₘ t.elements := by
    rw [elements, content_congr fun j _ => hbucket j]
    exact content_put hlt hnone _
  refine ⟨⟨⟨Or.inr hn, ?_, ?_, ?_, ?_, ?_⟩, ?_, ?_, ?_, ?_, h.lost⟩, helements, ?_⟩
  · show t.nbucket ≤ 32 * (t.flags.clearBoth i).length
    rw [Flags.length_clearBoth]
    exact h.flags_length
  · show t.nbucket ≤ (t.keys.set i (some key)).length
    rw [List.length_set]
    exact h.keys_length
  · show t.nbucket ≤ (t.vals.set i (some val)).length
    rw [List.length_set]
    exact h.vals_length
  · intro j hj hfree
    by_cases hji : j = i
    · rw [hji, hself]
      rfl
    · rw [hother j hji]
      rw [hisEither, decide_eq_true hji, Bool.and_true] at hfree
      exact h.bucket_some j hj hfree
  · exact h.chained.put hbucket hkeep hd hi hbefore
  · rw [helements, Multiset.card_cons, ← h.size_eq]
  · show t.nused + _ = Multiset.card (content t.nbucket t'.usedAt)
    rw [h.nused_eq]
    exact (card_used_put hlt hisEmpty).symm
  · show t.nused + _ ≤ t.sup
    split_ifs <;> omega
  · rw [helements, Multiset.map_cons, Multiset.nodup_cons]
    -- the key was absent, so no other bucket has it
    refine ⟨fun hmem => ?_, h.nodup⟩
    obtain ⟨⟨key', val'⟩, hp, hkey⟩ := Multiset.mem_map.1 hmem
    obtain ⟨j, hj, hp⟩ := mem_content.1 hp
    rw [show key' = key from hkey] at hp
    exact habsent j hj val' hp
  · rw [hbucket, Function.update_self]

/-- **Displacing the value of a key.** -/
theorem Formed.assign (h : Formed P hashfn t) (hi : i < t.nbucket) {val' : V}
    (hp : t.bucketAt i = some (key, val')) (val : V) :
    let t' : AlignHash K V := { t with vals := t.vals.set i (some val) }
    Formed P hashfn t' ∧ t'.elements + {(key, val')} = t.elements + {(key, val)} ∧
      t'.bucketAt i = some (key, val) := by
  intro t'
  obtain ⟨hflag, hkey, -⟩ := bucketAt_eq_some.1 hp
  have hbucket : ∀ j, t'.bucketAt j = Function.update t.bucketAt i (some (key, val)) j := by
    intro j
    by_cases hj : j = i
    · have hval : t'.vals.getD i none = some val := by
        simp [t', hi.trans_le h.vals_length]
      rw [hj, Function.update_self]
      exact bucketAt_eq_some.2 ⟨hflag, hkey, hval⟩
    · have hval : t'.vals.getD j none = t.vals.getD j none := by
        simp [t', List.getElem?_set_ne fun hij : i = j => hj hij.symm]
      rw [Function.update_of_ne hj, bucketAt, bucketAt, pairAt_congr rfl hval]
  have helements : t'.elements + {(key, val')} = t.elements + {(key, val)} := by
    have hupdate := content_update hi t.bucketAt (some (key, val))
    rw [hp] at hupdate
    rw [elements, content_congr fun j _ => hbucket j]
    exact hupdate
  have hfst : t'.elements.map Prod.fst = t.elements.map Prod.fst := by
    have hmap := congrArg (Multiset.map Prod.fst) helements
    rw [Multiset.map_add, Multiset.map_add, Multiset.map_singleton, Multiset.map_singleton] at hmap
    exact add_right_cancel hmap
  refine ⟨⟨⟨h.nbucket, h.flags_length, h.keys_length, ?_, ?_, ?_⟩, ?_, h.nused_eq, h.nused_le, ?_,
    h.lost⟩, helements, ?_⟩
  · show t.nbucket ≤ (t.vals.set i (some val)).length
    rw [List.length_set]
    exact h.vals_length
  · intro j hj hfree
    have hold := h.bucketAt_of_isEither hj hfree
    have hnew : ∃ p, t'.bucketAt j = some p := by
      by_cases hji : j = i
      · exact ⟨_, by rw [hbucket, hji, Function.update_self]⟩
      · rwa [hbucket, Function.update_of_ne hji]
    obtain ⟨p, hp⟩ := hnew
    rw [pairAt_eq_some.2 (bucketAt_eq_some.1 hp).2]
    rfl
  · intro j hj p hp'
    rw [hbucket j] at hp'
    by_cases hji : j = i
    · rw [hji, Function.update_self, Option.some_inj] at hp'
      subst hp'
      rw [hji]
      exact h.chained i hi (key, val') hp
    · rw [Function.update_of_ne hji] at hp'
      exact h.chained j hj p hp'
  · have hcard := congrArg Multiset.card hfst
    rw [Multiset.card_map, Multiset.card_map] at hcard
    exact h.size_eq.trans hcard.symm
  · rw [hfst]
    exact h.nodup
  · rw [hbucket, Function.update_self]

/-- **`alignhash_del`** of a key that the table has. -/
theorem Formed.del_spec (h : Formed P hashfn t) (hi : i < t.nbucket)
    (hp : t.bucketAt i = some (key, val)) :
    Formed P hashfn (t.del i) ∧ t.elements = (key, val) ::ₘ (t.del i).elements := by
  have hflag := (bucketAt_eq_some.1 hp).1
  have hwords : i < 32 * t.flags.length := hi.trans_le h.flags_length
  rw [del, if_pos ⟨hi.ne, hflag⟩]
  set t' : AlignHash K V := { t with flags := t.flags.setDel i, size := t.size - 1 }
  have hisEmpty : ∀ j, t'.flags.isEmpty j = t.flags.isEmpty j :=
    fun j => Flags.isEmpty_setDel hwords
  have hisEither : ∀ j, t'.flags.isEither j = (t.flags.isEither j || decide (j = i)) :=
    fun j => Flags.isEither_setDel hwords
  have hbucket : ∀ j, t'.bucketAt j = Function.update t.bucketAt i none j := by
    intro j
    by_cases hj : j = i
    · rw [hj, Function.update_self, bucketAt, if_neg]
      simp [hisEither]
    · rw [Function.update_of_ne hj, bucketAt, bucketAt, hisEither, decide_eq_false hj,
        Bool.or_false]
  have helements : t.elements = (key, val) ::ₘ t'.elements := by
    show content t.nbucket t.bucketAt = _ ::ₘ content t.nbucket t'.bucketAt
    rw [content_congr fun j _ => hbucket j]
    exact content_take hi hp
  have hcard := h.size_eq
  rw [helements, Multiset.card_cons] at hcard
  have hnodup := h.nodup
  rw [helements, Multiset.map_cons, Multiset.nodup_cons] at hnodup
  refine ⟨⟨⟨?_, ?_, h.keys_length, h.vals_length, ?_, ?_⟩, ?_, ?_, h.nused_le, hnodup.2, h.lost⟩,
    helements⟩
  · rcases h.nbucket with ⟨hzero, -, -⟩ | hn
    · omega
    · exact Or.inr hn
  · show t.nbucket ≤ 32 * (t.flags.setDel i).length
    rw [Flags.length_setDel]
    exact h.flags_length
  · intro j hj hfree
    rw [hisEither, Bool.or_eq_false_iff] at hfree
    exact h.bucket_some j hj hfree.1
  · intro j hj p hp'
    rw [hbucket j] at hp'
    by_cases hji : j = i
    · rw [hji, Function.update_self] at hp'
      cases hp'
    · rw [Function.update_of_ne hji] at hp'
      obtain ⟨d, hd, hpath, hbefore⟩ := h.chained j hj p hp'
      exact ⟨d, hd, hpath, fun m hm => (hisEmpty _).trans (hbefore m hm)⟩
  · show t.size - 1 = _
    omega
  · show t.nused = _
    rw [h.nused_eq]
    refine congrArg Multiset.card (content_congr fun j _ => ?_)
    rw [usedAt, usedAt, hisEmpty]

/-- **`alignhash_clear`.** -/
theorem Formed.clear_spec (h : Formed P hashfn t) :
    Formed P hashfn t.clear ∧ t.clear.elements = 0 := by
  rw [clear]
  rcases h.nbucket with ⟨hzero, hflags, -⟩ | ⟨⟨e, hn⟩, hsup⟩
  · rw [if_pos hflags]
    refine ⟨h, ?_⟩
    rw [elements, hzero]
    rfl
  · have hpos : 0 < 2 ^ (e + 1) := Nat.two_pow_pos _
    have hflags : t.flags ≠ [] := by
      intro hnil
      have hlength := h.flags_length
      rw [hnil, List.length_nil] at hlength
      omega
    rw [if_neg hflags]
    set t' : AlignHash K V :=
      { t with flags := Flags.allEmpty t.nbucket, size := 0, nused := 0 }
    have hlength : t.nbucket ≤ 32 * (Flags.allEmpty t.nbucket).length := by
      rw [hn]
      exact Flags.le_length_allEmpty e
    have hempty : ∀ i < t.nbucket, t'.flags.isEmpty i = true :=
      fun i hi => Flags.isEmpty_allEmpty (hi.trans_le hlength)
    have heither : ∀ i < t.nbucket, t'.flags.isEither i = true := by
      intro i hi
      rw [Flags.isEither_eq, hempty i hi, Bool.or_true]
    have hbucket : ∀ i < t.nbucket, t'.bucketAt i = none := by
      intro i hi
      rw [bucketAt, if_neg (by simp [heither i hi])]
    have helements : t'.elements = 0 := content_of_none hbucket
    refine ⟨⟨⟨Or.inr ⟨⟨e, hn⟩, hsup⟩, hlength, h.keys_length, h.vals_length, ?_, ?_⟩, ?_, ?_,
      Nat.zero_le _, ?_, h.lost⟩, helements⟩
    · intro i hi hfree
      rw [heither i hi] at hfree
      exact Bool.noConfusion hfree
    · intro i hi p hp
      rw [hbucket i hi] at hp
      cases hp
    · rw [helements]
      rfl
    · have hused : content t'.nbucket t'.usedAt = 0 :=
        content_of_none fun i hi => by rw [usedAt, if_pos (hempty i hi)]
      rw [hused]
      rfl
    · rw [helements]
      exact Multiset.nodup_zero

end

/-! ## The finite map -/

/-- The elements of the table are the pairs of the map. -/
structure Represents (P : Probing) (hashfn : K → ℕ) (t : AlignHash K V)
    (m : Finmap fun _ : K => V) : Prop where
  formed : Formed P hashfn t
  elements : t.elements = m.pairs id

variable {m : Finmap fun _ : K => V}

namespace Represents

theorem lookup_iff (h : Represents P hashfn t m) :
    m.lookup key = some val ↔ ∃ i < t.nbucket, t.bucketAt i = some (key, val) := by
  rw [← mem_content, show content t.nbucket t.bucketAt = m.pairs id from h.elements,
    Finmap.mem_pairs]
  simp

theorem absent_iff (h : Represents P hashfn t m) : Absent t key ↔ key ∉ m := by
  rw [Absent, Finmap.mem_iff]
  push Not
  constructor
  · intro habsent val hval
    obtain ⟨i, hi, hp⟩ := h.lookup_iff.1 hval
    exact habsent i hi val hp
  · intro hnone i hi val hp
    exact hnone val (h.lookup_iff.2 ⟨i, hi, hp⟩)

/-- A key has a bucket, or it is absent. -/
theorem cases_key (h : Represents P hashfn t m) (key : K) :
    (∃ i < t.nbucket, ∃ val, t.bucketAt i = some (key, val) ∧ m.lookup key = some val) ∨
      Absent t key ∧ m.lookup key = none := by
  cases hlookup : m.lookup key with
  | none => exact Or.inr ⟨h.absent_iff.2 (Finmap.lookup_eq_none.1 hlookup), rfl⟩
  | some val =>
    obtain ⟨i, hi, hp⟩ := h.lookup_iff.1 hlookup
    exact Or.inl ⟨i, hi, val, hp, rfl⟩

theorem find_spec (h : Represents P hashfn t m) (key : K) :
    t.find P hashfn key = some (m.lookup key) := by
  rw [AlignHash.find]
  rcases h.cases_key key with ⟨i, hi, val, hp, hlookup⟩ | ⟨habsent, hlookup⟩
  · rw [h.formed.get_of_mem hi hp, hlookup, Option.map_some, if_neg hi.ne,
      (bucketAt_eq_some.1 hp).2.2]
  · rw [h.formed.get_of_absent habsent, hlookup, Option.map_some, if_pos rfl]

theorem contain_spec (h : Represents P hashfn t m) (key : K) :
    t.contain P hashfn key = some (decide (key ∈ m)) := by
  rw [contain]
  rcases h.cases_key key with ⟨i, hi, val, hp, hlookup⟩ | ⟨habsent, hlookup⟩
  · rw [h.formed.get_of_mem hi hp, Option.map_some, decide_eq_true hi.ne,
      decide_eq_true (Finmap.mem_of_lookup_eq_some hlookup)]
  · rw [h.formed.get_of_absent habsent, Option.map_some, decide_eq_false (h.absent_iff.1 habsent)]
    simp

omit [DecidableEq K] in
theorem size_spec (h : Represents P hashfn t m) : t.size = Multiset.card m.entries := by
  rw [h.formed.size_eq, h.elements, Finmap.card_pairs]

end Represents

/-- **`find` after `alignhash_resize`**: the keys that it lost are gone. -/
theorem Represents.find_resized {t' : AlignHash K V} (h : Represents P hashfn t m)
    (hresized : Resized P hashfn t t') (key : K) :
    t'.find P hashfn key = some (if key ∈ t'.lost then none else m.lookup key) := by
  have hlookup : ∀ val, m.lookup key = some val ↔ (key, val) ∈ t.elements := by
    intro val
    rw [h.lookup_iff]
    exact mem_content.symm
  rw [AlignHash.find]
  by_cases habsent : Absent t' key
  · rw [hresized.searchable.get_of_absent habsent, Option.map_some, if_pos rfl]
    split_ifs with hlost
    · rfl
    · cases hval : m.lookup key with
      | none => rfl
      | some val =>
        have hmem := (hresized.mem_elements (key, val)).2 ⟨(hlookup val).1 hval, hlost⟩
        obtain ⟨i, hi, hp⟩ := mem_content.1 hmem
        exact absurd hp (habsent i hi val)
  · rw [Absent] at habsent
    push Not at habsent
    obtain ⟨i, hi, val, hp⟩ := habsent
    obtain ⟨j, hj, val', hget, hq⟩ := hresized.searchable.get_of_mem hi hp
    obtain ⟨hmem, hlost⟩ := (hresized.mem_elements (key, val')).1 (mem_content.2 ⟨j, hj, hq⟩)
    rw [hget, Option.map_some, if_neg hj.ne, (bucketAt_eq_some.1 hq).2.2, if_neg hlost,
      (hlookup val').2 hmem]

/-! ## `alignhash_set` and the finite map -/

/-- The call has to allocate, and cannot. -/
def Refused (t : AlignHash K V) (mem : Memory) : Prop := t.sup ≤ t.nused ∧ mem ≠ .ample

theorem Memory.ne_ample (mem : Memory) :
    mem ≠ .ample ↔ ¬(mem.flags = true ∧ mem.keys = true ∧ mem.vals = true) := by
  obtain ⟨a, b, c⟩ := mem
  cases a <;> cases b <;> cases c <;> simp [Memory.ample]

omit [DecidableEq K] in
theorem Formed.size_le_nused (h : Formed P hashfn t) : t.size ≤ t.nused := by
  rw [h.size_eq, h.nused_eq, elements, card_content, card_content]
  refine List.countP_mono_left fun i _ hi => ?_
  obtain ⟨p, hp⟩ := Option.isSome_iff_exists.1 hi
  rw [usedAt, isEmpty_of_bucketAt hp]
  rfl

omit [DecidableEq K] in
/-- The number of buckets that `alignhash_set` asks for holds the elements, and one more. -/
theorem Formed.exists_larger (h : Formed P hashfn t) :
    ∃ e, (if t.nbucket ≠ 0 then t.nbucket * 2 else 2) = 2 ^ (e + 1) ∧ t.nbucket < 2 ^ (e + 1) ∧
      t.size < P.upperBound (2 ^ (e + 1)) := by
  have hle := h.size_le_nused
  have hsup := h.nused_le
  rcases h.nbucket with ⟨hzero, -, hsup'⟩ | ⟨⟨e, hn⟩, hsup'⟩
  · refine ⟨0, by rw [if_neg (by simp [hzero])]; rfl, by rw [hzero]; decide, ?_⟩
    exact (by omega : t.size ≤ 0).trans_lt P.upperBound_two
  · have hpos : 0 < 2 ^ (e + 1) := Nat.two_pow_pos _
    have hdouble : t.nbucket * 2 = 2 ^ (e + 2) := by rw [hn, Nat.pow_succ 2 (e + 1)]
    refine ⟨e + 1, by rw [if_pos (by omega), hdouble], by omega, ?_⟩
    have hlt := P.upperBound_lt e
    rw [← hn, ← hsup'] at hlt
    exact (by omega : t.size ≤ t.sup).trans_lt hlt

theorem Formed.room_spec (h : Formed P hashfn t) (mem : Memory) :
    ∃ t' ok, t.room P hashfn mem = some (t', ok) ∧ Resized P hashfn t t' ∧
      (ok = false ↔ Refused t mem) ∧ (ok = false → t'.lost = []) ∧
      (ok = true → t'.nbucket ≠ 0 ∧ t'.nused < t'.sup) := by
  by_cases hfull : t.nused ≥ t.sup
  · obtain ⟨e, hask, hlt, hsize⟩ := h.exists_larger
    obtain ⟨t', ok, hresize, hresized, hok, htrue, hfalse⟩ := h.resize_spec e mem
    refine ⟨t', ok, by rw [room, if_pos hfull, hask, hresize], hresized, ?_,
      fun hok' => (hfalse hok').2, fun hok' => ?_⟩
    · rw [Refused, Memory.ne_ample, ← Bool.not_eq_true, hok]
      simp [hsize, hlt, hfull]
    · have hpos := Nat.two_pow_pos (e + 1)
      obtain ⟨hn, hnused⟩ := htrue hok'
      rcases hresized.searchable.nbucket with ⟨hzero, -, -⟩ | ⟨-, hsup⟩
      · omega
      · refine ⟨by omega, ?_⟩
        rw [hnused, hsup, hn]
        exact hsize
  · refine ⟨t, true, by rw [room, if_neg hfull], h.resized_self, ?_, fun _ => h.lost, fun _ => ?_⟩
    · rw [Refused]
      simp
      omega
    · rcases h.nbucket with ⟨-, -, hsup⟩ | ⟨⟨e, hn⟩, -⟩
      · omega
      · have hpos := Nat.two_pow_pos (e + 1)
        omega

/-- What `alignhash_set` returns. -/
inductive Outcome (P : Probing) (hashfn : K → ℕ) (t : AlignHash K V) (m : Finmap fun _ : K => V)
    (key : K) (mem : Memory) : AlignHash K V × ℕ × Ret → Prop
  /-- Memory is refused. -/
  | refused {t' : AlignHash K V} (hrefused : Refused t mem) (hR : Represents P hashfn t' m) :
    Outcome P hashfn t m key mem (t', t'.nbucket, .err)
  /-- The key has a bucket. -/
  | found {t' : AlignHash K V} {i : ℕ} {val : V} (hroom : ¬Refused t mem)
    (hR : Represents P hashfn t' m) (hi : i < t'.nbucket) (hp : t'.bucketAt i = some (key, val))
    (hlookup : m.lookup key = some val) : Outcome P hashfn t m key mem (t', i, .err)
  /-- The key is new, and has to be given a value. -/
  | made {t' : AlignHash K V} {i : ℕ} {ret : Ret} (hroom : ¬Refused t mem) (hret : ret ≠ .err)
    (hi : i < t'.nbucket) (habsent : key ∉ m)
    (hput : ∀ val, Represents P hashfn { t' with vals := t'.vals.set i (some val) }
        (m.insert key val) ∧
      bucketAt { t' with vals := t'.vals.set i (some val) } i = some (key, val)) :
    Outcome P hashfn t m key mem (t', i, ret)
  /-- The table has grown, and has lost elements. -/
  | lossy {t' : AlignHash K V} {i : ℕ} {ret : Ret} (hroom : ¬Refused t mem) (hi : i < t'.nbucket)
    (hlost : t'.lost ≠ []) : Outcome P hashfn t m key mem (t', i, ret)

omit [DecidableEq K] in
theorem occupy_members (t : AlignHash K V) (key : K) (x : ℕ) :
    (t.occupy key x).1.nbucket = t.nbucket ∧ (t.occupy key x).1.lost = t.lost := by
  rw [occupy]
  split_ifs <;> exact ⟨rfl, rfl⟩

/-- **`alignhash_set`.** -/
theorem Represents.set_spec (h : Represents P hashfn t m) (key : K) (mem : Memory) :
    ∃ r, t.set P hashfn key mem = some r ∧ Outcome P hashfn t m key mem r := by
  obtain ⟨t', ok, hroom, hresized, hrefused, hfalse, htrue⟩ := h.formed.room_spec mem
  have hR : t'.lost = [] → Represents P hashfn t' m := fun hlost =>
    ⟨(hresized.formed hlost).1, (hresized.formed hlost).2.trans h.elements⟩
  rw [set, hroom]
  simp only [Option.bind_eq_bind, Option.bind_some]
  cases ok with
  | false => exact ⟨_, rfl, .refused (hrefused.1 rfl) (hR (hfalse rfl))⟩
  | true =>
    have hnot : ¬Refused t mem := fun hr => Bool.noConfusion (hrefused.2 hr)
    obtain ⟨hpos, hless⟩ := htrue rfl
    rw [if_pos rfl]
    by_cases hlost : t'.lost = []
    · have hR := hR hlost
      have hformed := hR.formed
      rcases hR.cases_key key with ⟨i, hi, val, hp, hlookup⟩ | ⟨habsent, hlookup⟩
      · have hflag := (bucketAt_eq_some.1 hp).1
        have hoccupy : t'.occupy key i = (t', .err) := by
          rw [Flags.isEither_eq, Bool.or_eq_false_iff] at hflag
          rw [occupy, if_neg (by simp [hflag.2]), if_neg (by simp [hflag.1])]
        refine ⟨(t', i, .err), ?_, .found hnot hR hi hp hlookup⟩
        rw [hformed.site_of_mem hi hp, Option.bind_some, hoccupy]
      · obtain ⟨d, hd, hsite, hflag, hbefore⟩ := hformed.site_of_absent habsent hless
        obtain ⟨ret, hret, hoccupy⟩ := occupy_eq hflag key
        have hmem := hR.absent_iff.1 habsent
        refine ⟨_, by rw [hsite, Option.bind_some, hoccupy], .made hnot hret ?_ hmem fun val => ?_⟩
        · rcases hformed.nbucket with ⟨hzero, -, -⟩ | ⟨⟨e, hn⟩, -⟩
          · omega
          · exact path_lt_nbucket hn key d
        · obtain ⟨hput, hputs, hself⟩ := hformed.put habsent hless hd rfl hflag hbefore val
          refine ⟨⟨hput, hputs.trans ?_⟩, hself⟩
          rw [hR.elements, Finmap.pairs_insert_of_notMem id hmem]
          rfl
    · obtain ⟨x, hx, hsite⟩ := hresized.searchable.site_lt hpos key
      obtain ⟨hn, hkeep⟩ := occupy_members t' key x
      refine ⟨_, by rw [hsite, Option.bind_some], .lossy hnot ?_ ?_⟩
      · rw [hn]
        exact hx
      · rw [hkeep]
        exact hlost

/-! ## Calls -/

/-- `insert` and `find_or_insert` of a finite map. -/
def put (m : Finmap fun _ : K => V) (key : K) (val : V) (displace : Bool) : Finmap fun _ : K => V :=
  if key ∈ m ∧ displace = false then m else m.insert key val

theorem insert_put (m : Finmap fun _ : K => V) (key : K) (val val' : V) (displace : Bool) :
    (put m key val displace).insert key val' = m.insert key val' := by
  rw [put]
  split_ifs
  · rfl
  · exact Finmap.insert_insert m

theorem Represents.assign (h : Represents P hashfn t m) (hi : i < t.nbucket) {val' : V}
    (hp : t.bucketAt i = some (key, val')) (val : V) :
    Represents P hashfn { t with vals := t.vals.set i (some val) } (m.insert key val) ∧
      bucketAt { t with vals := t.vals.set i (some val) } i = some (key, val) := by
  obtain ⟨hformed, helements, hself⟩ := h.formed.assign hi hp val
  refine ⟨⟨hformed, add_right_cancel (helements.trans ?_)⟩, hself⟩
  have hsplit : m.pairs id = (key, val') ::ₘ (m.erase key).pairs id :=
    Finmap.pairs_of_lookup id (h.lookup_iff.2 ⟨i, hi, hp⟩)
  rw [h.elements, hsplit, Finmap.pairs_insert, ← Multiset.singleton_add, ← Multiset.singleton_add]
  exact (add_comm _ _).trans (congrArg _ (add_comm _ _)) |>.trans (add_assoc _ _ _).symm

/-- What a call that inserts leaves of a table that stood for `m`: it throws and the table stands
for `m`, or the table stands for `m'` and the iterator is at the key, or it has lost elements. -/
inductive Inserted (P : Probing) (hashfn : K → ℕ) (t : AlignHash K V) (m m' : Finmap fun _ : K => V)
    (key : K) (mem : Memory) : AlignHash K V × Option ℕ → Prop
  | threw {t' : AlignHash K V} (hrefused : Refused t mem) (hR : Represents P hashfn t' m) :
    Inserted P hashfn t m m' key mem (t', none)
  | done {t' : AlignHash K V} {i : ℕ} {val : V} (hroom : ¬Refused t mem)
    (hR : Represents P hashfn t' m') (hi : i < t'.nbucket)
    (hp : t'.bucketAt i = some (key, val)) : Inserted P hashfn t m m' key mem (t', some i)
  | lossy {t' : AlignHash K V} {i : ℕ} (hroom : ¬Refused t mem) (hlost : t'.lost ≠ []) :
    Inserted P hashfn t m m' key mem (t', some i)

/-- **`insert`.** -/
theorem Represents.insert_spec (h : Represents P hashfn t m) (key : K) (val : V) (displace : Bool)
    (mem : Memory) : ∃ r, t.insert P hashfn key val displace mem = some r ∧
      Inserted P hashfn t m (put m key val displace) key mem r := by
  obtain ⟨r, hset, hr⟩ := h.set_spec key mem
  rw [AlignHash.insert, hset]
  simp only [Option.bind_eq_bind, Option.bind_some]
  cases hr with
  | @refused t' hrefused hR => exact ⟨(t', none), by rw [if_pos rfl], .threw hrefused hR⟩
  | @found t' i v hroom hR hi hp hlookup =>
    have hmem : key ∈ m := Finmap.mem_of_lookup_eq_some hlookup
    rw [if_neg hi.ne]
    cases displace with
    | false =>
      refine ⟨(t', some i), by simp, .done hroom ?_ hi hp⟩
      rwa [put, if_pos ⟨hmem, rfl⟩]
    | true =>
      obtain ⟨hassign, hself⟩ := hR.assign hi hp val
      refine ⟨({ t' with vals := t'.vals.set i (some val) }, some i), by rw [if_pos (Or.inr rfl)],
        .done hroom ?_ hi hself⟩
      rwa [put, if_neg (by simp)]
  | @made t' i ret hroom hret hi habsent hput =>
    obtain ⟨hR, hself⟩ := hput val
    rw [if_neg hi.ne]
    refine ⟨({ t' with vals := t'.vals.set i (some val) }, some i), by rw [if_pos (Or.inl hret)],
      .done hroom ?_ hi hself⟩
    rwa [put, if_neg fun hboth => habsent hboth.1]
  | @lossy t' i ret hroom hi hlost =>
    rw [if_neg hi.ne]
    split_ifs
    · exact ⟨({ t' with vals := t'.vals.set i (some val) }, some i), rfl, .lossy hroom hlost⟩
    · exact ⟨(t', some i), rfl, .lossy hroom hlost⟩

theorem findOrInsert_eq (t : AlignHash K V) (key : K) (val : V) (mem : Memory) :
    t.findOrInsert P hashfn key val mem = t.insert P hashfn key val false mem := by
  rw [findOrInsert, AlignHash.insert]
  simp

theorem Represents.indexAssign_spec [Inhabited V] (h : Represents P hashfn t m) (key : K) (val : V)
    (mem : Memory) : ∃ r, t.indexAssign P hashfn key val mem = some r ∧
      Inserted P hashfn t m (m.insert key val) key mem r := by
  obtain ⟨r, hinsert, hr⟩ := h.insert_spec key default false mem
  rw [indexAssign, findOrInsert_eq, hinsert]
  simp only [Option.bind_eq_bind, Option.bind_some]
  cases hr with
  | threw hrefused hR => exact ⟨_, rfl, .threw hrefused hR⟩
  | done hroom hR hi hp =>
    obtain ⟨hassign, hself⟩ := hR.assign hi hp val
    rw [insert_put] at hassign
    exact ⟨_, rfl, .done hroom hassign hi hself⟩
  | lossy hroom hlost => exact ⟨_, rfl, .lossy hroom hlost⟩

theorem Represents.erase_spec (h : Represents P hashfn t m) (key : K) :
    ∃ t', t.erase P hashfn key = some t' ∧ Represents P hashfn t' (m.erase key) := by
  rw [AlignHash.erase]
  rcases h.cases_key key with ⟨i, hi, val, hp, hlookup⟩ | ⟨habsent, hlookup⟩
  · obtain ⟨hformed, helements⟩ := h.formed.del_spec hi hp
    refine ⟨_, by rw [h.formed.get_of_mem hi hp]; rfl, hformed, ?_⟩
    rw [h.elements, Finmap.pairs_of_lookup id hlookup] at helements
    exact ((Multiset.cons_inj_right _).1 helements).symm
  · refine ⟨_, by rw [h.formed.get_of_absent habsent]; rfl, ?_⟩
    rw [del, if_neg (fun hboth => hboth.1 rfl), Finmap.erase_of_notMem (h.absent_iff.1 habsent)]
    exact h

omit [DecidableEq K] in
theorem Represents.clear_spec (h : Represents P hashfn t m) :
    Represents P hashfn t.clear (∅ : Finmap fun _ : K => V) :=
  ⟨h.formed.clear_spec.1, h.formed.clear_spec.2⟩

/-! ## Runs -/

/-- A call that changes the map, with what `malloc` and `realloc` return in it. -/
inductive Call (K V : Type) where
  | insert (key : K) (val : V) (displace : Bool) (mem : Memory)
  | findOrInsert (key : K) (val : V) (mem : Memory)
  | indexAssign (key : K) (val : V) (mem : Memory)
  | erase (key : K)
  | clear

/-- How a call ends. -/
inductive Result where
  | threw
  | iterator (itr : ℕ)
  | done
  deriving DecidableEq

/-- A call that returns an iterator if it does not throw. -/
def Result.ofIterator : Option ℕ → Result
  | none => .threw
  | some itr => .iterator itr

namespace Call

/-- The call on a table. -/
def apply [Inhabited V] (P : Probing) (hashfn : K → ℕ) (t : AlignHash K V) :
    Call K V → Option (AlignHash K V × Result)
  | .insert key val displace mem =>
    (t.insert P hashfn key val displace mem).map (Prod.map id Result.ofIterator)
  | .findOrInsert key val mem =>
    (t.findOrInsert P hashfn key val mem).map (Prod.map id Result.ofIterator)
  | .indexAssign key val mem =>
    (t.indexAssign P hashfn key val mem).map (Prod.map id Result.ofIterator)
  | .erase key => (t.erase P hashfn key).map fun t => (t, .done)
  | .clear => some (t.clear, .done)

/-- The call on a finite map. -/
def reference (m : Finmap fun _ : K => V) : Call K V → Finmap fun _ : K => V
  | .insert key val displace _ => put m key val displace
  | .findOrInsert key val _ => put m key val false
  | .indexAssign key val _ => m.insert key val
  | .erase key => m.erase key
  | .clear => ∅

/-- The key of a call that returns an iterator, and what `malloc` and `realloc` return in it. -/
def inserts? : Call K V → Option (K × Memory)
  | .insert key _ _ mem => some (key, mem)
  | .findOrInsert key _ mem => some (key, mem)
  | .indexAssign key _ mem => some (key, mem)
  | .erase _ => none
  | .clear => none

end Call

variable [Inhabited V]

/-- One map beside a finite map, which ignores the calls that throw. -/
def paired (K V : Type) [DecidableEq K] [Inhabited V] (P : Probing) (hashfn : K → ℕ) :
    Machine (AlignHash K V × Finmap fun _ : K => V) (Call K V) where
  init := (construct K V, ∅)
  step s c := (c.apply P hashfn s.1).map fun r =>
    (r.1, if r.2 = .threw then s.2 else c.reference s.2)

/-- What a call of a table that stands for `m` returns and leaves, if it loses nothing. -/
structure Kept (P : Probing) (hashfn : K → ℕ) (t : AlignHash K V) (m : Finmap fun _ : K => V)
    (c : Call K V) (t' : AlignHash K V) (r : Result) : Prop where
  represents : t'.lost = [] → Represents P hashfn t' (if r = .threw then m else c.reference m)
  threw_iff : r = .threw ↔ ∃ p ∈ c.inserts?, Refused t p.2
  lost_of_threw : r = .threw → t'.lost = []
  iterator : t'.lost = [] → ∀ i, r = .iterator i → i < t'.nbucket ∧ ∃ p ∈ c.inserts?, ∃ val,
    t'.bucketAt i = some (p.1, val) ∧ (c.reference m).lookup p.1 = some val

omit [Inhabited V] in
theorem Inserted.kept {c : Call K V} {mem : Memory} {r : AlignHash K V × Option ℕ}
    (h : Inserted P hashfn t m (c.reference m) key mem r) (hc : c.inserts? = some (key, mem)) :
    Kept P hashfn t m c r.1 (.ofIterator r.2) := by
  have hnot : ¬Refused t mem → ¬∃ p ∈ c.inserts?, Refused t p.2 := by
    intro hroom hex
    obtain ⟨p, hp, hrefused⟩ := hex
    rw [hc] at hp
    cases hp
    exact hroom hrefused
  cases h with
  | threw hrefused hR =>
    exact ⟨fun _ => hR, ⟨fun _ => ⟨_, hc, hrefused⟩, fun _ => rfl⟩, fun _ => hR.formed.lost,
      fun _ i hi => by cases hi⟩
  | @done t' i val hroom hR hi hp =>
    refine ⟨fun _ => hR, ⟨fun hthrew => (by cases hthrew), fun hex => absurd hex (hnot hroom)⟩,
      fun hthrew => (by cases hthrew), fun _ j hj => ?_⟩
    cases hj
    exact ⟨hi, _, hc, val, hp, hR.lookup_iff.2 ⟨i, hi, hp⟩⟩
  | @lossy t' i hroom hlost =>
    exact ⟨fun hnone => absurd hnone hlost,
      ⟨fun hthrew => (by cases hthrew), fun hex => absurd hex (hnot hroom)⟩,
      fun hthrew => (by cases hthrew), fun hnone => absurd hnone hlost⟩

omit [Inhabited V] in
theorem Represents.kept {c : Call K V} (h : Represents P hashfn t (c.reference m))
    (hc : c.inserts? = none) {t₀ : AlignHash K V} : Kept P hashfn t₀ m c t .done := by
  refine ⟨fun _ => h, ⟨fun hthrew => (by cases hthrew), fun hex => ?_⟩,
    fun hthrew => (by cases hthrew), fun _ i hi => (by cases hi)⟩
  obtain ⟨p, hp, -⟩ := hex
  rw [hc] at hp
  cases hp

/-- **The step lemma**: the call on the table is the call on the finite map. -/
theorem Represents.step (h : Represents P hashfn t m) (c : Call K V) :
    ∃ t' r, c.apply P hashfn t = some (t', r) ∧ Kept P hashfn t m c t' r := by
  cases c with
  | insert key val displace mem =>
    obtain ⟨r, hinsert, hr⟩ := h.insert_spec key val displace mem
    exact ⟨r.1, .ofIterator r.2, by rw [Call.apply, hinsert]; rfl, hr.kept rfl⟩
  | findOrInsert key val mem =>
    obtain ⟨r, hinsert, hr⟩ := h.insert_spec key val false mem
    exact ⟨r.1, .ofIterator r.2, by rw [Call.apply, findOrInsert_eq, hinsert]; rfl, hr.kept rfl⟩
  | indexAssign key val mem =>
    obtain ⟨r, hassign, hr⟩ := h.indexAssign_spec key val mem
    exact ⟨r.1, .ofIterator r.2, by rw [Call.apply, hassign]; rfl, hr.kept rfl⟩
  | erase key =>
    obtain ⟨t', herase, hR⟩ := h.erase_spec key
    exact ⟨t', .done, by rw [Call.apply, herase]; rfl, hR.kept rfl⟩
  | clear => exact ⟨t.clear, .done, rfl, h.clear_spec.kept rfl⟩

/-- **The condition**: the call loses no element. -/
def Lossless (P : Probing) (hashfn : K → ℕ) (s : AlignHash K V × Finmap fun _ : K => V)
    (c : Call K V) : Prop :=
  ∀ r ∈ c.apply P hashfn s.1, r.1.lost = []

instance (s : AlignHash K V × Finmap fun _ : K => V) (c : Call K V) :
    Decidable (Lossless P hashfn s c) :=
  inferInstanceAs (Decidable (∀ r ∈ c.apply P hashfn s.1, r.1.lost = []))

theorem represents_of_reach (hs : (paired K V P hashfn).Reach (Lossless P hashfn) (t, m)) :
    Represents P hashfn t m := by
  refine hs.invariant (I := fun s => Represents P hashfn s.1 s.2)
    ⟨formed_construct P hashfn, rfl⟩ ?_
  intro s c s' hR hok hst
  obtain ⟨t', r, happly, hkept⟩ := Represents.step hR c
  have hlost : t'.lost = [] := hok (t', r) happly
  rw [paired] at hst
  simp only [happly, Option.map_some, Option.some_inj] at hst
  rw [← hst]
  exact hkept.represents hlost

/-- **The map is a finite map** as long as no call loses an element, whatever memory is refused.
After every such run of calls `find`, `contain` and `size` are those of the finite map. The next
call ends, also if it loses elements; it throws exactly if the table is full and memory is refused,
and then changes nothing that they show; and the iterator it returns, if it loses nothing, is at the
key, with the value the finite map has. -/
theorem refines (hs : (paired K V P hashfn).Reach (Lossless P hashfn) (t, m)) :
    (∀ key, t.find P hashfn key = some (m.lookup key) ∧
      t.contain P hashfn key = some (decide (key ∈ m))) ∧
    t.size = Multiset.card m.entries ∧
    ∀ c : Call K V, ∃ t' r, c.apply P hashfn t = some (t', r) ∧
      (r = .threw ↔ ∃ p ∈ c.inserts?, t.sup ≤ t.nused ∧ p.2 ≠ .ample) ∧
      (r = .threw → ∀ key, t'.find P hashfn key = t.find P hashfn key) ∧
      (t'.lost = [] → ∀ i, r = .iterator i → i < t'.nbucket ∧ ∃ p ∈ c.inserts?,
        keyAt t'.keys i = some p.1 ∧ t'.vals.getD i none = (c.reference m).lookup p.1) := by
  have hR := represents_of_reach hs
  refine ⟨fun key => ⟨hR.find_spec key, hR.contain_spec key⟩, hR.size_spec, fun c => ?_⟩
  obtain ⟨t', r, happly, hkept⟩ := hR.step c
  refine ⟨t', r, happly, hkept.threw_iff, fun hthrew key => ?_, fun hlost i hi => ?_⟩
  · have hR' := hkept.represents (hkept.lost_of_threw hthrew)
    rw [if_pos hthrew] at hR'
    rw [hR'.find_spec, hR.find_spec]
  · obtain ⟨hlt, p, hp, val, hbucket, hlookup⟩ := hkept.iterator hlost i hi
    obtain ⟨-, hkey, hval⟩ := bucketAt_eq_some.1 hbucket
    exact ⟨hlt, p, hp, hkey, hval.trans hlookup.symm⟩

/-- **`alignhash_resize` moves the elements in place, and may lose some.** A table that calls have
made that lost nothing can be given any power of two buckets, more or fewer, if the load factor
allows it for its elements. The loops end, no bucket is deleted any more, and every key is found
with its value, except those that were lost, which were in the table. -/
theorem resize_in_place (hs : (paired K V P hashfn).Reach (Lossless P hashfn) (t, m)) (e : ℕ)
    (mem : Memory) :
    ∃ t' ok, t.resize P hashfn (2 ^ (e + 1)) mem = some (t', ok) ∧
      (∀ key, t'.find P hashfn key =
        if key ∈ t'.lost then some none else t.find P hashfn key) ∧
      (∀ key ∈ t'.lost, ∃ val, t.find P hashfn key = some (some val)) ∧
      t'.size = t.size ∧
      (ok = true ↔ t.size < P.upperBound (2 ^ (e + 1)) ∧ mem.flags = true ∧
        (t.nbucket < 2 ^ (e + 1) → mem.keys = true ∧ mem.vals = true)) ∧
      (ok = true → t'.nbucket = 2 ^ (e + 1) ∧ t'.nused = t'.size) ∧
      (ok = false → t'.lost = []) := by
  have hR := represents_of_reach hs
  obtain ⟨t', ok, hresize, hresized, hok, htrue, hfalse⟩ := hR.formed.resize_spec e mem
  refine ⟨t', ok, hresize, fun key => ?_, fun key hkey => ?_, hresized.size_eq, hok,
    fun hok' => ⟨(htrue hok').1, (htrue hok').2.trans hresized.size_eq.symm⟩,
    fun hok' => (hfalse hok').2⟩
  · rw [hR.find_resized hresized, hR.find_spec]
    split_ifs <;> rfl
  · obtain ⟨⟨key', val⟩, hmem, rfl⟩ := Multiset.mem_map.1 (hresized.lost_sub key hkey)
    rw [hR.find_spec, hR.lookup_iff.2 (mem_content.1 hmem)]
    exact ⟨val, rfl⟩

/-- A table of four buckets that is refused memory for eight keeps its element. -/
theorem refines_of_refused : ∃ t m,
    (paired ℕ ℕ linear id).Reach (Lossless linear id) (t, m) ∧ t.nbucket = 4 ∧
      t.find linear id 15 = some (some 150) ∧ t.find linear id 23 = some none := by
  have hrun : ∃ t m, (paired ℕ ℕ linear id).Reach (Lossless linear id) (t, m) ∧ t.nbucket = 4 ∧
      m.lookup 15 = some 150 ∧ m.lookup 23 = none :=
    ⟨_, _, (paired ℕ ℕ linear id).reach_of_run _
      [.insert 7 70 false .ample, .insert 15 150 false .ample, .erase 7,
        .insert 23 230 false ⟨true, false, true⟩] rfl, by decide, by decide, by decide⟩
  obtain ⟨t, m, hs, hn, hin, hout⟩ := hrun
  have hfind := (refines hs).1
  exact ⟨t, m, hs, hn, (hfind 15).1.trans (congrArg some hin),
    (hfind 23).1.trans (congrArg some hout)⟩

/-- A table of four buckets has `3` in its bucket and `11`, which wraps around, in the first one.
When it is made larger, `11` is moved first, to where `3` is, and `3` is gone. -/
theorem resize_in_place_lossy : ∃ t m,
    (paired ℕ ℕ linear id).Reach (Lossless linear id) (t, m) ∧ t.nbucket = 4 ∧
      t.find linear id 3 = some (some 30) ∧ ∃ t', t.resize linear id 8 .ample = some (t', true) ∧
        t'.find linear id 3 = some none ∧ t'.find linear id 11 = some (some 110) ∧ t'.nused = 2 := by
  have hrun : ∃ t m, (paired ℕ ℕ linear id).Reach (Lossless linear id) (t, m) ∧ t.nbucket = 4 ∧
      t.size = 2 ∧ t.find linear id 3 = some (some 30) ∧ t.find linear id 11 = some (some 110) ∧
      (t.resize linear id 8 .ample).map (fun r => (r.1.lost, r.2)) = some ([3], true) :=
    ⟨_, _, (paired ℕ ℕ linear id).reach_of_run _
      [.insert 3 30 false .ample, .insert 11 110 false .ample] rfl, by decide, by decide, by decide,
      by decide, by decide⟩
  obtain ⟨t, m, hs, hn, hsize, hthree, heleven, hlost⟩ := hrun
  obtain ⟨t', ok, hresize, hfind, -, hsize', -, htrue, -⟩ := resize_in_place hs 2 .ample
  rw [show t.resize linear id 8 .ample = some (t', ok) from hresize, Option.map_some,
    Option.some_inj, Prod.mk.injEq] at hlost
  obtain ⟨hlost, rfl⟩ := hlost
  refine ⟨t, m, hs, hn, hthree, t', hresize, ?_, ?_, ?_⟩
  · rw [hfind, hlost, if_pos (by decide)]
  · rw [hfind, hlost, if_neg (by decide), heleven]
  · rw [(htrue rfl).2, hsize', hsize]

end AlignHash

end Naesala
