import Mathlib.Order.Interval.Finset.Nat
import Mathlib.Tactic.IntervalCases
import Naesala.Third.AlignHashProof

/-!
# When a growing `align_hash_map` loses nothing

With linear probing an element is in the bucket that its hash selects, or behind it, or it has
wrapped around the end. `alignhash_resize` goes over the old buckets from the first one on. The new
table is a row of blocks, each as long as the old one, and an element that has not wrapped around
goes to the same offset in some block, or less far behind it than it was: the elements that are in
its way there were in its way before.

`Sparse` is the count behind this: from any offset on, each block has no more buckets taken than the
loop has gone over from there on. So an element that is moved finds a bucket that the loop has gone
over, or one of a later block, and overwrites nothing.

**Theorem (`lossless_of_unwrapped`).** With linear probing, no call loses an element of a table in
which none has wrapped around.
-/

namespace Naesala

namespace AlignHash

open Slots

variable {K V : Type} {P : Probing} {hashfn : K → ℕ} {t t' : AlignHash K V} {key : K} {val : V}
variable {all placed lost : Multiset (K × V)} {r : Rehash K V}
variable {n e d h i j k q : ℕ}

/-- The offsets from `q` on that are taken in block `k` of the new table. -/
def taken (r : Rehash K V) (n k q : ℕ) : Finset ℕ :=
  (Finset.Ico q n).filter fun x => r.newFlags.isEmpty (k * n + x) = false

/-- **The invariant**, when the loop is at bucket `j`. -/
structure Sparse (hashfn : K → ℕ) (n e j : ℕ) (r : Rehash K V) : Prop where
  card_taken : ∀ k q, k * n + n ≤ 2 ^ (e + 1) → (taken r n k q).card ≤ j - q
  home_le : ∀ i p, r.oldAt n i = some p → hashfn p.1 % n ≤ i
  done : ∀ i < j, r.flags.isEither i = true

/-- The block and the offset of a bucket. -/
theorem block_eq (hx : i < n) (hy : j < n) (heq : k * n + i = q * n + j) : k = q ∧ i = j := by
  have hdiv := congrArg (· / n) heq
  have hmod := congrArg (· % n) heq
  have hn : 0 < n := by omega
  simp only [Nat.mul_comm _ n, Nat.mul_add_div hn, Nat.div_eq_of_lt hx, Nat.div_eq_of_lt hy,
    Nat.mul_add_mod, Nat.mod_eq_of_lt hx, Nat.mod_eq_of_lt hy, Nat.add_zero] at hdiv hmod
  exact ⟨hdiv, hmod⟩

/-- The probe of linear probing, as long as it does not wrap around. -/
theorem path_linear (hstep : P.probeStep (hashfn key) = 1)
    (hd : hashfn key % 2 ^ (e + 1) + d < 2 ^ (e + 1)) :
    path P hashfn (2 ^ (e + 1)) key d = hashfn key % 2 ^ (e + 1) + d := by
  rw [path, and_mask, hstep, Nat.mul_one, Nat.mod_eq_of_lt hd]

/-- The home of a key in the new table: the home in the old one, in some block. -/
theorem exists_block (hashfn : K → ℕ) (hn : n ∣ 2 ^ (e + 1)) (key : K) :
    ∃ k, hashfn key % 2 ^ (e + 1) = k * n + hashfn key % n ∧ k * n + n ≤ 2 ^ (e + 1) := by
  have hlt : hashfn key % 2 ^ (e + 1) < 2 ^ (e + 1) := Nat.mod_lt _ (Nat.two_pow_pos _)
  obtain ⟨c, hc⟩ := hn
  refine ⟨hashfn key % 2 ^ (e + 1) / n, ?_, ?_⟩
  · have hmod : hashfn key % 2 ^ (e + 1) % n = hashfn key % n := Nat.mod_mod_of_dvd _ ⟨c, hc⟩
    rw [← hmod, Nat.div_add_mod']
  · have hk : hashfn key % 2 ^ (e + 1) / n < c := Nat.div_lt_of_lt_mul (hc ▸ hlt)
    calc hashfn key % 2 ^ (e + 1) / n * n + n
        = (hashfn key % 2 ^ (e + 1) / n + 1) * n := (Nat.succ_mul _ _).symm
      _ ≤ c * n := Nat.mul_le_mul_right n hk
      _ = 2 ^ (e + 1) := by rw [hc, Nat.mul_comm]

namespace Sparse

/-- **Where an element goes**: not behind the bucket that the loop is at. -/
theorem offset_le (hS : Sparse hashfn n e j r) (hk : k * n + n ≤ 2 ^ (e + 1)) (hh : h ≤ j)
    (hj : j < n) (hbefore : ∀ x < d, r.newFlags.isEmpty (k * n + h + x) = false) : h + d ≤ j := by
  by_contra hlt
  have hsub : Finset.Ico h (j + 1) ⊆ taken r n k h := by
    intro x hx
    rw [Finset.mem_Ico] at hx
    refine Finset.mem_filter.2 ⟨Finset.mem_Ico.2 ⟨hx.1, by omega⟩, ?_⟩
    have hempty := hbefore (x - h) (by omega)
    rwa [show k * n + h + (x - h) = k * n + x by omega] at hempty
  have hcard := (Finset.card_le_card hsub).trans (hS.card_taken k h hk)
  rw [Nat.card_Ico] at hcard
  omega

/-- The loop goes on over a bucket without an element. -/
theorem skip (hS : Sparse hashfn n e j r) (hflag : r.flags.isEither j = true) :
    Sparse hashfn n e (j + 1) r where
  card_taken k q hk := (hS.card_taken k q hk).trans (by omega)
  home_le := hS.home_le
  done i hi := by
    rcases Nat.lt_succ_iff_lt_or_eq.1 hi with hlt | rfl
    · exact hS.done i hlt
    · exact hflag

/-- The loop has put the element of bucket `j` at offset `h` of block `k`. -/
theorem put (hS : Sparse hashfn n e j r) (hold : j < 32 * r.flags.length)
    (hnew : k * n + h < 32 * r.newFlags.length) (hh : h ≤ j) (hj : j < n)
    (hfree : ¬(k * n + h < n ∧ (r.flags.setDel j).isEither (k * n + h) = false)) (key : K)
    (val : V) :
    Sparse hashfn n e (j + 1) ⟨r.flags.setDel j, r.newFlags.clearEmpty (k * n + h),
      r.keys.set (k * n + h) (some key), r.vals.set (k * n + h) (some val), r.lost⟩ where
  card_taken := by
    intro k' q hk'
    set r' : Rehash K V := ⟨r.flags.setDel j, r.newFlags.clearEmpty (k * n + h),
      r.keys.set (k * n + h) (some key), r.vals.set (k * n + h) (some val), r.lost⟩
    have hmem : ∀ x ∈ taken r' n k' q, x ∈ taken r n k' q ∨ x = h := by
      intro x hx
      obtain ⟨hrange, hempty⟩ := Finset.mem_filter.1 hx
      rw [show r'.newFlags = r.newFlags.clearEmpty (k * n + h) from rfl,
        Flags.isEmpty_clearEmpty hnew, Bool.and_eq_false_iff, decide_eq_false_iff_not,
        not_not] at hempty
      rcases hempty with hempty | heq
      · exact .inl (Finset.mem_filter.2 ⟨hrange, hempty⟩)
      · exact .inr (block_eq (Finset.mem_Ico.1 hrange).2 (by omega) heq).2
    have hbound := hS.card_taken k' q hk'
    by_cases hqh : q ≤ h
    · have hsub : taken r' n k' q ⊆ Insert.insert h (taken r n k' q) := fun x hx =>
        Finset.mem_insert.2 (hmem x hx).symm
      have hcard := (Finset.card_le_card hsub).trans (Finset.card_insert_le _ _)
      omega
    · have hsub : taken r' n k' q ⊆ taken r n k' q := by
        intro x hx
        have hrange := (Finset.mem_filter.1 hx).1
        rw [Finset.mem_Ico] at hrange
        exact (hmem x hx).resolve_right (by omega)
      have hcard := Finset.card_le_card hsub
      omega
  home_le := by
    intro i p hp
    have hwrite := oldAt_write (r := { r with flags := r.flags.setDel j })
      (r.newFlags.clearEmpty (k * n + h)) key val r.lost (isEither_of_free hfree)
    rw [oldAt_setDel hold] at hwrite
    rw [hwrite] at hp
    have hsome : ∀ (f : ℕ → Option (K × V)) x, Function.update f x none i = some p →
        f i = some p := by
      intro f x hf
      by_cases hx : i = x
      · rw [hx, Function.update_self] at hf
        cases hf
      · rwa [Function.update_of_ne hx] at hf
    exact hS.home_le i p (hsome _ _ (hsome _ _ hp))
  done := by
    intro i hi
    show (r.flags.setDel j).isEither i = true
    rw [Flags.isEither_setDel hold]
    rcases Nat.lt_succ_iff_lt_or_eq.1 hi with hlt | rfl
    · rw [hS.done i hlt, Bool.true_or]
    · rw [decide_eq_true rfl, Bool.or_true]

variable [DecidableEq K]

/-- **One turn of the outer loop** loses nothing. -/
theorem bucket (hS : Sparse hashfn n e j r) (hM : Moving P hashfn n e all placed lost 0 r)
    (hcard : Multiset.card all ≤ 2 ^ (e + 1)) (hj : j < n) (hn : n ∣ 2 ^ (e + 1))
    (hstep : ∀ key, P.probeStep (hashfn key) = 1) :
    ∃ r' placed', Rehash.bucket P hashfn n (2 ^ (e + 1)) r j = some r' ∧
      Moving P hashfn n e all placed' lost 0 r' ∧ Sparse hashfn n e (j + 1) r' ∧
      r'.lost = r.lost := by
  rw [Rehash.bucket]
  cases hflag : r.flags.isEither j with
  | true => exact ⟨r, placed, by simp, hM, hS.skip hflag, rfl⟩
  | false =>
    obtain ⟨⟨key, val⟩, hpair⟩ := Option.isSome_iff_exists.1 (hM.old_some j hj hflag)
    obtain ⟨hkey, hval⟩ := pairAt_eq_some.1 hpair
    have hold : j < 32 * r.flags.length := hj.trans_le hM.flags_length
    have hlift := hM.lift hj hflag hpair
    obtain ⟨d, hd, hplace, hempty, hbefore⟩ := hlift.exists_place hcard
    obtain ⟨k, hhome, hk⟩ := exists_block hashfn hn key
    have hh : hashfn key % n ≤ j :=
      hS.home_le j (key, val) (by rw [Rehash.oldAt, if_pos ⟨hj, hflag⟩, hpair])
    -- the probe stays in the block: it meets an empty bucket before it leaves it
    have hpath : ∀ x, hashfn key % n + x < n →
        path P hashfn (2 ^ (e + 1)) key x = k * n + (hashfn key % n + x) := by
      intro x hx
      rw [path_linear (hstep key) (by omega), hhome, Nat.add_assoc]
    have hoffset : hashfn key % n + d ≤ j := by
      by_contra hfar
      have hle := hS.offset_le (d := j + 1 - hashfn key % n) hk hh hj fun x hx => ?_
      · omega
      · have hnot := hbefore x (by omega)
        rwa [hpath x (by omega), ← Nat.add_assoc] at hnot
    have hi := hpath d (by omega)
    rw [hi] at hplace hempty
    have hfree : ¬(k * n + (hashfn key % n + d) < n ∧
        (r.flags.setDel j).isEither (k * n + (hashfn key % n + d)) = false) := by
      intro hmet
      have hk0 : k = 0 := by
        by_contra hne
        have := Nat.le_mul_of_pos_left n (Nat.pos_of_ne_zero hne)
        omega
      obtain ⟨hflag', hne⟩ := (isEither_setDel_iff hold _).1 hmet.2
      rw [hk0, Nat.zero_mul, Nat.zero_add] at hflag' hne
      rw [hS.done _ (by omega)] at hflag'
      exact Bool.noConfusion hflag'
    have hnew : k * n + (hashfn key % n + d) < 32 * r.newFlags.length := by
      have := hM.newFlags_length
      omega
    refine ⟨_, _, ?_, hlift.write_free hd hi hempty hbefore hfree,
      hS.put hold hnew hoffset hj hfree key val, rfl⟩
    rw [if_pos rfl, hkey, hval]
    simp only [Option.bind_eq_bind, Option.bind_some]
    rw [Rehash.kickOut, hplace]
    simp only [Option.bind_eq_bind, Option.bind_some]
    rw [if_neg hfree]

/-- The loop over the first `m` buckets loses nothing. -/
theorem buckets (hS : Sparse hashfn n e 0 r) (hM : Moving P hashfn n e all placed lost 0 r)
    (hcard : Multiset.card all ≤ 2 ^ (e + 1)) (hn : n ∣ 2 ^ (e + 1))
    (hstep : ∀ key, P.probeStep (hashfn key) = 1) {m : ℕ} (hm : m ≤ n) :
    ∃ r' placed', (List.range m).foldlM (Rehash.bucket P hashfn n (2 ^ (e + 1))) r = some r' ∧
      Moving P hashfn n e all placed' lost 0 r' ∧ Sparse hashfn n e m r' ∧ r'.lost = r.lost := by
  induction m with
  | zero => exact ⟨r, placed, rfl, hM, hS, rfl⟩
  | succ m ih =>
    obtain ⟨r₁, placed₁, hr₁, hM₁, hS₁, hlost₁⟩ := ih (by omega)
    obtain ⟨r₂, placed₂, hr₂, hM₂, hS₂, hlost₂⟩ := hS₁.bucket hM₁ hcard (by omega) hn hstep
    refine ⟨r₂, placed₂, ?_, hM₂, hS₂, hlost₂.trans hlost₁⟩
    rw [List.range_succ, List.foldlM_append, hr₁]
    simp only [Option.bind_eq_bind, Option.bind_some, List.foldlM_cons, List.foldlM_nil, hr₂]
    rfl

end Sparse

/-! ## Tables -/

/-- No element has wrapped around: each is in the bucket that its hash selects, or behind it. -/
def Unwrapped (hashfn : K → ℕ) (t : AlignHash K V) : Prop :=
  ∀ i < t.nbucket, ∀ p, t.bucketAt i = some p → hashfn p.1 &&& (t.nbucket - 1) ≤ i

theorem Unwrapped.withArrays (h : Unwrapped hashfn t) {keys : List (Option K)}
    {vals : List (Option V)} (hsame : SameBuckets t keys vals) :
    Unwrapped hashfn (t.withArrays keys vals) := by
  intro i hi p hp
  rw [hsame.bucketAt_eq hi] at hp
  exact h i hi p hp

/-- Before the loop, nothing is taken. -/
theorem Unwrapped.sparse (hun : Unwrapped hashfn t) {a : ℕ} (ha : t.nbucket = 2 ^ (a + 1)) :
    Sparse hashfn t.nbucket e 0
      ⟨t.flags, Flags.allEmpty (2 ^ (e + 1)), t.keys, t.vals, t.lost⟩ where
  card_taken k q hk := by
    rw [taken, Finset.filter_eq_empty_iff.2, Finset.card_empty]
    · exact Nat.zero_le _
    · intro x hx hempty
      rw [Finset.mem_Ico] at hx
      have hlength := Flags.le_length_allEmpty e
      rw [Flags.isEmpty_allEmpty (by omega)] at hempty
      exact Bool.noConfusion hempty
  home_le i p hp := by
    rw [Rehash.oldAt] at hp
    split_ifs at hp with hold
    have hbucket : t.bucketAt i = some p := by rw [bucketAt, if_pos hold.2, hp]
    have hhome := hun i hold.1 p hbucket
    rwa [ha, and_mask, ← ha] at hhome
  done i hi := absurd hi (Nat.not_lt_zero i)

variable [DecidableEq K]

theorem Formed.rehash_lossless (hF : Formed P hashfn t) (hun : Unwrapped hashfn t)
    (hstep : ∀ key, P.probeStep (hashfn key) = 1) (hle : t.nbucket ≤ 2 ^ (e + 1))
    (hkeys : 2 ^ (e + 1) ≤ t.keys.length) (hvals : 2 ^ (e + 1) ≤ t.vals.length)
    (hsize : t.size < P.upperBound (2 ^ (e + 1))) {mem : Memory}
    (ht' : t.rehash P hashfn (2 ^ (e + 1)) mem = some t') : t'.lost = [] := by
  rw [rehash] at ht'
  rcases hF.nbucket with ⟨hzero, -, -⟩ | ⟨⟨a, ha⟩, -⟩
  · rw [hzero] at ht'
    cases ht'
    exact hF.lost
  · have hcard : Multiset.card t.elements ≤ 2 ^ (e + 1) := by
      rw [← hF.size_eq]
      exact hsize.le.trans (P.upperBound_le e)
    have hn : t.nbucket ∣ 2 ^ (e + 1) := by
      rw [ha] at hle ⊢
      exact pow_dvd_pow 2 ((Nat.pow_le_pow_iff_right (by decide)).1 hle)
    obtain ⟨r, placed, hr, -, -, hlost⟩ := (hun.sparse ha).buckets
      (hF.moving hkeys hvals) hcard hn hstep le_rfl
    rw [hr] at ht'
    cases ht'
    exact hlost.trans hF.lost

/-- **`alignhash_resize` to more buckets loses nothing.** -/
theorem Formed.resize_lossless (hF : Formed P hashfn t) (hun : Unwrapped hashfn t)
    (hstep : ∀ key, P.probeStep (hashfn key) = 1) (hle : t.nbucket ≤ 2 ^ (e + 1)) {mem : Memory}
    {ok : Bool} (ht' : t.resize P hashfn (2 ^ (e + 1)) mem = some (t', ok)) : t'.lost = [] := by
  rw [resize] at ht'
  split_ifs at ht' with hsize hflags hlt hkeys hvals
  · cases ht'
    exact hF.lost
  · cases ht'
    exact hF.lost
  · cases ht'
    exact hF.lost
  · cases ht'
    exact hF.lost
  · have hgrow := hF.grown true hlt
    obtain ⟨t'', hrehash, heq⟩ := Option.map_eq_some_iff.1 ht'
    cases heq
    exact (hF.withArrays hgrow).rehash_lossless (hun.withArrays hgrow) hstep hle
      (length_resized _ _).ge (length_resized _ _).ge (Nat.lt_of_not_le hsize) hrehash
  · obtain ⟨t'', hrehash, heq⟩ := Option.map_eq_some_iff.1 ht'
    cases heq
    have hge : 2 ^ (e + 1) ≤ t.nbucket := by omega
    exact hF.rehash_lossless hun hstep hle (hge.trans hF.keys_length) (hge.trans hF.vals_length)
      (Nat.lt_of_not_le hsize) hrehash

/-! ## Calls -/

theorem lost_of_set {mem : Memory} {r : AlignHash K V × ℕ × Ret}
    (hset : t.set P hashfn key mem = some r) :
    ∃ t₁ ok, t.room P hashfn mem = some (t₁, ok) ∧ r.1.lost = t₁.lost := by
  obtain ⟨⟨t₁, ok⟩, hroom, hrest⟩ := Option.bind_eq_some_iff.1 hset
  refine ⟨t₁, ok, hroom, ?_⟩
  dsimp only at hrest
  split_ifs at hrest
  · obtain ⟨x, -, hx⟩ := Option.bind_eq_some_iff.1 hrest
    cases hx
    exact (occupy_members t₁ key x).2
  · cases hrest
    rfl

theorem lost_of_insert {mem : Memory} {displace : Bool} {r : AlignHash K V × Option ℕ}
    (hinsert : t.insert P hashfn key val displace mem = some r) :
    ∃ t₁ ok, t.room P hashfn mem = some (t₁, ok) ∧ r.1.lost = t₁.lost := by
  obtain ⟨⟨t₂, itr, ret⟩, hset, hrest⟩ := Option.bind_eq_some_iff.1 hinsert
  obtain ⟨t₁, ok, hroom, hlost⟩ := lost_of_set hset
  refine ⟨t₁, ok, hroom, ?_⟩
  dsimp only at hrest
  split_ifs at hrest <;>
    · cases hrest
      exact hlost

theorem lost_of_indexAssign [Inhabited V] {mem : Memory} {r : AlignHash K V × Option ℕ}
    (hassign : t.indexAssign P hashfn key val mem = some r) :
    ∃ t₁ ok, t.room P hashfn mem = some (t₁, ok) ∧ r.1.lost = t₁.lost := by
  obtain ⟨⟨t₂, itr⟩, hfind, hrest⟩ := Option.bind_eq_some_iff.1 hassign
  rw [findOrInsert_eq] at hfind
  obtain ⟨t₁, ok, hroom, hlost⟩ := lost_of_insert hfind
  refine ⟨t₁, ok, hroom, ?_⟩
  cases itr <;>
    · cases hrest
      exact hlost

/-- `erase` and `clear` lose nothing, and the calls that insert what `alignhash_resize` loses. -/
theorem lost_of_apply [Inhabited V] {c : Call K V} {r : AlignHash K V × Result}
    (hc : c.apply P hashfn t = some r) :
    r.1.lost = t.lost ∨
      ∃ mem t₁ ok, t.room P hashfn mem = some (t₁, ok) ∧ r.1.lost = t₁.lost := by
  cases c with
  | insert key val displace mem =>
    obtain ⟨r', hinsert, rfl⟩ := Option.map_eq_some_iff.1 hc
    exact .inr ⟨mem, lost_of_insert hinsert⟩
  | findOrInsert key val mem =>
    obtain ⟨r', hinsert, rfl⟩ := Option.map_eq_some_iff.1 hc
    rw [findOrInsert_eq] at hinsert
    exact .inr ⟨mem, lost_of_insert hinsert⟩
  | indexAssign key val mem =>
    obtain ⟨r', hassign, rfl⟩ := Option.map_eq_some_iff.1 hc
    exact .inr ⟨mem, lost_of_indexAssign hassign⟩
  | erase key =>
    obtain ⟨t₁, herase, rfl⟩ := Option.map_eq_some_iff.1 hc
    obtain ⟨i, -, rfl⟩ := Option.map_eq_some_iff.1 herase
    left
    show (t.del i).lost = t.lost
    rw [del]
    split_ifs <;> rfl
  | clear =>
    cases hc
    left
    show t.clear.lost = t.lost
    rw [clear]
    split_ifs <;> rfl

/-- **When nothing is lost.** With linear probing, after calls that have lost nothing and as long as
no element has wrapped around the end, `alignhash_resize` to no fewer buckets loses nothing, and
neither does the next call, whatever it is. -/
theorem lossless_of_unwrapped [Inhabited V] {m : Finmap fun _ : K => V}
    (hs : (paired K V P hashfn).Reach (Lossless P hashfn) (t, m))
    (hstep : ∀ key, P.probeStep (hashfn key) = 1) (hun : Unwrapped hashfn t) :
    (∀ e mem, t.nbucket ≤ 2 ^ (e + 1) → ∃ t' ok,
      t.resize P hashfn (2 ^ (e + 1)) mem = some (t', ok) ∧ t'.lost = [] ∧
        t'.elements = t.elements) ∧
    ∀ c : Call K V, Lossless P hashfn (t, m) c := by
  have hF := (represents_of_reach hs).formed
  refine ⟨fun e mem hle => ?_, fun c r hr => ?_⟩
  · obtain ⟨t', ok, hresize, hresized, -⟩ := hF.resize_spec e mem
    have hlost := hF.resize_lossless hun hstep hle hresize
    exact ⟨t', ok, hresize, hlost, (hresized.formed hlost).2⟩
  · rcases lost_of_apply hr with hsame | ⟨mem, t₁, ok, hroom, hlost⟩
    · exact hsame.trans hF.lost
    · rw [hlost]
      by_cases hfull : t.nused ≥ t.sup
      · obtain ⟨e, hask, hlt, -⟩ := hF.exists_larger
        rw [room, if_pos hfull, hask] at hroom
        exact hF.resize_lossless hun hstep hlt.le hroom
      · rw [room, if_neg hfull] at hroom
        cases hroom
        exact hF.lost

/-- A table of four buckets with `1` and, behind it, `5`: the next call makes it larger. -/
theorem lossless_of_unwrapped_two : ∃ t m,
    (paired ℕ ℕ linear id).Reach (Lossless linear id) (t, m) ∧ t.nbucket = 4 ∧
      t.nused = t.sup ∧ Lossless linear id (t, m) (.insert 3 30 false .ample) ∧
      ∃ t' ok, t.resize linear id 8 .ample = some (t', ok) ∧ t'.elements = t.elements := by
  have hrun : ∃ t m, (paired ℕ ℕ linear id).Reach (Lossless linear id) (t, m) ∧ t.nbucket = 4 ∧
      t.nused = t.sup ∧ t.bucketAt 0 = none ∧ t.bucketAt 1 = some (1, 10) ∧
      t.bucketAt 2 = some (5, 50) ∧ t.bucketAt 3 = none :=
    ⟨_, _, (paired ℕ ℕ linear id).reach_of_run _
      [.insert 1 10 false .ample, .insert 5 50 false .ample] rfl, by decide, by decide, by decide,
      by decide, by decide, by decide⟩
  obtain ⟨t, m, hs, hn, hfull, hzero, hone, htwo, hthree⟩ := hrun
  have hun : Unwrapped id t := by
    intro i hi p hp
    rw [hn] at hi ⊢
    interval_cases i
    · rw [hzero] at hp
      cases hp
    · rw [hone] at hp
      cases hp
      decide
    · rw [htwo] at hp
      cases hp
      decide
    · rw [hthree] at hp
      cases hp
  obtain ⟨hresize, hnext⟩ := lossless_of_unwrapped hs (fun _ => rfl) hun
  obtain ⟨t', ok, ht', -, helements⟩ := hresize 2 .ample (by rw [hn]; decide)
  exact ⟨t, m, hs, hn, hfull, hnext _, t', ok, ht', helements⟩

end AlignHash

end Naesala
