import Naesala.Hashmap.Formed
import Naesala.Hashmap.Lifetimes

/-!
# Mapped objects are constructed and destroyed in balance

`Tidy` is the invariant of a table: a bucket holds a constructed object exactly when its key is not
one of the sentinels. What the program does with the key of a bucket and what it does with the
object go together in every operation, with one exception: `Resize` leaves moved-from keys beside
objects that are still constructed. If such a key is a sentinel, `Destory` passes the object by; so
`Tidy` asks that no key be left as one (`Harmless`).

`Kept` is what an operation on one table does: it returns what the plain operation returns, a tidy
table, and the ledger accounts for the change in the number of objects. `apply_spec` says so of
every call on one map.
-/

namespace Naesala

namespace Lifetimes

open LinearHashmap Checked

variable {K V : Type} [DecidableEq K] {F : Functors K} {left : ℕ → K → K}
variable {h h' h'' t t' source newLh : LinearHashmap K V} {key : K} {value : V} {displace : Bool}
variable {index n : ℕ} {l l' l'' : Ledger} {bs : List (Bucket K V)}

/-! ## The ledger -/

/-- The number of constructed objects in the buckets. -/
def live (bs : List (Bucket K V)) : ℕ := (bs.map fun b => b.second.isSome.toNat).sum

/-- From `l` to `l'` the number of objects has gone from `a` to `b`. -/
def Ledger.Balance (l l' : Ledger) (a b : ℕ) : Prop :=
  l'.constructed + l.destroyed + a = l.constructed + l'.destroyed + b

namespace Ledger.Balance

variable {a b c d : ℕ}

theorem refl (l : Ledger) (a : ℕ) : Balance l l a a := rfl

theorem trans (h : Balance l l' a b) (h' : Balance l' l'' b c) : Balance l l'' a c := by
  unfold Balance at *
  omega

theorem add (h : Balance l l' a b) (h' : Balance l' l'' c d) :
    Balance l l'' (a + c) (b + d) := by
  unfold Balance at *
  omega

/-- A change in two parts, with a ledger between them. -/
theorem split (h : Balance l l' (a + c) (b + d)) :
    ∃ l₁, Balance l l₁ a b ∧ Balance l₁ l' c d := by
  unfold Balance at *
  refine ⟨⟨l.constructed + b, l.destroyed + a⟩, ?_, ?_⟩
  · show l.constructed + b + l.destroyed + a = l.constructed + (l.destroyed + a) + b
    omega
  · show l'.constructed + (l.destroyed + a) + c = l.constructed + b + l'.destroyed + d
    omega

end Ledger.Balance

open Ledger (Balance)

theorem sum_map_set {α : Type} (f : α → ℕ) {as : List α} (hi : index < as.length) (a : α) :
    ((as.set index a).map f).sum + f as[index] = (as.map f).sum + f a := by
  induction as generalizing index with
  | nil => exact absurd hi (Nat.not_lt_zero _)
  | cons b as ih =>
    cases index with
    | zero =>
      simp only [List.set_cons_zero, List.map_cons, List.sum_cons, List.getElem_cons_zero]
      omega
    | succ index =>
      have hrest := ih (Nat.lt_of_succ_lt_succ hi)
      simp only [List.set_cons_succ, List.map_cons, List.sum_cons, List.getElem_cons_succ]
      omega

omit [DecidableEq K] in
theorem live_setBucket (hi : index < h.buckets.length) (b : Bucket K V) :
    live (h.setBucket index b).buckets + (h.valueAt index).isSome.toNat =
      live h.buckets + b.second.isSome.toNat := by
  have hget : h.valueAt index = h.buckets[index].second := by
    simp [valueAt, List.getElem?_eq_getElem hi]
  rw [hget]
  exact sum_map_set (fun b => b.second.isSome.toNat) hi b

/-! ## Mapped objects -/

theorem construct_spec {second : Option V} (hsecond : second.isSome = false) (value : V)
    (l : Ledger) : Ensures (construct second value) l fun o l' =>
      o = some value ∧ Balance l l' 0 1 := by
  rw [construct, if_neg (by simp [hsecond])]
  exact ⟨rfl, by simp only [Balance]; omega⟩

theorem assign_spec {second : Option V} (hsecond : second.isSome = true) (value : V) (l : Ledger) :
    Ensures (assign second value) l fun o l' => o = some value ∧ l' = l := by
  rw [assign, if_pos hsecond]
  exact ⟨rfl, rfl⟩

theorem destroy_spec {second : Option V} (hsecond : second.isSome = true) (l : Ledger) :
    Ensures (destroy second) l fun o l' => o = none ∧ Balance l l' 1 0 := by
  rw [destroy, if_pos hsecond]
  exact ⟨rfl, by simp only [Balance]; omega⟩

theorem read_spec {second : Option V} (hsecond : second.isSome = true) (l : Ledger) :
    Ensures (read second) l fun v l' => second = some v ∧ l' = l := by
  obtain ⟨v, rfl⟩ := Option.isSome_iff_exists.1 hsecond
  exact ⟨rfl, rfl⟩

omit [DecidableEq K] in
theorem ensures_each {α : Type} {g : α → Tracked (Bucket K V)} {p : α → Bucket K V} {before : α → ℕ}
    {as : List α} (hg : ∀ a ∈ as, ∀ l, Ensures (g a) l fun b l' =>
      b = p a ∧ Balance l l' (before a) b.second.isSome.toNat) (l : Ledger) :
    Ensures (as.mapM' g) l fun bs l' =>
      bs = as.map p ∧ Balance l l' (as.map before).sum (live bs) := by
  refine ensures_mapM'
    (R := fun a b l l' => b = p a ∧ Balance l l' (before a) b.second.isSome.toNat)
    (T := fun as bs l l' => bs = as.map p ∧ Balance l l' (as.map before).sum (live bs))
    (fun l => ⟨rfl, .refl l 0⟩) ?_ hg l
  intro a b as bs l l₁ l₂ hone hrest
  obtain ⟨rfl, hb⟩ := hone
  obtain ⟨rfl, hbs⟩ := hrest
  exact ⟨rfl, hb.add hbs⟩

/-! ## The invariant of a table -/

/-- No key that is not a sentinel of the table is left as one. -/
def Harmless (left : ℕ → K → K) (h : LinearHashmap K V) : Prop :=
  ∀ n k, h.isSentinel k = false → h.isSentinel (left n k) = false

/-- A bucket holds a constructed object exactly when its key is not a sentinel. -/
structure Tidy (left : ℕ → K → K) (h : LinearHashmap K V) : Prop where
  constructed : ∀ b ∈ h.buckets, b.second.isSome = !h.isSentinel b.first
  length : h.buckets.length = h.bucketCount
  bound : h.bucketCount < 2 ^ 64
  mask : h.bucketCount ≠ 0 → h.mask + 1 = h.bucketCount
  harmless : Harmless left h

/-- What has become of a table and the ledger. -/
structure Kept (left : ℕ → K → K) (h : LinearHashmap K V) (l : Ledger) (h' : LinearHashmap K V)
    (l' : Ledger) : Prop where
  tidy : Tidy left h'
  alike : SameSentinels h h'
  balance : Balance l l' (live h.buckets) (live h'.buckets)

theorem Kept.trans (hk : Kept left h l h' l') (hk' : Kept left h' l' h'' l'') :
    Kept left h l h'' l'' :=
  ⟨hk'.tidy, hk.alike.trans hk'.alike, hk.balance.trans hk'.balance⟩

theorem Tidy.refl (hT : Tidy left h) (l : Ledger) : Kept left h l h l :=
  ⟨hT, ⟨rfl, rfl⟩, .refl l _⟩

/-! ## `Set` and `Resize` -/

theorem Tidy.valueAt (hT : Tidy left h) (hi : index < h.bucketCount) :
    (h.valueAt index).isSome = h.existsAt index := by
  have hi' : index < h.buckets.length := by rwa [hT.length]
  have hget : h.valueAt index = h.buckets[index].second := by
    simp [LinearHashmap.valueAt, List.getElem?_eq_getElem hi']
  rw [hget, existsAt_eq, keyAt_eq_first hi']
  exact hT.constructed _ (List.getElem_mem hi')

theorem Tidy.setBucket (hT : Tidy left h) {b : Bucket K V}
    (hb : b.second.isSome = !h.isSentinel b.first) (index : ℕ) :
    Tidy left (h.setBucket index b) := by
  refine ⟨?_, ?_, hT.bound, hT.mask, hT.harmless⟩
  · intro b' hb'
    rcases List.mem_or_eq_of_mem_set hb' with hb' | rfl
    · exact hT.constructed b' hb'
    · exact hb
  · rw [← show h.buckets.length = (h.setBucket index b).bucketCount from hT.length]
    exact List.length_set

/-- The end of `Set` constructs an object where there is none, and assigns to one where there is. -/
theorem place_spec (hT : Tidy left h) (hi : index < h.bucketCount)
    (hkey : h.isSentinel key = false) (value : V) (displace : Bool) (l : Ledger) :
    Ensures (place h index key value displace) l fun p l' =>
      p.1 = h.place index key value displace ∧ Kept left h l p.1 l' ∧
        p.1.existsAt index = true := by
  have hi' : index < h.buckets.length := by rwa [hT.length]
  have hvalue := hT.valueAt hi
  have hlive := live_setBucket hi' (⟨key, some value⟩ : Bucket K V)
  have hT' := hT.setBucket (b := ⟨key, some value⟩) (by simp [hkey]) index
  have hexists : (h.setBucket index ⟨key, some value⟩).existsAt index = true := by
    rw [existsAt_eq, keyAt_setBucket_self hi']
    exact congrArg not hkey
  unfold place LinearHashmap.place
  split_ifs with he hd hempty
  · rw [he] at hvalue
    refine (assign_spec hvalue value l).bind ?_
    intro o l' ho
    obtain ⟨rfl, rfl⟩ := ho
    refine ⟨rfl, ⟨hT', ⟨rfl, rfl⟩, ?_⟩, hexists⟩
    rw [hvalue] at hlive
    rw [Nat.add_right_cancel hlive]
    exact .refl _ _
  · exact ⟨rfl, hT.refl l, he⟩
  all_goals
    rw [Bool.not_eq_true] at he
    rw [he] at hvalue
    refine (construct_spec hvalue value l).bind ?_
    intro o l' ho
    obtain ⟨rfl, hbalance⟩ := ho
    refine ⟨rfl, ⟨⟨hT'.constructed, hT'.length, hT'.bound, hT'.mask, hT'.harmless⟩,
      ⟨rfl, rfl⟩, ?_⟩, hexists⟩
    rw [hvalue] at hlive
    have hadd := (Balance.refl l (live h.buckets)).add hbalance
    rwa [← show live (h.setBucket index ⟨key, some value⟩).buckets = live h.buckets + 1 from hlive]
      at hadd

omit [DecidableEq K] in
theorem live_eq_zero (hbs : ∀ b ∈ bs, b.second = none) : live bs = 0 := by
  induction bs with
  | nil => rfl
  | cons b bs ih =>
    rw [live, List.map_cons, List.sum_cons, hbs b List.mem_cons_self]
    exact (Nat.zero_add _).trans (ih fun b hb => hbs b (List.mem_cons_of_mem _ hb))

/-- The destructor destroys every object, as long as it can tell from the keys where they are. -/
theorem destory_spec (hcon : ∀ b ∈ h.buckets, b.second.isSome = !h.isSentinel b.first)
    (hnull : h.bucketCount = 0 → h.buckets = []) (l : Ledger) :
    Ensures (destory h) l fun h' l' => h' = h.destory ∧ Balance l l' (live h.buckets) 0 := by
  unfold destory LinearHashmap.destory
  split_ifs with h0
  · refine ⟨rfl, ?_⟩
    rw [hnull h0]
    exact .refl l 0
  have hpass : ∀ b ∈ h.buckets, ∀ l, Ensures (destroyBucket h b) l fun b' l' =>
      b' = ⟨b.first, none⟩ ∧ Balance l l' b.second.isSome.toNat b'.second.isSome.toNat := by
    intro b hb l
    have hsome := hcon b hb
    unfold destroyBucket
    split_ifs with hs
    · rw [hs] at hsome
      have hnone : b.second = none := by simpa using hsome
      refine ⟨?_, .refl l _⟩
      rw [← hnone]
    · rw [Bool.not_eq_true] at hs
      rw [hs] at hsome
      refine (destroy_spec hsome l).bind ?_
      intro o l' ho
      obtain ⟨rfl, hbalance⟩ := ho
      refine ⟨rfl, ?_⟩
      rw [hsome]
      exact hbalance
  refine (ensures_each hpass l).bind ?_
  intro bs l' hbs
  obtain ⟨rfl, hbalance⟩ := hbs
  have hnone : ∀ b ∈ h.buckets.map fun b => (⟨b.first, none⟩ : Bucket K V), b.second = none := by
    intro b hb
    obtain ⟨b', -, rfl⟩ := List.mem_map.1 hb
    rfl
  have hempty : ((h.buckets.map fun b => (⟨b.first, none⟩ : Bucket K V)).any
      fun b => b.second.isSome) = false := by
    rw [List.any_eq_false]
    intro b hb
    simp [hnone b hb]
  rw [deallocate, if_neg (by simp [hempty]), live_eq_zero hnone] at *
  exact ⟨rfl, hbalance⟩

theorem Tidy.destory (hT : Tidy left h) (l : Ledger) :
    Ensures (destory h) l fun h' l' => h' = h.destory ∧ Balance l l' (live h.buckets) 0 := by
  refine destory_spec hT.constructed ?_ l
  intro h0
  rw [← List.length_eq_zero_iff, hT.length, h0]

theorem Harmless.of_same (hh : Harmless left h) (hs : SameSentinels h h') : Harmless left h' := by
  intro n k hk
  rw [hs.isSentinel_eq] at hk ⊢
  exact hh n k hk

theorem tidy_firstResize (hh : Harmless left h) (hn : n < 2 ^ 64) :
    Tidy left (h.firstResize n) ∧ live (h.firstResize n).buckets = 0 := by
  have hraw : ∀ b ∈ (h.firstResize n).buckets, b = ⟨h.emptyKey, none⟩ :=
    fun b hb => List.eq_of_mem_replicate hb
  refine ⟨⟨?_, List.length_replicate, hn, ?_, hh⟩, live_eq_zero fun b hb => by rw [hraw b hb]⟩
  · intro b hb
    rw [hraw b hb]
    simp [firstResize, isSentinel]
  · intro h0
    have hpos : n ≠ 0 := h0
    show (n + (2 ^ 64 - 1)) % 2 ^ 64 + 1 = n
    omega

theorem tidy_blank {e d : K} (hh : Harmless left (blank e d : LinearHashmap K V)) :
    Tidy left (blank e d : LinearHashmap K V) :=
  ⟨fun _ hb => absurd hb List.not_mem_nil, rfl, Nat.two_pow_pos 64, fun h0 => absurd rfl h0, hh⟩

theorem tidy_construct {e d : K} (hh : Harmless left (blank e d : LinearHashmap K V))
    (ht : LinearHashmap.construct n e d = some t) :
    Tidy left t ∧ live t.buckets = 0 ∧ SameSentinels (blank e d) t := by
  unfold LinearHashmap.construct at ht
  split_ifs at ht
  · cases ht
    obtain ⟨hT, hlive⟩ := tidy_firstResize hh (nextPowTwo_lt n)
    exact ⟨hT, hlive, rfl, rfl⟩
  · cases ht
    exact ⟨tidy_blank hh, rfl, rfl, rfl⟩

/-- `Set` keeps a table tidy, and does what the plain one does. -/
def SetSpec (left : ℕ → K → K) (set : SetFun K V)
    (plain : LinearHashmap K V → K → V → Bool → Option (LinearHashmap K V × ℕ)) : Prop :=
  ∀ (h : LinearHashmap K V) (key : K) (value : V) (displace : Bool) (l : Ledger), Tidy left h →
    h.isSentinel key = false → Ensures (set h key value displace) l fun r l' =>
      plain h key value displace = some (r.1, r.2.1) ∧ Kept left h l r.1 l' ∧
        r.2.1 < r.1.bucketCount ∧ r.1.existsAt r.2.1 = true

section Resize

variable {set : SetFun K V}
variable {plain : LinearHashmap K V → K → V → Bool → Option (LinearHashmap K V × ℕ)}

/-- One bucket is moved. Whatever is left of its key is not a sentinel. -/
theorem moveInto_spec (hset : SetSpec left set plain) (hh : Harmless left h) {b : Bucket K V}
    (hb : b.second.isSome = !h.isSentinel b.first) (hT : Tidy left newLh)
    (hs : SameSentinels h newLh)
    (l : Ledger) : Ensures (moveInto left set h newLh b) l fun p l' =>
      LinearHashmap.moveInto plain h newLh b = some p.1 ∧ Kept left newLh l p.1 l' ∧
        p.2.second = b.second ∧ h.isSentinel p.2.first = h.isSentinel b.first := by
  unfold moveInto LinearHashmap.moveInto
  split_ifs with hsent
  · exact ⟨rfl, hT.refl l, rfl, rfl⟩
  rw [Bool.not_eq_true] at hsent
  rw [hsent] at hb
  refine (read_spec hb l).bind ?_
  intro value l' hread
  obtain ⟨hvalue, rfl⟩ := hread
  have hkey : newLh.isSentinel b.first = false := (hs.isSentinel_eq _).trans hsent
  refine (hset newLh b.first value false l' hT hkey).bind ?_
  intro p l'' hp
  obtain ⟨t, i, assigned⟩ := p
  obtain ⟨hplain, hkept, -, -⟩ := hp
  refine ⟨?_, hkept, ?_, ?_⟩
  · rw [hvalue, Option.bind_some, hplain]
    rfl
  · dsimp only
    split_ifs <;> rfl
  · dsimp only
    split_ifs
    · rw [hsent]
      exact hh _ _ hsent
    · rfl

theorem moveAll_spec (hset : SetSpec left set plain) (hh : Harmless left h)
    (hbs : ∀ b ∈ bs, b.second.isSome = !h.isSentinel b.first) (hT : Tidy left newLh)
    (hs : SameSentinels h newLh) (l : Ledger) :
    Ensures (moveAll left set h newLh bs) l fun p l' =>
      bs.foldlM (LinearHashmap.moveInto plain h) newLh = some p.1 ∧ Kept left newLh l p.1 l' ∧
        (∀ b ∈ p.2, b.second.isSome = !h.isSentinel b.first) ∧ p.2.length = bs.length ∧
        live p.2 = live bs := by
  induction bs generalizing newLh l with
  | nil => exact ⟨rfl, hT.refl l, hbs, rfl, rfl⟩
  | cons b bs ih =>
    have hb := hbs b List.mem_cons_self
    refine (moveInto_spec hset hh hb hT hs l).bind ?_
    intro p l' hp
    obtain ⟨t, b'⟩ := p
    obtain ⟨hmove, hkept, hsecond, hfirst⟩ := hp
    refine (ih (fun c hc => hbs c (List.mem_cons_of_mem _ hc)) hkept.tidy
      (hs.trans hkept.alike) l').bind ?_
    intro p l'' hp
    obtain ⟨t', bs'⟩ := p
    obtain ⟨hfold, hkept', hcon, hlength, hlive⟩ := hp
    refine ⟨?_, hkept.trans hkept', ?_, congrArg (· + 1) hlength, ?_⟩
    · rw [List.foldlM_cons, hmove]
      exact hfold
    · intro c hc
      rcases List.mem_cons.1 hc with rfl | hc
      · rw [hsecond, hfirst]
        exact hb
      · exact hcon c hc
    · show b'.second.isSome.toNat + live bs' = b.second.isSome.toNat + live bs
      rw [hsecond, hlive]

/-- **The rebuilt table has all objects, and the abandoned one is destructed with none left.** -/
theorem resizeWith_spec (hset : SetSpec left set plain) (hT : Tidy left h)
    (hn : h.bucketCount = 0 → n < 2 ^ 64) (l : Ledger) :
    Ensures (resizeWith left set h n) l fun h' l' =>
      LinearHashmap.resizeWith plain h n = some h' ∧ Kept left h l h' l' := by
  unfold resizeWith LinearHashmap.resizeWith
  split_ifs with h0
  · obtain ⟨hT', hlive⟩ := tidy_firstResize hT.harmless (hn h0)
    have hnil : h.buckets = [] := by rw [← List.length_eq_zero_iff, hT.length, h0]
    refine ⟨rfl, hT', ⟨rfl, rfl⟩, ?_⟩
    rw [hlive, hnil]
    exact .refl l 0
  refine ensures_ofOption_bind ?_
  intro t ht
  obtain ⟨hTt, hlive, hs⟩ := tidy_construct (hT.harmless.of_same ⟨rfl, rfl⟩) ht
  refine (moveAll_spec hset hT.harmless hT.constructed hTt hs l).bind ?_
  intro p l₁ hp
  obtain ⟨t', bs⟩ := p
  obtain ⟨hfold, hkept, hcon, hlength, hlive'⟩ := hp
  have hsame : h.emptyKey = t'.emptyKey ∧ h.erasedKey = t'.erasedKey :=
    ⟨(hs.trans hkept.alike).1.symm, (hs.trans hkept.alike).2.symm⟩
  refine ensures_ofOption_bind ?_
  intro p hp
  have hp' : swap { h with buckets := bs } t' = some p := hp
  rw [swap, if_pos hsame] at hp'
  cases hp'
  refine (destory_spec (h := { h with buckets := bs }) hcon (fun hzero => absurd hzero h0)
    l₁).bind ?_
  intro _ l₂ hp
  obtain ⟨-, hbalance⟩ := hp
  refine ⟨?_, hkept.tidy, ?_, ?_⟩
  · rw [ht]
    show (h.buckets.foldlM (LinearHashmap.moveInto plain h) t).bind _ = _
    rw [hfold]
    show (swap h t').bind _ = _
    rw [swap, if_pos hsame]
    rfl
  · exact hs.trans hkept.alike
  · have hmoved := hkept.balance.add hbalance
    rw [hlive, hlive'] at hmoved
    simpa using hmoved

end Resize

theorem Tidy.scan_lt (hT : Tidy left h) {cont : ℕ → Bool} {k : ℕ}
    (hscan : scan cont h.next h.bucketCount (k &&& h.mask) = some index) :
    index < h.bucketCount := by
  obtain ⟨d, hd, rfl, -, -⟩ := Cyclic.scan_eq_some_iff.1 hscan
  have hmask := hT.mask (by omega)
  have hle : ∀ m : ℕ, m &&& h.mask < h.bucketCount := by
    intro m
    have hand : m &&& h.mask ≤ h.mask := Nat.and_le_right
    omega
  cases d with
  | zero => exact hle k
  | succ d =>
    rw [Function.iterate_succ_apply']
    exact hle _

omit [DecidableEq K] in
theorem growCount_lt (h : LinearHashmap K V) : h.growCount < 2 ^ 64 := by
  unfold growCount sizeT
  split_ifs <;> omega

theorem setNested_spec (depth : ℕ) : SetSpec (V := V) left (setNested F left depth)
    (LinearHashmap.setNested F depth) := by
  induction depth with
  | zero =>
    intro h key value displace l _ _
    exact ensures_ofOption.2 fun _ hnone => by cases hnone
  | succ depth ih =>
    intro h key value displace l hT hkey
    have hexpand : Ensures (expandWith left (setNested F left depth) h) l fun t l' =>
        LinearHashmap.expandWith (LinearHashmap.setNested F depth) h = some t ∧
          Kept left h l t l' := by
      unfold expandWith LinearHashmap.expandWith
      split_ifs
      · exact resizeWith_spec ih hT (fun _ => growCount_lt h) l
      · exact ⟨rfl, hT.refl l⟩
    refine hexpand.bind ?_
    intro t l₁ ht
    refine ensures_ofOption_bind ?_
    intro index hscan
    have hlt := ht.2.tidy.scan_lt hscan
    have hkey' : t.isSentinel key = false := (ht.2.alike.isSentinel_eq key).trans hkey
    refine (place_spec ht.2.tidy hlt hkey' value displace l₁).bind ?_
    intro p l₂ hp
    obtain ⟨t', assigned⟩ := p
    obtain ⟨rfl, hkept, hexists⟩ := hp
    refine ⟨?_, ht.2.trans hkept, ?_, hexists⟩
    · show ((LinearHashmap.expandWith (LinearHashmap.setNested F depth) h).bind _) = _
      rw [ht.1]
      show ((scan (t.setCont F key) t.next t.bucketCount (F.hasher key &&& t.mask)).bind _) = _
      rw [hscan]
      rfl
    · show index < (t.place index key value displace).bucketCount
      rwa [bucketCount_place]

theorem set_spec (F : Functors K) :
    SetSpec (V := V) left (set F left) (LinearHashmap.set F) :=
  setNested_spec maxNesting

/-! ## `Delete` -/

theorem delete_spec (hT : Tidy left h) (index : ℕ) (l : Ledger) :
    Ensures (delete F left h index) l fun h' l' =>
      h.delete F index = some h' ∧ Kept left h l h' l' := by
  unfold delete LinearHashmap.delete
  split_ifs with hout
  · exact ⟨rfl, hT.refl l⟩
  have hin : index < h.bucketCount ∧ h.deletedOrEmptyAt index = false := by simpa using hout
  have hi' : index < h.buckets.length := by
    rw [hT.length]
    exact hin.1
  have hsome : (h.valueAt index).isSome = true := by
    rw [hT.valueAt hin.1, existsAt, hin.2]
    rfl
  have hlive := live_setBucket hi' (⟨h.erasedKey, none⟩ : Bucket K V)
  rw [hsome] at hlive
  have hT' := hT.setBucket (b := ⟨h.erasedKey, none⟩) (by simp [isSentinel]) index
  have hdeleted : Ensures (setDeleted h index) l fun t l' =>
      t = h.setDeleted index ∧ Kept left h l t l' := by
    refine (destroy_spec hsome l).bind ?_
    intro o l' ho
    obtain ⟨rfl, hbalance⟩ := ho
    refine ⟨rfl, hT', ⟨rfl, rfl⟩, ?_⟩
    have hadd :=
      (Balance.refl l (live (h.setBucket index ⟨h.erasedKey, none⟩).buckets)).add hbalance
    rwa [show live (h.setBucket index ⟨h.erasedKey, none⟩).buckets + 1 = live h.buckets from hlive]
      at hadd
  refine hdeleted.bind ?_
  intro t l₁ ht
  obtain ⟨rfl, hkept⟩ := ht
  have hkept' : Kept left h l { h.setDeleted index with size := h.size - 1 } l₁ :=
    ⟨⟨hkept.tidy.constructed, hkept.tidy.length, hkept.tidy.bound, hkept.tidy.mask,
      hkept.tidy.harmless⟩, hkept.alike, hkept.balance⟩
  dsimp only
  split_ifs with hshrink
  · refine (resizeWith_spec (set_spec F) hkept'.tidy ?_ l₁).mono ?_
    · intro h0
      have hpos := hshrink.2
      rw [h0] at hpos
      exact absurd hpos (Nat.not_lt_zero _)
    · intro h' l' hh'
      exact ⟨hh'.1, hkept'.trans hh'.2⟩
  · exact ⟨rfl, hkept'⟩

/-! ## `clear` and copies -/

theorem second_eq_none {b : Bucket K V} (hb : b.second.isSome = !h.isSentinel b.first)
    (hs : h.isSentinel b.first = true) : b.second = none := by
  rw [hs] at hb
  simpa using hb

theorem clearBucket_eq {b : Bucket K V} (hb : b.second.isSome = !h.isSentinel b.first) :
    h.clearBucket b = ⟨h.emptyKey, none⟩ := by
  unfold LinearHashmap.clearBucket
  split_ifs with hempty herased
  · rw [← hempty, ← second_eq_none hb (by simp [isSentinel, hempty])]
  · rfl
  · rw [second_eq_none hb (by simp [isSentinel, not_not.1 herased])]

theorem clearBucket_spec {b : Bucket K V} (hb : b.second.isSome = !h.isSentinel b.first)
    (l : Ledger) : Ensures (clearBucket h b) l fun b' l' =>
      b' = ⟨h.emptyKey, none⟩ ∧ Balance l l' b.second.isSome.toNat 0 := by
  unfold clearBucket
  split_ifs with hempty herased
  · have hnone := second_eq_none hb (by simp [isSentinel, hempty])
    refine ⟨?_, ?_⟩
    · rw [← hempty, ← hnone]
    · rw [hnone]
      exact .refl l 0
  · rw [show h.isSentinel b.first = false by simp [isSentinel, hempty, herased]] at hb
    refine (destroy_spec hb l).bind ?_
    intro o l' ho
    obtain ⟨rfl, hbalance⟩ := ho
    refine ⟨rfl, ?_⟩
    rw [hb]
    exact hbalance
  · have hnone := second_eq_none hb (by simp [isSentinel, not_not.1 herased])
    refine ⟨?_, ?_⟩
    · rw [hnone]
    · rw [hnone]
      exact .refl l 0

theorem clear_spec (hT : Tidy left h) (l : Ledger) :
    Ensures (clear h) l fun h' l' => h' = h.clear ∧ Kept left h l h' l' := by
  have hraw : h.buckets.map h.clearBucket = h.buckets.map fun _ => ⟨h.emptyKey, none⟩ :=
    List.map_congr_left fun b hb => clearBucket_eq (hT.constructed b hb)
  have hpass : ∀ b ∈ h.buckets, ∀ l, Ensures (clearBucket h b) l fun b' l' =>
      b' = ⟨h.emptyKey, none⟩ ∧ Balance l l' b.second.isSome.toNat b'.second.isSome.toNat := by
    intro b hb l
    refine (clearBucket_spec (hT.constructed b hb) l).mono ?_
    intro b' l' hb'
    obtain ⟨rfl, hbalance⟩ := hb'
    exact ⟨rfl, hbalance⟩
  refine (ensures_each hpass l).bind ?_
  intro bs l' hbs
  obtain ⟨rfl, hbalance⟩ := hbs
  refine ⟨?_, ⟨?_, ?_, hT.bound, hT.mask, hT.harmless⟩, ⟨rfl, rfl⟩, hbalance⟩
  · rw [LinearHashmap.clear, hraw]
  · intro b hb
    obtain ⟨b', -, rfl⟩ := List.mem_map.1 hb
    simp [isSentinel]
  · show (h.buckets.map _).length = h.bucketCount
    rw [List.length_map, hT.length]

theorem Tidy.live_of_null (hT : Tidy left h) (h0 : h.bucketCount = 0) : live h.buckets = 0 := by
  have hnil : h.buckets = [] := by rw [← List.length_eq_zero_iff, hT.length, h0]
  rw [hnil]
  rfl

theorem copyBucket_eq {b : Bucket K V} (hb : b.second.isSome = !h.isSentinel b.first) :
    h.copyBucket b = b := by
  unfold LinearHashmap.copyBucket
  split_ifs with hs
  · rw [← second_eq_none hb hs]
  · rfl

theorem copyBucket_spec {b : Bucket K V} (hb : b.second.isSome = !h.isSentinel b.first)
    (l : Ledger) : Ensures (copyBucket h b) l fun b' l' =>
      b' = b ∧ Balance l l' 0 b'.second.isSome.toNat := by
  unfold copyBucket
  split_ifs with hs
  · refine ⟨?_, .refl l 0⟩
    rw [← second_eq_none hb hs]
  · rw [Bool.not_eq_true] at hs
    rw [hs] at hb
    refine (read_spec hb l).bind ?_
    intro value l' hvalue
    obtain ⟨hvalue, rfl⟩ := hvalue
    refine (construct_spec rfl value l').bind ?_
    intro o l'' ho
    obtain ⟨rfl, hbalance⟩ := ho
    refine ⟨?_, hbalance⟩
    rw [← hvalue]

theorem uninitializedCopy_spec (hT : Tidy left h) (hTs : Tidy left source)
    (hs : SameSentinels source h) (l : Ledger) :
    Ensures (uninitializedCopy h source) l fun h' l' =>
      h.uninitializedCopy source = some h' ∧ Kept left h l h' l' := by
  have hcon : ∀ b ∈ source.buckets, b.second.isSome = !h.isSentinel b.first := by
    intro b hb
    rw [hs.isSentinel_eq]
    exact hTs.constructed b hb
  have hsame : source.buckets.map h.copyBucket = source.buckets := by
    conv_rhs => rw [← List.map_id source.buckets]
    exact List.map_congr_left fun b hb => copyBucket_eq (hcon b hb)
  unfold uninitializedCopy LinearHashmap.uninitializedCopy
  split_ifs with hnot
  · exact ensures_ofOption.2 fun _ hnone => absurd hnone (by simp)
  have h0 : h.bucketCount = 0 := by
    by_contra hne
    exact hnot (Or.inl hne)
  have hpass : ∀ b ∈ source.buckets, ∀ l, Ensures (copyBucket h b) l fun b' l' =>
      b' = id b ∧ Balance l l' 0 b'.second.isSome.toNat :=
    fun b hb l => copyBucket_spec (hcon b hb) l
  refine (ensures_each hpass l).bind ?_
  intro bs l' hbs
  obtain ⟨rfl, hbalance⟩ := hbs
  rw [hsame]
  refine ⟨by rw [List.map_id], ⟨?_, ?_, hTs.bound, ?_, hT.harmless⟩, ⟨rfl, rfl⟩, ?_⟩
  · intro b hb
    rw [List.map_id] at hb
    exact hcon b hb
  · show (source.buckets.map id).length = source.bucketCount
    rw [List.map_id, hTs.length]
  · intro hne
    have hpos : source.bucketCount ≠ 0 := hne
    have hbound := hTs.bound
    show (source.bucketCount + (2 ^ 64 - 1)) % 2 ^ 64 + 1 = source.bucketCount
    omega
  · rw [hT.live_of_null h0]
    simpa using hbalance

theorem assignBucket_eq {b s : Bucket K V} (hb : b.second.isSome = !h.isSentinel b.first)
    (hs : s.second.isSome = !h.isSentinel s.first) : h.assignBucket b s = s := by
  unfold LinearHashmap.assignBucket
  split_ifs with heq hsent hsent'
  · rw [second_eq_none hb hsent, ← heq, ← second_eq_none hs (by rw [heq]; exact hsent)]
  · rw [← heq]
  · rw [clearBucket_eq hb, ← second_eq_none hs hsent']
  · rfl

theorem assignBucket_spec {b s : Bucket K V} (hb : b.second.isSome = !h.isSentinel b.first)
    (hs : s.second.isSome = !h.isSentinel s.first) (l : Ledger) :
    Ensures (assignBucket h b s) l fun b' l' =>
      b' = s ∧ Balance l l' b.second.isSome.toNat b'.second.isSome.toNat := by
  unfold assignBucket
  split_ifs with heq hsent hsent
  · have hsame : b = s := by
      rw [← assignBucket_eq hb hs, LinearHashmap.assignBucket, if_pos heq, if_pos hsent]
    exact ⟨hsame, .refl l _⟩
  · rw [Bool.not_eq_true] at hsent
    rw [hsent] at hb
    rw [heq, hsent] at hs
    refine (read_spec hs l).bind ?_
    intro value l' hvalue
    obtain ⟨hvalue, rfl⟩ := hvalue
    refine (assign_spec hb value l').bind ?_
    intro o l'' ho
    obtain ⟨rfl, rfl⟩ := ho
    refine ⟨?_, ?_⟩
    · rw [← heq, ← hvalue]
    · rw [hb]
      exact .refl _ 1
  · refine (clearBucket_spec hb l).bind ?_
    intro b' l' hb'
    obtain ⟨rfl, hbalance⟩ := hb'
    refine ⟨?_, hbalance⟩
    rw [← second_eq_none hs hsent]
  · rw [Bool.not_eq_true] at hsent
    rw [hsent] at hs
    refine (clearBucket_spec hb l).bind ?_
    intro b' l' hb'
    obtain ⟨rfl, hbalance⟩ := hb'
    refine (read_spec hs l').bind ?_
    intro value l₁ hvalue
    obtain ⟨hvalue, rfl⟩ := hvalue
    refine (construct_spec rfl value l₁).bind ?_
    intro o l₂ ho
    obtain ⟨rfl, hbalance'⟩ := ho
    refine ⟨?_, hbalance.trans hbalance'⟩
    rw [← hvalue]

theorem initializedCopy_spec (hT : Tidy left h) (hTs : Tidy left source)
    (hs : SameSentinels source h) (l : Ledger) :
    Ensures (initializedCopy h source) l fun h' l' =>
      h.initializedCopy source = some h' ∧ Kept left h l h' l' := by
  unfold initializedCopy LinearHashmap.initializedCopy
  split_ifs with hcount
  · exact ensures_ofOption.2 fun _ hnone => absurd hnone (by simp)
  have hlength : h.buckets.length = source.buckets.length := by
    rw [hT.length, hTs.length, not_not.1 hcount]
  have hcon : ∀ b ∈ source.buckets, b.second.isSome = !h.isSentinel b.first := by
    intro b hb
    rw [hs.isSentinel_eq]
    exact hTs.constructed b hb
  have hpass : ∀ p ∈ h.buckets.zip source.buckets, ∀ l, Ensures (assignBucket h p.1 p.2) l
      fun b' l' => b' = p.2 ∧ Balance l l' p.1.second.isSome.toNat b'.second.isSome.toNat := by
    intro p hp l
    obtain ⟨hp₁, hp₂⟩ := List.of_mem_zip hp
    exact assignBucket_spec (hT.constructed _ hp₁) (hcon _ hp₂) l
  have hsnd : (h.buckets.zip source.buckets).map (fun p => p.2) = source.buckets :=
    List.map_snd_zip hlength.ge
  have hbefore : ((h.buckets.zip source.buckets).map fun p => p.1.second.isSome.toNat).sum =
      live h.buckets := by
    have hfst := List.map_fst_zip hlength.le
    calc ((h.buckets.zip source.buckets).map fun p => p.1.second.isSome.toNat).sum
        = (((h.buckets.zip source.buckets).map Prod.fst).map fun b => b.second.isSome.toNat).sum :=
          by rw [List.map_map]; rfl
      _ = live h.buckets := by rw [hfst]; rfl
  have hplain : List.zipWith h.assignBucket h.buckets source.buckets = source.buckets := by
    calc List.zipWith h.assignBucket h.buckets source.buckets
        = (h.buckets.zip source.buckets).map fun p => h.assignBucket p.1 p.2 :=
          (List.map_zip_eq_zipWith (f := fun p => h.assignBucket p.1 p.2)).symm
      _ = (h.buckets.zip source.buckets).map fun p => p.2 := by
          refine List.map_congr_left ?_
          intro p hp
          obtain ⟨hp₁, hp₂⟩ := List.of_mem_zip hp
          exact assignBucket_eq (hT.constructed _ hp₁) (hcon _ hp₂)
      _ = source.buckets := hsnd
  refine (ensures_each hpass l).bind ?_
  intro bs l' hbs
  obtain ⟨rfl, hbalance⟩ := hbs
  rw [hbefore] at hbalance
  refine ⟨?_, ⟨?_, ?_, hT.bound, hT.mask, hT.harmless⟩, ⟨rfl, rfl⟩, hbalance⟩
  · rw [hplain, hsnd]
  · intro b hb
    have hb' : b ∈ (h.buckets.zip source.buckets).map fun p => p.2 := hb
    rw [hsnd] at hb'
    exact hcon b hb'
  · show ((h.buckets.zip source.buckets).map fun p => p.2).length = h.bucketCount
    rw [hsnd, ← hlength, hT.length]

omit [DecidableEq K] in
theorem same_destory (h : LinearHashmap K V) : SameSentinels h h.destory := sentinels_destory h

theorem Tidy.of_destory (hT : Tidy left h) : Tidy left h.destory := by
  have hh := hT.harmless.of_same (same_destory h)
  unfold LinearHashmap.destory at hh ⊢
  split_ifs at hh ⊢
  · exact hT
  · exact tidy_blank hh

omit [DecidableEq K] in
theorem bucketCount_destory (h : LinearHashmap K V) : h.destory.bucketCount = 0 := by
  unfold LinearHashmap.destory
  split_ifs with h0
  · exact h0
  · rfl

theorem destory_kept (hT : Tidy left h) (l : Ledger) :
    Ensures (destory h) l fun h' l' => h' = h.destory ∧ Kept left h l h' l' := by
  refine (hT.destory l).mono ?_
  intro h' l' hh'
  obtain ⟨rfl, hbalance⟩ := hh'
  refine ⟨rfl, hT.of_destory, same_destory h, ?_⟩
  rw [hT.of_destory.live_of_null (bucketCount_destory h)]
  exact hbalance

theorem copyConstruct_spec (hT : Tidy left source) (l : Ledger) :
    Ensures (copyConstruct source) l fun h' l' => source.copyConstruct = some h' ∧
      Tidy left h' ∧ SameSentinels source h' ∧ Balance l l' 0 (live h'.buckets) := by
  have hblank : Tidy left (blank source.emptyKey source.erasedKey : LinearHashmap K V) :=
    tidy_blank (hT.harmless.of_same ⟨rfl, rfl⟩)
  unfold copyConstruct LinearHashmap.copyConstruct
  split_ifs
  · exact ⟨rfl, hblank, ⟨rfl, rfl⟩, .refl l 0⟩
  · refine (uninitializedCopy_spec hblank hT ⟨rfl, rfl⟩ l).mono ?_
    intro h' l' hh'
    exact ⟨hh'.1, hh'.2.tidy, hh'.2.alike, hh'.2.balance⟩

theorem copyAssign_spec (hT : Tidy left h) (hTs : Tidy left source) (l : Ledger) :
    Ensures (copyAssign h source) l fun h' l' =>
      h.copyAssign source = some h' ∧ Kept left h l h' l' := by
  unfold copyAssign LinearHashmap.copyAssign
  split_ifs with hsame h0 hcount
  · refine (destory_kept hT l).mono ?_
    intro h' l' hh'
    obtain ⟨rfl, hkept⟩ := hh'
    exact ⟨rfl, hkept⟩
  · exact initializedCopy_spec hT hTs hsame l
  · refine (destory_kept hT l).bind ?_
    intro t l₁ ht
    obtain ⟨rfl, hkept⟩ := ht
    have hs : SameSentinels source h.destory := SameSentinels.trans hsame (same_destory h)
    refine (uninitializedCopy_spec hkept.tidy hTs hs l₁).mono ?_
    intro h' l' hh'
    exact ⟨hh'.1, hkept.trans hh'.2⟩
  · exact ensures_ofOption.2 fun _ hnone => absurd hnone (by simp)

theorem moveAssign_spec (hT : Tidy left h) (hTs : Tidy left source) (l : Ledger) :
    Ensures (moveAssign h source) l fun p l' => h.moveAssign source = some p ∧
      Tidy left p.1 ∧ Tidy left p.2 ∧
        Balance l l' (live h.buckets + live source.buckets)
          (live p.1.buckets + live p.2.buckets) := by
  unfold moveAssign LinearHashmap.moveAssign
  split_ifs with hsame
  · refine (destory_kept hT l).bind ?_
    intro t l₁ ht
    obtain ⟨rfl, hkept⟩ := ht
    refine ensures_ofOption.2 ?_
    intro p hp
    have hs : h.destory.emptyKey = source.emptyKey ∧ h.destory.erasedKey = source.erasedKey :=
      ⟨(same_destory h).1.trans hsame.1, (same_destory h).2.trans hsame.2⟩
    refine ⟨hp, ?_⟩
    rw [LinearHashmap.swap, if_pos hs] at hp
    cases hp
    refine ⟨hTs, hkept.tidy, ?_⟩
    have hadd := hkept.balance.add (.refl l₁ (live source.buckets))
    rwa [Nat.add_comm (live h.destory.buckets)] at hadd
  · exact ensures_ofOption.2 fun _ hnone => absurd hnone (by simp)

/-! ## One map -/

variable [Inhabited V]

/-- **Every call on a tidy map with a key that is not a sentinel** leaves it tidy. -/
theorem apply_spec (hT : Tidy left h) (op : MapOp K V)
    (hkey : ∀ k, op.key? = some k → h.isSentinel k = false) (l : Ledger) :
    Ensures (apply F left h op) l fun h' l' => op.apply F h = some h' ∧ Kept left h l h' l' := by
  cases op with
  | insert key value =>
    refine (set_spec F h key value false l hT (hkey key rfl)).bind ?_
    intro r l' hr
    refine ⟨?_, hr.2.1⟩
    rw [MapOp.apply, LinearHashmap.insert, hr.1]
    rfl
  | insertOrAssign key value =>
    refine (set_spec F h key value true l hT (hkey key rfl)).bind ?_
    intro r l' hr
    refine ⟨?_, hr.2.1⟩
    rw [MapOp.apply, insertOrAssign, hr.1]
    rfl
  | index key =>
    refine (set_spec F h key default false l hT (hkey key rfl)).bind ?_
    intro r l' hr
    refine ⟨?_, hr.2.1⟩
    rw [MapOp.apply, LinearHashmap.index, hr.1]
    rfl
  | indexAssign key value =>
    refine (set_spec F h key default false l hT (hkey key rfl)).bind ?_
    intro r l₁ hr
    obtain ⟨t, index, assigned⟩ := r
    obtain ⟨hplain, hkept, hlt, hexists⟩ := hr
    -- `Set` has left an object there, which is assigned to
    have hvalue : (t.valueAt index).isSome = true := (hkept.tidy.valueAt hlt).trans hexists
    refine (assign_spec hvalue value l₁).bind ?_
    intro o l' ho
    obtain ⟨rfl, rfl⟩ := ho
    have hfirst : t.isSentinel (t.keyAt index) = false := by
      rw [existsAt_eq] at hexists
      simpa using hexists
    have hlive := live_setBucket (by rw [hkept.tidy.length]; exact hlt)
      (⟨t.keyAt index, some value⟩ : Bucket K V)
    rw [hvalue] at hlive
    refine ⟨?_, hkept.tidy.setBucket (by simp [hfirst]) index, hkept.alike, ?_⟩
    · rw [MapOp.apply, LinearHashmap.indexAssign, LinearHashmap.index, hplain]
      rfl
    · rw [Nat.add_right_cancel hlive]
      exact hkept.balance
  | erase key =>
    refine ensures_ofOption_bind ?_
    intro index hget
    refine (delete_spec hT index l).mono ?_
    intro h' l' hh'
    refine ⟨?_, hh'.2⟩
    rw [MapOp.apply, LinearHashmap.erase, hget]
    exact hh'.1
  | clear =>
    refine (clear_spec hT l).mono ?_
    intro h' l' hh'
    obtain ⟨rfl, hkept⟩ := hh'
    exact ⟨rfl, hkept⟩

end Lifetimes

end Naesala
