import Naesala.Library.Population
import Naesala.Hashmap.LifetimesProof

/-!
# Programs construct and destroy mapped objects in balance

`Accounted` says that all maps of a program are tidy, and that the objects in them are those
constructed and not destroyed. `execute_spec` is the step lemma.

**Theorem (`balanced_iff`).** Let a key `k` be left as any `k'` with `Left k k'` after it has been
moved from. In every run no mapped object is constructed over a live one, none is used or destroyed
that is not constructed, none is in storage that is deallocated, and at the end all have been
destroyed; if and only if no key that is not a sentinel can be left as one.

`leak_of_empty_string` is the run for strings with the sentinels they have by default: a string that
has been moved from is empty, and the empty string is `empty_key_`. The second insertion into a map
of two buckets leaks the first value.

As long as no key is left as a sentinel, the maps of a run are those of a run of
`Hashmap/Objects.lean` (`reach_accounted`).
-/

namespace Naesala

namespace Lifetimes

open LinearHashmap Checked
open Ledger (Balance)

variable {K V : Type} [DecidableEq K] {F : Functors K} {left : ℕ → K → K}
variable {s s' : Objects K V} {h h' : LinearHashmap K V} {l l' : Ledger}
variable {o : Option (LinearHashmap K V)} {x y : ℕ}

/-! ## The objects of all maps -/

/-- The number of objects in a map, if there is one. -/
def held : Option (LinearHashmap K V) → ℕ
  | none => 0
  | some h => live h.buckets

/-- All maps are tidy, and the objects in them are those constructed and not destroyed. -/
structure Accounted (left : ℕ → K → K) (s : Objects K V) (l : Ledger) : Prop where
  tidy : ∀ x h, s x = some h → Tidy left h
  held_eq : ∃ names : Finset ℕ, (∀ x ∉ names, s x = none) ∧
    l.constructed = l.destroyed + ∑ x ∈ names, held (s x)

/-- One map changes, is made or is gone, and the ledger accounts for it. -/
theorem Accounted.update (hA : Accounted left s l) (hT : ∀ h, o = some h → Tidy left h)
    (hbalance : Balance l l' (held (s x)) (held o)) :
    Accounted left (Function.update s x o) l' := by
  obtain ⟨names, hnone, heq⟩ := hA.held_eq
  refine ⟨All.update hA.tidy hT, insert x names, ?_, ?_⟩
  · intro y hy
    have hyx : y ≠ x := fun heq => hy (heq ▸ Finset.mem_insert_self x names)
    rw [Function.update_of_ne hyx]
    exact hnone y fun hmem => hy (Finset.mem_insert_of_mem hmem)
  · have hmore : ∑ y ∈ insert x names, held (s y) = ∑ y ∈ names, held (s y) := by
      refine Finset.sum_insert_of_eq_zero_if_notMem ?_
      intro hx
      rw [hnone x hx]
      rfl
    have hsum := sum_update_add held (f := s) (Finset.mem_insert_self x names) o
    rw [hmore] at hsum
    unfold Balance at hbalance
    omega

theorem Accounted.put (hA : Accounted left s l) (hT : Tidy left h)
    (hbalance : Balance l l' (held (s x)) (live h.buckets)) :
    Accounted left (Function.update s x (some h)) l' :=
  hA.update (fun _ ht => Option.some.inj ht ▸ hT) hbalance

theorem Accounted.put₂ (hA : Accounted left s l) (hxy : y ≠ x) (hT : Tidy left h)
    (hT' : Tidy left h') (hbalance : Balance l l' (held (s x) + held (s y))
      (live h.buckets + live h'.buckets)) :
    Accounted left (Function.update (Function.update s x (some h)) y (some h')) l' := by
  obtain ⟨l₁, hfirst, hsecond⟩ := hbalance.split
  refine (hA.put hT hfirst).put hT' ?_
  rwa [Function.update_of_ne hxy]

theorem Accounted.kept (hA : Accounted left s l) (hx : s x = some h) (hk : Kept left h l h' l') :
    Accounted left (Function.update s x (some h')) l' := by
  refine hA.put hk.tidy ?_
  rw [hx]
  exact hk.balance

variable [Inhabited V]

/-- What a statement may be: maps have sentinels from `Sentinels`, and calls use keys that are not
sentinels of their map. -/
def Proper (Sentinels : Set (K × K)) (w : World K V) : Statement K V → Prop
  | .construct _ _ e d => (e, d) ∈ Sentinels
  | .call x op => ∀ h, w.objects x = some h → ∀ k, op.key? = some k → h.isSentinel k = false
  | _ => True

omit [Inhabited V] in
/-- A new map is harmless if no key that is not one of its sentinels is left as one. -/
theorem harmless_blank {e d : K} (hc : ∀ n k, k ≠ e → k ≠ d → left n k ≠ e ∧ left n k ≠ d) :
    Harmless left (blank e d : LinearHashmap K V) := by
  intro n k hk
  simp only [isSentinel, blank, Bool.or_eq_false_iff] at hk ⊢
  obtain ⟨he, hd⟩ := hc n k (of_decide_eq_false hk.2) (of_decide_eq_false hk.1)
  exact ⟨decide_eq_false hd, decide_eq_false he⟩

/-! ## Statements -/

/-- A statement keeps the account, and does to the maps what it does in `Statement.apply`. -/
def Executes (F : Functors K) (left : ℕ → K → K) (s : Objects K V) (l : Ledger)
    (a : Statement K V) : Prop :=
  Ensures (execute F left s a) l fun s' l' => a.apply F s = some s' ∧ Accounted left s' l'

section

variable (hA : Accounted left s l)

include hA

theorem executes_construct {n : ℕ} {e d : K}
    (hc : e ≠ d → ∀ n k, k ≠ e → k ≠ d → left n k ≠ e ∧ left n k ≠ d) :
    Executes F left s l (.construct x n e d) := by
  simp only [Executes, execute, Statement.apply]
  split_ifs with hused
  · exact ensures_ofOption.2 fun _ hnone => absurd hnone (by simp)
  refine ensures_ofOption_bind ?_
  intro h hh
  have hfree : s x = none := by simpa using hused
  have hne : e ≠ d := by
    intro heq
    subst heq
    simp [LinearHashmap.construct] at hh
  obtain ⟨hT, hlive, -⟩ := tidy_construct (harmless_blank (hc hne)) hh
  refine ⟨by rw [hh]; rfl, hA.put hT ?_⟩
  rw [hfree, hlive]
  exact .refl l 0

theorem executes_destruct : Executes F left s l (.destruct x) := by
  refine ensures_ofOption_bind ?_
  intro h hx
  refine ((hA.tidy x h hx).destory l).bind ?_
  intro t l' ht
  refine ⟨by rw [Statement.apply, hx]; rfl, hA.update (fun t ht => by cases ht) ?_⟩
  rw [hx]
  exact ht.2

theorem executes_call {op : MapOp K V}
    (hkeys : ∀ h, s x = some h → ∀ k, op.key? = some k → h.isSentinel k = false) :
    Executes F left s l (.call x op) := by
  refine ensures_ofOption_bind ?_
  intro h hx
  refine (apply_spec (hA.tidy x h hx) op (hkeys h hx) l).bind ?_
  intro h' l' hh'
  refine ⟨?_, hA.kept hx hh'.2⟩
  rw [Statement.apply, hx, Option.bind_some, hh'.1]
  rfl

theorem executes_eraseAt {index : ℕ} : Executes F left s l (.eraseAt x index) := by
  refine ensures_ofOption_bind ?_
  intro h hx
  refine (delete_spec (hA.tidy x h hx) index l).bind ?_
  intro h' l' hh'
  refine ⟨?_, hA.kept hx hh'.2⟩
  rw [Statement.apply, hx, Option.bind_some, hh'.1]
  rfl

theorem executes_copyConstruct : Executes F left s l (.copyConstruct x y) := by
  simp only [Executes, execute, Statement.apply]
  split_ifs with hused
  · exact ensures_ofOption.2 fun _ hnone => absurd hnone (by simp)
  have hfree : s x = none := by simpa using hused
  refine ensures_ofOption_bind ?_
  intro other hy
  refine (copyConstruct_spec (hA.tidy y other hy) l).bind ?_
  intro h' l' hh'
  refine ⟨?_, hA.put hh'.2.1 ?_⟩
  · rw [hy, Option.bind_some, hh'.1]
    rfl
  · rw [hfree]
    exact hh'.2.2.2

/-- The map that is moved from is left as a blank one. -/
theorem executes_moveConstruct : Executes F left s l (.moveConstruct x y) := by
  simp only [Executes, execute, Statement.apply]
  split_ifs with hused
  · exact ensures_ofOption.2 fun _ hnone => absurd hnone (by simp)
  have hfree : s x = none := by simpa using hused
  refine ensures_ofOption_bind ?_
  intro other hy
  have hT := hA.tidy y other hy
  have hxy : y ≠ x := by
    intro heq
    subst heq
    rw [hfree] at hy
    cases hy
  have hblank := tidy_blank (hT.harmless.of_same ⟨rfl, rfl⟩)
  refine ⟨by rw [hy]; rfl, hA.put₂ hxy hT hblank ?_⟩
  rw [hfree, hy, Nat.add_comm]
  exact .refl l _

theorem executes_copyAssign : Executes F left s l (.copyAssign x y) := by
  simp only [Executes, execute, Statement.apply]
  split_ifs with hxy
  · exact ⟨rfl, hA⟩
  refine ensures_ofOption_bind ?_
  intro h hx
  refine ensures_ofOption_bind ?_
  intro other hy
  refine (copyAssign_spec (hA.tidy x h hx) (hA.tidy y other hy) l).bind ?_
  intro h' l' hh'
  refine ⟨?_, hA.kept hx hh'.2⟩
  rw [hx, Option.bind_some, hy, Option.bind_some, hh'.1]
  rfl

theorem executes_moveAssign : Executes F left s l (.moveAssign x y) := by
  simp only [Executes, execute, Statement.apply]
  split_ifs with hxy
  · exact ⟨rfl, hA⟩
  refine ensures_ofOption_bind ?_
  intro h hx
  refine ensures_ofOption_bind ?_
  intro other hy
  refine (moveAssign_spec (hA.tidy x h hx) (hA.tidy y other hy) l).bind ?_
  intro p l' hp
  refine ⟨?_, hA.put₂ (Ne.symm hxy) hp.2.1 hp.2.2.1 ?_⟩
  · rw [hx, Option.bind_some, hy, Option.bind_some, hp.1]
    rfl
  · rw [hx, hy]
    exact hp.2.2.2

theorem executes_swap : Executes F left s l (.swap x y) := by
  simp only [Executes, execute, Statement.apply]
  split_ifs with hxy
  · exact ⟨rfl, hA⟩
  refine ensures_ofOption_bind ?_
  intro h hx
  refine ensures_ofOption_bind ?_
  intro other hy
  refine ensures_ofOption_bind ?_
  intro p hp
  have hp' := hp
  unfold LinearHashmap.swap at hp'
  split_ifs at hp'
  cases hp'
  refine ⟨?_, hA.put₂ (Ne.symm hxy) (hA.tidy y _ hy) (hA.tidy x _ hx) ?_⟩
  · rw [hx, Option.bind_some, hy, Option.bind_some, hp]
    rfl
  · rw [hx, hy, Nat.add_comm]
    exact .refl l _

end

/-- **The step lemma.** -/
theorem execute_spec {Sentinels : Set (K × K)}
    (hclean : ∀ e d, (e, d) ∈ Sentinels → e ≠ d →
      ∀ n k, k ≠ e → k ≠ d → left n k ≠ e ∧ left n k ≠ d)
    (hA : Accounted left s l) {a : Statement K V} {fault : Option Fault}
    (hproper : Proper Sentinels ⟨s, l, fault⟩ a) : Executes F left s l a := by
  cases a with
  | construct x n e d => exact executes_construct hA (hclean e d hproper)
  | destruct x => exact executes_destruct hA
  | call x op => exact executes_call hA hproper
  | eraseAt x index => exact executes_eraseAt hA
  | copyConstruct x y => exact executes_copyConstruct hA
  | moveConstruct x y => exact executes_moveConstruct hA
  | copyAssign x y => exact executes_copyAssign hA
  | moveAssign x y => exact executes_moveAssign hA
  | swap x y => exact executes_swap hA

/-! ## Runs -/

/-- No fault has happened; and when there are no maps, all objects have been destroyed. -/
def World.Balanced (w : World K V) : Prop :=
  w.fault = none ∧ ((∀ x, w.objects x = none) → w.ledger.constructed = w.ledger.destroyed)

omit [DecidableEq K] [Inhabited V] in
theorem sum_held_eq_zero {names : Finset ℕ} (hs : ∀ x, s x = none) :
    ∑ x ∈ names, held (s x) = 0 := by
  refine Finset.sum_eq_zero ?_
  intro x _
  rw [hs x]
  rfl

omit [Inhabited V] in
theorem Accounted.balanced {w : World K V} (hA : Accounted left w.objects w.ledger)
    (hfault : w.fault = none) : w.Balanced := by
  refine ⟨hfault, fun hs => ?_⟩
  obtain ⟨names, -, heq⟩ := hA.held_eq
  rwa [sum_held_eq_zero hs, Nat.add_zero] at heq

/-- A run with no key left as a sentinel: no fault, and the maps are those of the plain run. -/
theorem reach_accounted {Sentinels : Set (K × K)}
    (hclean : ∀ e d, (e, d) ∈ Sentinels → e ≠ d →
      ∀ n k, k ≠ e → k ≠ d → left n k ≠ e ∧ left n k ≠ d) {w : World K V}
    (hw : (lifetimes F left).Reach (Proper Sentinels) w) :
    w.fault = none ∧ Accounted left w.objects w.ledger ∧ (objects K V F).Reachable w.objects := by
  refine hw.invariant (I := fun w : World K V => w.fault = none ∧
    Accounted left w.objects w.ledger ∧ (objects K V F).Reachable w.objects) ?_ ?_
  · refine ⟨rfl, ⟨?_, ∅, fun _ _ => rfl, rfl⟩, .init⟩
    intro x h hx
    cases hx
  · intro w a w' hI hproper hstep
    obtain ⟨hfault, hA, hreach⟩ := hI
    have hensures := execute_spec (F := F) hclean hA hproper
    have hstep' : w.step F left a = some w' := hstep
    rw [World.step, hfault] at hstep'
    unfold Executes Ensures at hensures
    cases hexec : (execute F left w.objects a).exec w.ledger with
    | none =>
      rw [hexec] at hstep'
      cases hstep'
    | some r =>
      rw [hexec] at hstep' hensures
      cases r with
      | error fault => exact hensures.elim
      | ok p =>
        obtain ⟨happly, hA'⟩ := hensures
        cases hstep'
        exact ⟨rfl, hA', hreach.step trivial happly⟩

/-! ## The leak -/

omit [Inhabited V] in
theorem exec_set_empty (hroom : h.used < h.resizeCount) (h0 : h.bucketCount ≠ 0)
    (hkeys : ∀ i, h.keyAt i = h.emptyKey) (hvalues : ∀ i, h.valueAt i = none) (key : K) (value : V)
    (depth : ℕ) (l : Ledger) :
    (setNested F left (depth + 1) h key value false).exec l = some (.ok
      (({ h.setBucket (F.hasher key &&& h.mask) ⟨key, some value⟩ with
          size := h.size + 1
          used := h.used + 1 }, F.hasher key &&& h.mask, true),
        { l with constructed := l.constructed + 1 })) := by
  have hexists : ∀ i, h.existsAt i = false := by
    intro i
    rw [existsAt_eq, hkeys i]
    simp [isSentinel]
  have hscan : scan (h.setCont F key) h.next h.bucketCount (F.hasher key &&& h.mask) =
      some (F.hasher key &&& h.mask) := by
    obtain ⟨n, hn⟩ := Nat.exists_eq_succ_of_ne_zero h0
    rw [hn, scan, if_neg]
    simp [setCont, hexists]
  have hempty : h.emptyAt (F.hasher key &&& h.mask) = true := decide_eq_true (hkeys _)
  rw [setNested, expandWith, if_neg (Nat.not_le.2 hroom), pure_bind, hscan]
  show (place h (F.hasher key &&& h.mask) key value false >>= fun p =>
    pure (p.1, F.hasher key &&& h.mask, p.2)).exec l = _
  rw [place, hexists, hvalues, hempty]
  rfl

omit [Inhabited V] in
/-- Storage with an object beside a sentinel: the destructor passes it by. -/
theorem exec_destory_leak (h0 : h.bucketCount ≠ 0)
    (hkeys : ∀ b ∈ h.buckets, h.isSentinel b.first = true)
    (hlive : (h.buckets.any fun b => b.second.isSome) = true) (l : Ledger) :
    (destory h).exec l = some (.error .leak) := by
  have hpass : ∀ bs : List (Bucket K V), (∀ b ∈ bs, h.isSentinel b.first = true) →
      bs.mapM' (destroyBucket h) = pure bs := by
    intro bs hbs
    induction bs with
    | nil => rfl
    | cons b bs ih =>
      rw [List.mapM'_cons, destroyBucket, if_pos (hbs b List.mem_cons_self), pure_bind,
        ih fun b hb => hbs b (List.mem_cons_of_mem _ hb), pure_bind]
  rw [destory, if_neg h0, hpass _ hkeys, pure_bind, deallocate, if_pos hlive]
  rfl

omit [Inhabited V] in
theorem exec_moveInto_empty {newLh : LinearHashmap K V} {b : Bucket K V} {value : V}
    (hsent : h.isSentinel b.first = false) (hvalue : b.second = some value)
    (hroom : newLh.used < newLh.resizeCount) (h0 : newLh.bucketCount ≠ 0)
    (hkeys : ∀ i, newLh.keyAt i = newLh.emptyKey) (hvalues : ∀ i, newLh.valueAt i = none)
    (depth : ℕ) (l : Ledger) :
    ∃ t, t.emptyKey = newLh.emptyKey ∧ t.erasedKey = newLh.erasedKey ∧
      (moveInto left (setNested F left (depth + 1)) h newLh b).exec l = some (.ok
        ((t, ⟨left (l.constructed + 1) b.first, some value⟩),
          { l with constructed := l.constructed + 1 })) := by
  refine ⟨{ newLh.setBucket (F.hasher b.first &&& newLh.mask) ⟨b.first, some value⟩ with
    size := newLh.size + 1, used := newLh.used + 1 }, rfl, rfl, ?_⟩
  rw [moveInto, if_neg (by simp [hsent]), hvalue, show read (some value) = pure value from rfl,
    pure_bind, exec_bind, exec_set_empty hroom h0 hkeys hvalues]
  rfl

/-- A map of two buckets with one key, and no room for another. -/
structure Pair (h : LinearHashmap K V) (e d k : K) (value : V) : Prop where
  emptyKey : h.emptyKey = e
  erasedKey : h.erasedKey = d
  bucketCount : h.bucketCount = 2
  full : h.used ≥ h.resizeCount
  buckets : h.buckets = [⟨e, none⟩, ⟨k, some value⟩] ∨ h.buckets = [⟨k, some value⟩, ⟨e, none⟩]

omit [DecidableEq K] [Inhabited V] in
/-- The table that such a map moves to. -/
theorem keyAt_firstResize (h : LinearHashmap K V) (n i : ℕ) :
    (h.firstResize n).keyAt i = h.emptyKey := by
  unfold keyAt firstResize
  rw [List.getElem?_replicate]
  split_ifs <;> rfl

omit [DecidableEq K] [Inhabited V] in
theorem valueAt_firstResize (h : LinearHashmap K V) (n i : ℕ) :
    (h.firstResize n).valueAt i = none := by
  unfold LinearHashmap.valueAt firstResize
  rw [List.getElem?_replicate]
  split_ifs <;> rfl

omit [Inhabited V] in
/-- `Resize` of such a map leaks the value if the key is left as a sentinel. -/
theorem Pair.leak {e d k : K} {value : V} (hP : Pair h e d k value) (hne : e ≠ d) (he : k ≠ e)
    (hd : k ≠ d) (hleft : ∀ n, left n k = e ∨ left n k = d) (key : K) (value' : V) (l : Ledger) :
    (set F left h key value' false).exec l = some (.error .leak) := by
  have hsent : ∀ q, h.isSentinel q = true ↔ q = d ∨ q = e := by
    intro q
    simp [isSentinel, hP.emptyKey, hP.erasedKey]
  have hk : h.isSentinel k = false := by
    rw [← Bool.not_eq_true, hsent]
    exact fun hor => hor.elim hd he
  have hconstruct : LinearHashmap.construct h.growCount h.emptyKey h.erasedKey =
      some ((blank e d : LinearHashmap K V).firstResize 4) := by
    rw [growCount, hP.bucketCount, hP.emptyKey, hP.erasedKey, LinearHashmap.construct, if_neg hne]
    rfl
  obtain ⟨t, hte, htd, hmove⟩ : ∃ t, t.emptyKey = e ∧ t.erasedKey = d ∧
      (moveInto left (setNested F left 63) h ((blank e d : LinearHashmap K V).firstResize 4)
        ⟨k, some value⟩).exec l = some (.ok ((t, ⟨left (l.constructed + 1) k, some value⟩),
          { l with constructed := l.constructed + 1 })) :=
    exec_moveInto_empty hk rfl (show 0 < 3 by decide) (show 4 ≠ 0 by decide)
      (keyAt_firstResize (blank e d) 4) (valueAt_firstResize (blank e d) 4) 62 l
  have hstay : ∀ t' : LinearHashmap K V, moveInto left (setNested F left 63) h t' ⟨e, none⟩ =
      pure (t', ⟨e, none⟩) :=
    fun t' => if_pos ((hsent e).2 (Or.inr rfl))
  -- the old buckets are left with an object beside two sentinels
  obtain ⟨bs, hall, hany, hmoved⟩ : ∃ bs : List (Bucket K V),
      (∀ b ∈ bs, h.isSentinel b.first = true) ∧ (bs.any fun b => b.second.isSome) = true ∧
      (moveAll left (setNested F left 63) h ((blank e d).firstResize 4) h.buckets).exec l =
        some (.ok ((t, bs), { l with constructed := l.constructed + 1 })) := by
    have hgone := (hsent (left (l.constructed + 1) k)).2 (hleft _).symm
    have hempty := (hsent e).2 (Or.inr rfl)
    rcases hP.buckets with hb | hb
    · refine ⟨[⟨e, none⟩, ⟨left (l.constructed + 1) k, some value⟩], ?_, rfl, ?_⟩
      · simp [hgone, hempty]
      · rw [hb, moveAll, hstay, pure_bind, exec_bind, moveAll, exec_bind, hmove]
        rfl
    · refine ⟨[⟨left (l.constructed + 1) k, some value⟩, ⟨e, none⟩], ?_, rfl, ?_⟩
      · simp [hgone, hempty]
      · rw [hb, moveAll, exec_bind, hmove]
        show (moveAll left (setNested F left 63) h t [⟨e, none⟩] >>= _).exec _ = _
        rw [moveAll, hstay, pure_bind]
        rfl
  have hswap : swap { h with buckets := bs } t = some (t, { h with buckets := bs }) :=
    if_pos ⟨hP.emptyKey.trans hte.symm, hP.erasedKey.trans htd.symm⟩
  have hleak := exec_destory_leak (h := { h with buckets := bs })
    (by simp [hP.bucketCount]) hall hany { l with constructed := l.constructed + 1 }
  have hresize : (resizeWith left (setNested F left 63) h h.growCount).exec l =
      some (.error .leak) := by
    rw [resizeWith, if_neg (by simp [hP.bucketCount]), hconstruct, ofOption_some, pure_bind,
      exec_bind, hmoved]
    show (ofOption (swap { h with buckets := bs } t) >>= _).exec _ = _
    rw [hswap, ofOption_some, pure_bind]
    show (destory { h with buckets := bs } >>= _).exec _ = _
    rw [exec_bind, hleak, Option.bind_some]
  show (setNested F left (63 + 1) h key value' false).exec l = _
  rw [setNested, expandWith, if_pos hP.full, exec_bind, hresize, Option.bind_some]

theorem exec_insert_first (e d k : K) (value : V) (l : Ledger) :
    ∃ h : LinearHashmap K V, Pair h e d k value ∧
      (apply F left ((blank e d).firstResize 2) (.insert k value)).exec l =
        some (.ok (h, { l with constructed := l.constructed + 1 })) := by
  refine ⟨{ (blank e d : LinearHashmap K V).firstResize 2 with
    buckets := [⟨e, none⟩, ⟨e, none⟩].set (F.hasher k &&& 1) ⟨k, some value⟩
    size := 0 + 1
    used := 0 + 1 }, ⟨rfl, rfl, rfl, show 1 ≤ 0 + 1 by decide, ?_⟩, ?_⟩
  · show [(⟨e, none⟩ : Bucket K V), ⟨e, none⟩].set (F.hasher k &&& 1) _ = _ ∨
      [(⟨e, none⟩ : Bucket K V), ⟨e, none⟩].set (F.hasher k &&& 1) _ = _
    rw [Nat.and_one_is_mod]
    rcases Nat.mod_two_eq_zero_or_one (F.hasher k) with h0 | h1
    · rw [h0]
      exact Or.inr rfl
    · rw [h1]
      exact Or.inl rfl
  · show (set F left _ k value false >>= _).exec l = _
    rw [exec_bind, show set F left = setNested F left (63 + 1) from rfl,
      exec_set_empty (show 0 < 1 by decide) (show 2 ≠ 0 by decide)
        (keyAt_firstResize (blank e d) 2) (valueAt_firstResize (blank e d) 2)]
    rfl

/-- The statements that leak: a map of two buckets, and two insertions. -/
def leaking (e d k key : K) (value value' : V) : List (Statement K V) :=
  [.construct 0 2 e d, .call 0 (.insert k value), .call 0 (.insert key value')]

/-- The run of these statements ends in a leak if the first key is left as a sentinel. -/
theorem run_leaking {Sentinels : Set (K × K)} {e d k key : K} (hmem : (e, d) ∈ Sentinels)
    (hne : e ≠ d) (he : k ≠ e) (hd : k ≠ d) (hleft : ∀ n, left n k = e ∨ left n k = d)
    (hkey : key ≠ e ∧ key ≠ d) (value value' : V) :
    ∃ w, (lifetimes F left).run (fun _ _ => True) (lifetimes F left).init
        (leaking e d k key value value') = some w ∧
      (lifetimes F left).Reach (Proper Sentinels) w ∧ w.fault = some .leak := by
  have hplain : ∀ h : LinearHashmap K V, h.emptyKey = e → h.erasedKey = d →
      ∀ q, q ≠ e → q ≠ d → h.isSentinel q = false := by
    intro h hhe hhd q hqe hqd
    simp [isSentinel, hhe, hhd, hqe, hqd]
  obtain ⟨h, hP, hfirst⟩ : ∃ h : LinearHashmap K V, Pair h e d k value ∧
      (apply F left ((blank e d).firstResize 2) (.insert k value)).exec ⟨0, 0⟩ =
        some (.ok (h, ⟨1, 0⟩)) := exec_insert_first e d k value ⟨0, 0⟩
  let w₁ : World K V :=
    ⟨Function.update (fun _ => none) 0 (some ((blank e d).firstResize 2)), ⟨0, 0⟩, none⟩
  let w₂ : World K V := ⟨Function.update w₁.objects 0 (some h), ⟨1, 0⟩, none⟩
  let w₃ : World K V := ⟨w₂.objects, w₂.ledger, some .leak⟩
  have hstep₁ : (lifetimes F left).step (lifetimes F left).init (.construct 0 2 e d) = some w₁ := by
    have hcon : LinearHashmap.construct 2 e d =
        some ((blank e d : LinearHashmap K V).firstResize 2) := by
      rw [LinearHashmap.construct, if_neg hne]
      rfl
    show ((execute F left (fun _ => none) (.construct 0 2 e d)).exec ⟨0, 0⟩).map _ = _
    rw [execute, if_neg (by simp), hcon, ofOption_some, pure_bind]
    rfl
  have hstep₂ : (lifetimes F left).step w₁ (.call 0 (.insert k value)) = some w₂ := by
    show ((execute F left w₁.objects (.call 0 (.insert k value))).exec ⟨0, 0⟩).map _ = _
    rw [execute, show w₁.objects 0 = some ((blank e d).firstResize 2) from rfl, ofOption_some,
      pure_bind, exec_bind, hfirst]
    rfl
  have hstep₃ : (lifetimes F left).step w₂ (.call 0 (.insert key value')) = some w₃ := by
    have hleak := hP.leak (F := F) hne he hd hleft key value' ⟨1, 0⟩
    show ((execute F left w₂.objects (.call 0 (.insert key value'))).exec ⟨1, 0⟩).map _ = _
    rw [execute, show w₂.objects 0 = some h from rfl, ofOption_some, pure_bind, exec_bind, apply,
      exec_bind, hleak]
    rfl
  refine ⟨w₃, ?_, ?_, rfl⟩
  · rw [leaking, Machine.run, if_pos trivial, hstep₁, Option.bind_some, Machine.run,
      if_pos trivial, hstep₂, Option.bind_some, Machine.run, if_pos trivial, hstep₃]
    rfl
  · have hreach₁ : (lifetimes F left).Reach (Proper Sentinels) w₁ := by
      refine .step .init ?_ hstep₁
      exact hmem
    have hreach₂ : (lifetimes F left).Reach (Proper Sentinels) w₂ := by
      refine .step hreach₁ ?_ hstep₂
      intro h' hh' q hq
      cases hq
      cases hh'
      exact hplain _ rfl rfl k he hd
    refine .step hreach₂ ?_ hstep₃
    intro h' hh' q hq
    cases hq
    cases hh'
    exact hplain _ hP.emptyKey hP.erasedKey key hkey.1 hkey.2

/-- **Main theorem.** Whatever the keys are left with, all runs are balanced; if and only if no key
that is not a sentinel of its map can be left as a sentinel. -/
theorem balanced_iff (F : Functors K) {Left : K → K → Prop} (total : ∀ k, ∃ k', Left k k')
    (Sentinels : Set (K × K)) :
    (∀ left : ℕ → K → K, (∀ n k, Left k (left n k)) → ∀ w : World K V,
        (lifetimes F left).Reach (Proper Sentinels) w → w.Balanced) ↔
      ∀ e d, (e, d) ∈ Sentinels → e ≠ d → ∀ k k', Left k k' → k ≠ e → k ≠ d →
        k' ≠ e ∧ k' ≠ d := by
  constructor
  · intro hbalanced e d hmem hne k k' hk' he hd
    by_contra hnot
    have hor : k' = e ∨ k' = d := by
      by_cases hke : k' = e
      · exact Or.inl hke
      · exact Or.inr (not_not.1 fun hkd => hnot ⟨hke, hkd⟩)
    -- `k` is always left as the sentinel `k'`, the other keys as something they can be left as
    obtain ⟨some_left, hsome⟩ := Classical.skolem.1 total
    let left : ℕ → K → K := fun _ => Function.update some_left k k'
    have hleft : ∀ n q, Left q (left n q) := by
      intro n q
      by_cases hq : q = k
      · subst hq
        rwa [show left n q = k' from Function.update_self ..]
      · rw [show left n q = some_left q from Function.update_of_ne hq ..]
        exact hsome q
    have hgone : ∀ n, left n k = e ∨ left n k = d := by
      intro n
      rwa [show left n k = k' from Function.update_self ..]
    obtain ⟨w, -, hreach, hfault⟩ := run_leaking (F := F) hmem hne he hd hgone ⟨he, hd⟩
      (default : V) default
    have hnone := (hbalanced left hleft w hreach).1
    rw [hfault] at hnone
    cases hnone
  · intro hclean left hleft w hw
    -- no run leaves a key as a sentinel, so every statement keeps the account
    have hclean' : ∀ e d, (e, d) ∈ Sentinels → e ≠ d →
        ∀ n k, k ≠ e → k ≠ d → left n k ≠ e ∧ left n k ≠ d :=
      fun e d hmem hne n k he hd => hclean e d hmem hne k _ (hleft n k) he hd
    obtain ⟨hfault, hA, -⟩ := reach_accounted hclean' hw
    exact hA.balanced hfault

/-- Numbers are left as they are. -/
theorem balanced_of_numbers : ∃ w : World ℕ ℕ,
    (lifetimes (equalTo id) fun _ k => k).run (fun _ _ => True)
        (lifetimes (equalTo id) fun _ k => k).init
        [.construct 0 2 10 11, .call 0 (.insert 1 5), .call 0 (.insert 2 6), .destruct 0] = some w ∧
      w.Balanced := by
  let M := lifetimes (V := ℕ) (equalTo id) fun (_ k : ℕ) => k
  have hbalanced : ∀ w, M.Reach (Proper {(10, 11)}) w → w.Balanced := by
    refine (balanced_iff (equalTo id) (fun k => ⟨k, rfl⟩ : ∀ k : ℕ, ∃ k', k = k') _).2 ?_
      (fun _ k => k) (fun _ _ => rfl)
    intro e d _ _ k k' hk he hd
    rw [← hk]
    exact ⟨he, hd⟩
  have hplain : ∀ (w : World ℕ ℕ) h q, w.objects 0 = some h → h.isSentinel q = false →
      ∀ value, Proper {(10, 11)} w (.call 0 (.insert q value)) := by
    intro w h q hw hq value h' hh' q' hq'
    rw [hw] at hh'
    cases hh'
    cases hq'
    exact hq
  have h₀ : M.Reach (Proper {(10, 11)}) M.init := .init
  have h₁ := h₀.step (a := .construct 0 2 10 11) (Set.mem_singleton _) rfl
  have h₂ := h₁.step (a := .call 0 (.insert 1 5)) (hplain _ _ 1 rfl rfl 5) rfl
  have h₃ := h₂.step (a := .call 0 (.insert 2 6)) (hplain _ _ 2 rfl rfl 6) rfl
  have h₄ := h₃.step (a := .destruct 0) (by exact trivial) rfl
  exact ⟨_, rfl, hbalanced _ h₄⟩

/-- Strings are left empty, and the empty string is `empty_key_` if no other is given. -/
theorem leak_of_empty_string : ∃ w : World String ℕ,
    (lifetimes (equalTo String.length) fun _ _ => "").run (fun _ _ => True)
        (lifetimes (equalTo String.length) fun _ _ => "").init
        [.construct 0 2 "" "\x01", .call 0 (.insert "a" 1), .call 0 (.insert "b" 2)] = some w ∧
      (lifetimes (equalTo String.length) fun _ _ => "").Reach (Proper {("", "\x01")}) w ∧
        w.fault = some .leak ∧ ¬ w.Balanced := by
  have hkey : "b" ≠ "" ∧ "b" ≠ "\x01" := ⟨by decide, by decide⟩
  let left : ℕ → String → String := fun _ _ => ""
  have hleft : ∀ n, left n "a" = "" ∨ left n "a" = "\x01" := fun _ => Or.inl rfl
  obtain ⟨w, hrun, hreach, hfault⟩ := run_leaking (F := equalTo String.length) (k := "a")
    (Set.mem_singleton ("", "\x01")) (by decide) (by decide) (by decide) hleft hkey 1 2
  refine ⟨w, hrun, hreach, hfault, ?_⟩
  intro hbalanced
  rw [hbalanced.1] at hfault
  cases hfault

end Lifetimes

end Naesala
