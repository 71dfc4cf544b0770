import Naesala.Library.Machine
import Naesala.Third.ChainHashSnap
import Naesala.Third.ChainHashSort

/-!
# Runs of a `chain_hash_map`

A session is a table beside what it stands for: the stack of values of each key, and the entries of
the snapshot. The machine performs any calls. `Allowed` is the contract of `malloc`; a call is
`Careful` if it does not erase an entry of the snapshot, which stays there.

**Theorem (`map_of_stacks`).** In every run, whatever addresses `malloc` gives and whenever it gives
none, `find` and `contain` answer from the stack of the key. The next call returns, unless it is a
`sort`, and throws exactly if it needs an entry and gets none; and `clear` would free every entry,
once.

**Theorem (`traverse_shown`).** In careful runs `sort` returns too, and iteration shows the
snapshot, or all entries if there is none. `snap_sort` says what it shows after `snap` and `sort`,
and `traverse_erased_iff` that it reads freed memory exactly after a careless call.
-/

namespace Naesala

namespace ChainHash

variable {K V : Type}

/-! ## Calls -/

/-- A call that changes the table. The calls of `malloc` in it return `addr`. -/
inductive Call (K V : Type) where
  | insert (key : K) (val : V) (addr : ℕ)
  | findOrInsert (key : K) (val : V) (addr : ℕ)
  | indexAssign (key : K) (val : V) (addr : ℕ)
  | erase (key : K)
  | clear
  | snap
  | sort

/-- How a call ends. -/
inductive Result where
  | threw
  | iterator (e : ℕ)
  | done
  deriving DecidableEq

/-- A call that returns an iterator if it does not throw. -/
def Result.ofIterator : Option ℕ → Result
  | none => .threw
  | some e => .iterator e

variable [LinearOrder K] (hashfn : K → ℕ)

/-- What iteration shows without a snapshot. -/
def entries (h : ChainHash K V) : List ℕ := ({ h with snap := 0 }.traverse hashfn).getD []

/-- The entry that `erase` of the key frees, or `0`. -/
def erased (h : ChainHash K V) (key : K) : ℕ := ((h.get hashfn key).map Itr.entry).getD 0

namespace Call

/-- The call on a table. -/
def apply [Inhabited V] (h : ChainHash K V) : Call K V → Option (ChainHash K V × Result)
  | .insert key val addr => some (Prod.map id Result.ofIterator (h.insert hashfn addr key val))
  | .findOrInsert key val addr =>
    (h.findOrInsert hashfn addr key val).map (Prod.map id Result.ofIterator)
  | .indexAssign key val addr =>
    (h.indexAssign hashfn addr key val).map (Prod.map id Result.ofIterator)
  | .erase key => (h.erase hashfn key).map fun h => (h, .done)
  | .clear => h.clear.map fun h => (h, .done)
  | .snap => h.snapshot.map fun h => (h, .done)
  | .sort => h.sort.map fun h => (h, .done)

/-- The call on the stacks. -/
def reference (m : K → List V) : Call K V → K → List V
  | .insert key val _ => Function.update m key (val :: m key)
  | .findOrInsert key val _ => Function.update m key (if (m key).isEmpty then [val] else m key)
  | .indexAssign key val _ => Function.update m key (val :: (m key).tail)
  | .erase key => Function.update m key (m key).tail
  | .clear => fun _ => []
  | .snap => m
  | .sort => m

/-- The call on the entries of the snapshot. -/
def shown (h : ChainHash K V) (l : List ℕ) : Call K V → List ℕ
  | .clear => []
  | .snap => if (h.entries hashfn).isEmpty then l else h.entries hashfn
  | .sort => l.mergeSort h.le
  | _ => l

/-- The key of a call that returns an iterator, whether the call needs a new entry, and what
`malloc` returns in it. -/
def inserts? (m : K → List V) : Call K V → Option (K × Bool × ℕ)
  | .insert key _ addr => some (key, true, addr)
  | .findOrInsert key _ addr => some (key, (m key).isEmpty, addr)
  | .indexAssign key _ addr => some (key, (m key).isEmpty, addr)
  | _ => none

end Call

/-! ## Sessions -/

/-- A table, the stacks of values, and the entries of the snapshot. -/
structure Session (K V : Type) where
  table : ChainHash K V
  values : K → List V
  shown : List ℕ

/-- One table, and any calls. Calls that throw are ignored beside it. -/
def sessions (K V : Type) [LinearOrder K] [Inhabited K] [Inhabited V] (hashfn : K → ℕ) (min : ℕ) :
    Machine (Session K V) (Call K V) where
  init := ⟨construct K V min, fun _ => [], []⟩
  step s c := (c.apply hashfn s.table).map fun r =>
    if r.2 = .threw then ⟨r.1, s.values, s.shown⟩
    else ⟨r.1, c.reference s.values, c.shown hashfn s.table s.shown⟩

/-- `malloc` returns the null pointer, or the address of an entry that is not allocated. -/
def Allowed (s : Session K V) (c : Call K V) : Prop :=
  ∀ p ∈ c.inserts? s.values, p.2.2 = 0 ∨ p.2.2 ∉ s.table.live ∧ p.2.2 < 2 ^ 64

instance (s : Session K V) (c : Call K V) : Decidable (Allowed s c) :=
  inferInstanceAs (Decidable (∀ p ∈ c.inserts? s.values,
    p.2.2 = 0 ∨ p.2.2 ∉ s.table.live ∧ p.2.2 < 2 ^ 64))

/-- The call does not erase an entry of the snapshot either. -/
def Careful (s : Session K V) (c : Call K V) : Prop :=
  Allowed s c ∧ match c with
    | .erase key => s.table.erased hashfn key ∉ s.shown
    | _ => True

instance (s : Session K V) (c : Call K V) : Decidable (Careful hashfn s c) :=
  match c with
  | .erase key => inferInstanceAs (Decidable (Allowed s (.erase key) ∧
      s.table.erased hashfn key ∉ s.shown))
  | .insert key val addr => inferInstanceAs (Decidable (Allowed s (.insert key val addr) ∧ True))
  | .findOrInsert key val addr =>
    inferInstanceAs (Decidable (Allowed s (.findOrInsert key val addr) ∧ True))
  | .indexAssign key val addr =>
    inferInstanceAs (Decidable (Allowed s (.indexAssign key val addr) ∧ True))
  | .clear => inferInstanceAs (Decidable (Allowed s .clear ∧ True))
  | .snap => inferInstanceAs (Decidable (Allowed s .snap ∧ True))
  | .sort => inferInstanceAs (Decidable (Allowed s .sort ∧ True))

/-! ## One call -/

variable {hashfn} {h t : ChainHash K V} {chain chain' : ℕ → List ℕ} {m : K → List V} {c : Call K V}
variable {key : K} {val : V} {l l₁ l₂ : List ℕ} {addr e : ℕ} {b : Bool}

omit [LinearOrder K] in
/-- The snapshot is a list of the entries `l`, which are allocated. -/
def Shows (h : ChainHash K V) (l : List ℕ) : Prop :=
  Linked h.link 0 h.snap l ∧ ∀ a ∈ l, a ∈ h.live

omit [LinearOrder K] in
theorem Extends.shows (hE : Extends h t) (hS : Shows h l) : Shows t l := by
  refine ⟨?_, fun a ha => hE.live a (hS.2 a ha)⟩
  rw [hE.snap]
  exact hS.1.congr fun a ha => hE.link a (hS.2 a ha)

/-- Links and head of the snapshot do not matter to the stacks. -/
theorem Represents.relink (hR : Represents hashfn h chain m) (s : ℕ) (link : ℕ → ℕ) :
    Represents hashfn { h with snap := s, link } chain m :=
  ⟨⟨hR.formed.length, hR.formed.linked, hR.formed.bucket, hR.formed.mem_live, hR.formed.nodup,
    hR.formed.lt⟩, hR.stack_eq⟩

/-- What a call of a table that stands for `m` returns and leaves. -/
structure Kept (hashfn : K → ℕ) (h : ChainHash K V) (m : K → List V) (c : Call K V)
    (t : ChainHash K V) (r : Result) : Prop where
  represents : ∃ chain, Represents hashfn t chain (if r = .threw then m else c.reference m)
  mask : t.mask = h.mask
  threw_iff : r = .threw ↔ ∃ p ∈ c.inserts? m, p.2.1 = true ∧ p.2.2 = 0
  unchanged : r = .threw → t = h
  iterator : ∀ e, r = .iterator e → ∃ p ∈ c.inserts? m, t.key e = p.1 ∧
    (c.reference m p.1).head? = some (t.val e)
  shows : ∀ l, Shows h l → (∀ key, c = .erase key → h.erased hashfn key ∉ l) →
    Shows t (if r = .threw then l else c.shown hashfn h l)

/-- A call that throws. -/
theorem Represents.kept_threw (hR : Represents hashfn h chain m)
    (hc : c.inserts? m = some (key, true, 0)) : Kept hashfn h m c h .threw where
  represents := ⟨chain, hR⟩
  mask := rfl
  threw_iff := ⟨fun _ => ⟨_, hc, rfl, rfl⟩, fun _ => rfl⟩
  unchanged _ := rfl
  iterator e he := by cases he
  shows l hS _ := hS

theorem Represents.kept_iterator (hR : Represents hashfn t chain' (c.reference m))
    (hE : Extends h t) (hsplit : chain' (t.indexOf hashfn key) = l₁ ++ e :: l₂)
    (hkey : t.key e = key) (hbefore : ∀ b ∈ l₁, t.key b ≠ key)
    (hc : c.inserts? m = some (key, b, addr)) (hb : b = true → addr ≠ 0)
    (hshown : ∀ l, c.shown hashfn h l = l) : Kept hashfn h m c t (.iterator e) where
  represents := ⟨chain', hR⟩
  mask := hE.mask
  threw_iff := by
    refine ⟨fun hthrew => (by cases hthrew), fun hex => ?_⟩
    obtain ⟨p, hp, htrue, h0⟩ := hex
    rw [hc] at hp
    cases hp
    exact absurd h0 (hb htrue)
  unchanged hthrew := by cases hthrew
  iterator e' he := by
    cases he
    exact ⟨_, hc, hkey, by rw [hR.stack_of_found hsplit hkey hbefore]; rfl⟩
  shows l hS _ := by
    rw [if_neg (by simp), hshown]
    exact hE.shows hS

theorem Represents.kept_done (hR : Represents hashfn t chain' (c.reference m))
    (hmask : t.mask = h.mask) (hc : c.inserts? m = none)
    (hshows : ∀ l, Shows h l → (∀ key, c = .erase key → h.erased hashfn key ∉ l) →
      Shows t (c.shown hashfn h l)) : Kept hashfn h m c t .done where
  represents := ⟨chain', hR⟩
  mask := hmask
  threw_iff := by
    refine ⟨fun hthrew => (by cases hthrew), fun hex => ?_⟩
    obtain ⟨p, hp, -⟩ := hex
    rw [hc] at hp
    cases hp
  unchanged hthrew := by cases hthrew
  iterator e he := by cases he
  shows := hshows

theorem Pushed.kept {r : ChainHash K V × Option ℕ} (hP : Pushed hashfn h m addr key val r)
    (hR : Represents hashfn h chain m) (hc : c.inserts? m = some (key, true, addr))
    (href : c.reference m = Function.update m key (val :: m key))
    (hshown : ∀ l, c.shown hashfn h l = l) : Kept hashfn h m c r.1 (.ofIterator r.2) := by
  cases hP with
  | threw h0 =>
    subst h0
    exact hR.kept_threw hc
  | pushed l₁ l₂ h0 hE hR' hsplit hkey hbefore =>
    rw [← href] at hR'
    exact hR'.kept_iterator hE hsplit hkey hbefore hc (fun _ => h0) hshown

theorem Represents.findOrInsert_kept [Inhabited V] (hR : Represents hashfn h chain m) (key : K)
    (val : V) (hmalloc : h.Mallocs addr) : ∃ t r,
      Call.apply hashfn h (.findOrInsert key val addr) = some (t, r) ∧
        Kept hashfn h m (.findOrInsert key val addr) t r := by
  cases hR.formed.lookup key with
  | @found l₁ l₂ a hsplit hkey hbefore hget =>
    have htop := hR.stack_of_found hsplit hkey hbefore
    have href : Call.reference m (.findOrInsert key val addr) = m := by
      rw [Call.reference, htop, List.isEmpty_cons, if_neg Bool.false_ne_true, ← htop]
      exact Function.update_eq_self key m
    refine ⟨h, .iterator a, ?_, ?_⟩
    · rw [Call.apply, hR.findOrInsert_of_found hsplit hget]
      rfl
    · refine Represents.kept_iterator (by rwa [href]) (.refl h) hsplit hkey hbefore rfl
        (fun htrue => ?_) fun _ => rfl
      rw [htop] at htrue
      cases htrue
  | absent habsent hget =>
    have hnil := hR.stack_of_absent habsent
    obtain ⟨r, hinsert, hpushed⟩ := hR.findOrInsert_of_absent habsent hget hmalloc val
    refine ⟨r.1, .ofIterator r.2, ?_, hpushed.kept hR ?_ ?_ fun _ => rfl⟩
    · rw [Call.apply, hinsert]
      rfl
    · rw [Call.inserts?, hnil]
      rfl
    · rw [Call.reference, hnil]
      rfl

theorem Represents.indexAssign_kept [Inhabited V] (hR : Represents hashfn h chain m) (key : K)
    (val : V) (hmalloc : h.Mallocs addr) : ∃ t r,
      Call.apply hashfn h (.indexAssign key val addr) = some (t, r) ∧
        Kept hashfn h m (.indexAssign key val addr) t r := by
  cases hR.formed.lookup key with
  | @found l₁ l₂ a hsplit hkey hbefore hget =>
    refine ⟨h.setVal a val, .iterator a, ?_, ?_⟩
    · rw [Call.apply, indexAssign, hR.findOrInsert_of_found hsplit hget]
      rfl
    · refine (hR.setVal hsplit hkey hbefore val).kept_iterator ((Extends.refl h).setVal a val)
        hsplit hkey hbefore rfl (fun htrue => ?_) fun _ => rfl
      rw [hR.stack_of_found hsplit hkey hbefore] at htrue
      cases htrue
  | absent habsent hget =>
    have hnil := hR.stack_of_absent habsent
    have hc : Call.inserts? m (.indexAssign key val addr) = some (key, true, addr) := by
      rw [Call.inserts?, hnil]
      rfl
    obtain ⟨r, hinsert, hpushed⟩ := hR.findOrInsert_of_absent habsent hget hmalloc default
    cases hpushed with
    | threw h0 =>
      subst h0
      refine ⟨h, .threw, ?_, hR.kept_threw hc⟩
      rw [Call.apply, indexAssign, hinsert]
      rfl
    | @pushed t chain' l₁ l₂ h0 hE hR' hsplit hkey hbefore =>
      refine ⟨t.setVal addr val, .iterator addr, ?_, ?_⟩
      · rw [Call.apply, indexAssign, hinsert]
        rfl
      · have hset := hR'.setVal hsplit hkey hbefore val
        rw [Function.update_self, Function.update_idem, List.tail_cons, hnil] at hset
        have href : Call.reference m (.indexAssign key val addr) = Function.update m key [val] := by
          rw [Call.reference, hnil]
          rfl
        rw [← href] at hset
        exact hset.kept_iterator (hE.setVal addr val) hsplit hkey hbefore hc (fun _ => h0)
          fun _ => rfl

theorem Represents.erase_kept [Inhabited V] (hR : Represents hashfn h chain m) (key : K) : ∃ t r,
    Call.apply hashfn h (.erase key) = some (t, r) ∧ Kept hashfn h m (.erase key) t r := by
  cases hR.formed.lookup key with
  | @found l₁ l₂ a hsplit hkey hbefore hget =>
    obtain ⟨t, chain', herase, hR', hA⟩ := hR.erase_of_found hsplit hkey hbefore hget
    refine ⟨t, .done, by rw [Call.apply, herase]; rfl, ?_⟩
    refine Represents.kept_done (c := .erase key) hR' hA.mask rfl fun l hS hspared => ?_
    have ha : a ∉ l := by
      have hnot := hspared key rfl
      rwa [erased, hget] at hnot
    refine ⟨by rw [hA.snap, hA.link]; exact hS.1, fun b hb => ?_⟩
    have hba : b ≠ a := fun heq => ha (heq ▸ hb)
    rw [hA.live]
    exact (List.mem_erase_of_ne hba).2 (hS.2 b hb)
  | absent habsent hget =>
    have hnil := hR.stack_of_absent habsent
    have href : Call.reference m (.erase key) = m := by
      rw [Call.reference, hnil, List.tail_nil, ← hnil]
      exact Function.update_eq_self key m
    refine ⟨h, .done, ?_, ?_⟩
    · rw [Call.apply, erase, hget]
      rfl
    · exact Represents.kept_done (by rwa [href]) rfl rfl fun l hS _ => hS

theorem Represents.entries_eq (hR : Represents hashfn h chain m) :
    h.entries hashfn = entriesFrom chain 0 (h.mask + 1) := by
  rw [entries, (hR.relink 0 h.link).formed.traverse_of_no_snapshot rfl]
  rfl

/-- **The step lemma**: the call on the table is the call on the stacks and on the snapshot. -/
theorem Represents.step [Inhabited V] (hR : Represents hashfn h chain m) (c : Call K V)
    (hmalloc : ∀ p ∈ c.inserts? m, h.Mallocs p.2.2) (hsort : c = .sort → ∃ l, Shows h l) :
    ∃ t r, c.apply hashfn h = some (t, r) ∧ Kept hashfn h m c t r := by
  cases c with
  | insert key val addr =>
    exact ⟨_, _, rfl, (hR.insert_spec key val (hmalloc _ rfl)).kept hR rfl rfl fun _ => rfl⟩
  | findOrInsert key val addr => exact hR.findOrInsert_kept key val (hmalloc _ rfl)
  | indexAssign key val addr => exact hR.indexAssign_kept key val (hmalloc _ rfl)
  | erase key => exact hR.erase_kept key
  | clear =>
    obtain ⟨t, hclear, hR', hlive, hsnap, hmask⟩ := hR.clear_spec
    refine ⟨t, .done, by rw [Call.apply, hclear]; rfl, ?_⟩
    exact Represents.kept_done (c := .clear) hR' hmask rfl fun l _ _ =>
      ⟨hsnap, fun a ha => absurd ha List.not_mem_nil⟩
  | snap =>
    obtain ⟨s, link, hsnapshot, hnone, hsome⟩ := hR.formed.snapshot_spec
    refine ⟨{ h with snap := s, link }, .done, by rw [Call.apply, hsnapshot]; rfl, ?_⟩
    refine Represents.kept_done (c := .snap) (hR.relink s link) rfl rfl fun l hS _ => ?_
    rw [Call.shown, hR.entries_eq]
    split_ifs with hempty
    · obtain ⟨rfl, rfl⟩ := hnone (List.isEmpty_iff.1 hempty)
      exact hS
    · exact ⟨(hsome fun hnil => hempty (List.isEmpty_iff.2 hnil)).2,
        fun a ha => hR.formed.mem_entries.1 ha⟩
  | sort =>
    obtain ⟨l, hS⟩ := hsort rfl
    by_cases hsnap : h.snap = 0
    · refine ⟨h, .done, by rw [Call.apply, sort, if_pos hsnap]; rfl, ?_⟩
      refine Represents.kept_done (c := .sort) hR rfl rfl fun l' hS' _ => ?_
      have hnil : l' = [] := hS'.1.unique (Linked.nil_iff.2 hsnap)
      subst hnil
      rw [Call.shown, List.mergeSort_nil]
      exact hS'
    · obtain ⟨link, s, hsorted, -, hlinked⟩ := hR.formed.sort_spec hsnap hS.1 hS.2
      refine ⟨{ h with snap := s, link }, .done, by rw [Call.apply, hsorted]; rfl, ?_⟩
      refine Represents.kept_done (c := .sort) (hR.relink s link) rfl rfl fun l' hS' _ => ?_
      have heq : l' = l := hS'.1.unique hS.1
      subst heq
      exact ⟨hlinked, fun a ha => hS'.2 a (List.mem_mergeSort.1 ha)⟩

/-! ## All calls -/

section

variable [Inhabited K] [Inhabited V] {min : ℕ} {s : Session K V}

/-- A session in which only `malloc` keeps its contract. -/
def Sound (hashfn : K → ℕ) (s : Session K V) : Prop :=
  s.table.mask < 2 ^ 63 ∧ ∃ chain, Represents hashfn s.table chain s.values

omit [Inhabited K] [Inhabited V] in
theorem Kept.sound {r : Result} (hkept : Kept hashfn s.table s.values c t r)
    (hmask : s.table.mask < 2 ^ 63) : Sound hashfn (if r = .threw then ⟨t, s.values, s.shown⟩
      else ⟨t, c.reference s.values, c.shown hashfn s.table s.shown⟩) := by
  obtain ⟨chain, hR⟩ := hkept.represents
  rw [← hkept.mask] at hmask
  split_ifs at hR ⊢ with hthrew
  · exact ⟨hmask, chain, hR⟩
  · exact ⟨hmask, chain, hR⟩

theorem sound_construct (hmin : 0 < min) (hle : min ≤ 2 ^ 63) :
    Sound hashfn (sessions K V hashfn min).init :=
  ⟨maskOf_lt hmin hle, _, represents_construct hashfn hmin hle⟩

theorem sound_of_reach (hmin : 0 < min) (hle : min ≤ 2 ^ 63)
    (hs : (sessions K V hashfn min).Reach Allowed s) : Sound hashfn s := by
  refine hs.invariant (sound_construct hmin hle) fun s c s' hI hok hst => ?_
  obtain ⟨hmask, chain, hR⟩ := hI
  obtain ⟨r, happly, hr⟩ := Option.map_eq_some_iff.1 hst
  by_cases hsort : c = .sort ∧ s.table.snap ≠ 0
  · -- whatever it reads, it changes links only
    obtain ⟨rfl, hsnap⟩ := hsort
    obtain ⟨t, hsorted, rfl⟩ := Option.map_eq_some_iff.1 happly
    obtain ⟨q, -, hq⟩ := Option.bind_eq_some_iff.1 (by rwa [sort, if_neg hsnap] at hsorted)
    obtain ⟨p, -, rfl⟩ := Option.map_eq_some_iff.1 hq
    rw [← hr]
    exact ⟨hmask, chain, hR.relink p.2 p.1⟩
  · obtain ⟨t, r', happly', hkept⟩ := hR.step c hok fun hc =>
      ⟨[], by rw [not_and_not_right] at hsort; exact hsort hc,
        fun a ha => absurd ha List.not_mem_nil⟩
    obtain rfl : (t, r') = r := Option.some.inj (happly'.symm.trans happly)
    rw [← hr]
    exact hkept.sound hmask

/-- **The map is a map of stacks**, whatever memory is refused. `find` sees the top of the stack of
its key. The next call returns, but for a `sort`; it throws exactly if it needs an entry and gets
none, and then changes nothing; and the iterator it returns is at its key, with the new top of the
stack. `clear` frees every entry, and none twice. -/
theorem map_of_stacks (hmin : 0 < min) (hle : min ≤ 2 ^ 63)
    (hs : (sessions K V hashfn min).Reach Allowed s) :
    (∀ key, s.table.find hashfn key = some (s.values key).head? ∧
      s.table.contain hashfn key = some (decide (s.values key ≠ []))) ∧
    (∀ c, Allowed s c → c ≠ .sort → ∃ t r, c.apply hashfn s.table = some (t, r) ∧
      (r = .threw ↔ ∃ p ∈ c.inserts? s.values, p.2.1 = true ∧ p.2.2 = 0) ∧
      (r = .threw → t = s.table) ∧
      ∀ e, r = .iterator e → ∃ p ∈ c.inserts? s.values, t.key e = p.1 ∧
        (c.reference s.values p.1).head? = some (t.val e)) ∧
    ∃ t, s.table.clear = some t ∧ t.live = [] := by
  obtain ⟨-, chain, hR⟩ := sound_of_reach hmin hle hs
  refine ⟨fun key => ⟨hR.find_spec key, hR.contain_spec key⟩, fun c hok hc => ?_, ?_⟩
  · obtain ⟨t, r, happly, hkept⟩ := hR.step c hok fun hsort => absurd hsort hc
    exact ⟨t, r, happly, hkept.threw_iff, hkept.unchanged, hkept.iterator⟩
  · obtain ⟨t, hclear, -, hlive, -⟩ := hR.clear_spec
    exact ⟨t, hclear, hlive⟩

/-- Two values of one key, of which the second is found, and a call that is refused memory. -/
theorem map_of_stacks_twice : ∃ s, (sessions ℕ ℕ id 2).Reach Allowed s ∧
    s.table.find id 3 = some (some 31) ∧ s.table.contain id 5 = some false ∧
    ∃ t, s.table.clear = some t ∧ t.live = [] := by
  have hrun : ∃ s, (sessions ℕ ℕ id 2).Reach Allowed s ∧ s.values 3 = [31, 30] ∧ s.values 5 = [] :=
    ⟨_, (sessions ℕ ℕ id 2).reach_of_run _
      [.insert 3 30 8, .insert 1 10 16, .insert 3 31 24, .findOrInsert 5 50 0] rfl, rfl, rfl⟩
  obtain ⟨s, hs, htwo, hnone⟩ := hrun
  obtain ⟨hfind, -, hclear⟩ := map_of_stacks (by decide) (by decide) hs
  refine ⟨s, hs, (hfind 3).1.trans (by rw [htwo]; rfl), (hfind 5).2.trans (by rw [hnone]; rfl),
    hclear⟩

/-! ## Careful calls -/

omit [Inhabited K] in
/-- A careful call returns, and the snapshot is still there. -/
theorem Sound.step_of_careful (hI : Sound hashfn s) (hS : Shows s.table s.shown)
    (hok : Careful hashfn s c) : ∃ t r, c.apply hashfn s.table = some (t, r) ∧
      Kept hashfn s.table s.values c t r ∧
      Shows t (if r = .threw then s.shown else c.shown hashfn s.table s.shown) := by
  obtain ⟨-, chain, hR⟩ := hI
  obtain ⟨t, r, happly, hkept⟩ := hR.step c hok.1 fun _ => ⟨s.shown, hS⟩
  refine ⟨t, r, happly, hkept, hkept.shows s.shown hS fun key hc => ?_⟩
  subst hc
  exact hok.2

theorem shows_of_reach (hmin : 0 < min) (hle : min ≤ 2 ^ 63)
    (hs : (sessions K V hashfn min).Reach (Careful hashfn) s) :
    Sound hashfn s ∧ Shows s.table s.shown := by
  refine hs.invariant (I := fun s => Sound hashfn s ∧ Shows s.table s.shown)
    ⟨sound_construct hmin hle, rfl, fun a ha => absurd ha List.not_mem_nil⟩
    fun s c s' hI hok hst => ?_
  obtain ⟨t, r, happly, hkept, hS⟩ := hI.1.step_of_careful hI.2 hok
  obtain ⟨r', happly', hr⟩ := Option.map_eq_some_iff.1 hst
  obtain rfl : (t, r) = r' := Option.some.inj (happly.symm.trans happly')
  have hsound := hkept.sound hI.1.1
  rw [← hr]
  refine ⟨hsound, ?_⟩
  dsimp only
  split_ifs at hS ⊢ with hthrew
  · exact hS
  · exact hS

omit [Inhabited K] [Inhabited V] in
theorem Formed.stackIn_entriesFrom (hF : Formed hashfn h chain) (key : K) {i n : ℕ}
    (hn : i + n ≤ h.mask + 1) : h.stackIn key (entriesFrom chain i n) =
      if i ≤ h.indexOf hashfn key ∧ h.indexOf hashfn key < i + n
      then h.stackIn key (chain (h.indexOf hashfn key)) else [] := by
  induction n generalizing i with
  | zero => rw [if_neg (by omega)]; rfl
  | succ n ih =>
    rw [entriesFrom_succ, stackIn_append, ih (by omega)]
    by_cases hi : i = h.indexOf hashfn key
    · rw [if_neg (by omega), if_pos (by omega), ← hi, List.append_nil]
    · have hnone : ∀ b ∈ chain i, h.key b ≠ key := by
        intro b hb hkey
        rw [← hkey, hF.bucket i (by omega) b hb] at hi
        exact hi rfl
      rw [stackIn_eq_nil hnone, List.nil_append]
      exact if_congr (by omega) rfl rfl

omit [Inhabited K] [Inhabited V] in
theorem Represents.stackIn_entries (hR : Represents hashfn h chain m) (key : K) :
    h.stackIn key (entriesFrom chain 0 (h.mask + 1)) = m key := by
  have hle : h.indexOf hashfn key ≤ h.mask := indexOf_le h key
  rw [hR.formed.stackIn_entriesFrom key (by omega), if_pos (by omega), hR.stack_eq]

omit [LinearOrder K] [Inhabited K] [Inhabited V] in
theorem Shows.snap_eq_zero_iff (hS : Shows h l) : h.snap = 0 ↔ l = [] := by
  constructor
  · exact fun hsnap => hS.1.unique (Linked.nil_iff.2 hsnap)
  · rintro rfl
    exact hS.1

/-- **Iteration in careful runs.** Every careful call returns. The snapshot is what iteration shows:
its entries are allocated, and calls other than `snap`, `sort` and `clear` do not change it. Without
one iteration shows every entry once, and the values of each key as they are in its stack. -/
theorem traverse_shown (hmin : 0 < min) (hle : min ≤ 2 ^ 63)
    (hs : (sessions K V hashfn min).Reach (Careful hashfn) s) :
    (∀ c, Careful hashfn s c → ∃ r, c.apply hashfn s.table = some r) ∧
    (s.shown ≠ [] → s.table.traverse hashfn = some s.shown ∧ s.shown ⊆ s.table.live) ∧
    (s.shown = [] → ∃ es, s.table.traverse hashfn = some es ∧ es.Perm s.table.live ∧
      ∀ key, s.table.stackIn key es = s.values key) := by
  obtain ⟨hI, hS⟩ := shows_of_reach hmin hle hs
  refine ⟨fun c hok => ?_, fun hne => ?_, fun hnil => ?_⟩
  · obtain ⟨t, r, happly, -⟩ := hI.step_of_careful hS hok
    exact ⟨_, happly⟩
  · obtain ⟨-, chain, hR⟩ := hI
    have hsnap : s.table.snap ≠ 0 := fun hz => hne (hS.snap_eq_zero_iff.1 hz)
    exact ⟨hR.formed.traverse_of_snapshot hsnap hS.1 hS.2, hS.2⟩
  · obtain ⟨-, chain, hR⟩ := hI
    refine ⟨_, hR.formed.traverse_of_no_snapshot (hS.snap_eq_zero_iff.2 hnil), ?_,
      hR.stackIn_entries⟩
    exact (List.perm_ext_iff_of_nodup hR.formed.nodup_entries hR.formed.nodup).2
      fun a => hR.formed.mem_entries

/-- What is inserted after `snap` is not shown. -/
theorem traverse_shown_later : ∃ s, (sessions ℕ ℕ id 2).Reach (Careful id) s ∧
    s.values 5 = [50] ∧ s.table.traverse id = some [24, 16, 8] := by
  have hrun : ∃ s, (sessions ℕ ℕ id 2).Reach (Careful id) s ∧ s.values 5 = [50] ∧
      s.shown = [24, 16, 8] :=
    ⟨_, (sessions ℕ ℕ id 2).reach_of_run _
      [.insert 3 30 8, .insert 1 10 16, .insert 3 31 24, .snap, .insert 5 50 32] rfl, rfl, rfl⟩
  obtain ⟨s, hs, hvalues, hshown⟩ := hrun
  have htraverse := (traverse_shown (by decide) (by decide) hs).2.1 (by simp [hshown])
  exact ⟨s, hs, hvalues, htraverse.1.trans (congrArg some hshown)⟩

/-! ## A sorted snapshot -/

omit [Inhabited K] [Inhabited V] in
/-- A stable sort does not change what the stacks are. -/
theorem stackIn_mergeSort (h : ChainHash K V) (key : K) (l : List ℕ) :
    h.stackIn key (l.mergeSort h.le) = h.stackIn key l := by
  have hsame := BottomUp.sameOrder_mergeSort h.le_transitive h.le_totally l
  by_cases hex : ∃ a ∈ l, h.key a = key
  · obtain ⟨a, -, rfl⟩ := hex
    have halike : BottomUp.alike h.le a = fun b => decide (h.key b = h.key a) := by
      funext b
      rw [BottomUp.alike, le, le, ← Bool.decide_and]
      exact decide_eq_decide.2 ⟨fun hab => le_antisymm hab.2 hab.1, fun heq => ⟨heq.ge, heq.le⟩⟩
    have hfilter := hsame.filter a
    rw [halike] at hfilter
    rw [stackIn, stackIn, hfilter]
  · have hnone : ∀ b ∈ l, h.key b ≠ key := fun b hb hkey => hex ⟨b, hb, hkey⟩
    rw [stackIn_eq_nil hnone, stackIn_eq_nil fun b hb => hnone b (List.mem_mergeSort.1 hb)]

/-- **`snap` and `sort`.** After them iteration shows the keys in ascending order, and the values of
each key from the top of its stack to the bottom. -/
theorem snap_sort (hmin : 0 < min) (hle : min ≤ 2 ^ 63)
    (hs : (sessions K V hashfn min).Reach (Careful hashfn) s) :
    ∃ t t' es, s.table.snapshot = some t ∧ t.sort = some t' ∧ t'.traverse hashfn = some es ∧
      es.Pairwise (fun a b => t'.key a ≤ t'.key b) ∧ ∀ key, t'.stackIn key es = s.values key := by
  obtain ⟨⟨-, chain, hR⟩, hS⟩ := shows_of_reach hmin hle hs
  obtain ⟨p, link, hsnapshot, hnone, hsome⟩ := hR.formed.snapshot_spec
  have hR' := hR.relink p link
  have hmem := fun a => (hR.formed.mem_entries (a := a)).1
  by_cases hnil : entriesFrom chain 0 (s.table.mask + 1) = []
  · -- then nothing is allocated, and nothing is in the snapshot
    have hp : p = 0 := by
      rw [(hnone hnil).1, hS.snap_eq_zero_iff]
      refine List.eq_nil_iff_forall_not_mem.2 fun a ha => ?_
      have hin := hR.formed.mem_entries.2 (hS.2 a ha)
      rw [hnil] at hin
      exact List.not_mem_nil hin
    refine ⟨_, _, [], hsnapshot, by rw [sort, if_pos hp], ?_, .nil, fun key => ?_⟩
    · rw [hR'.formed.traverse_of_no_snapshot hp]
      exact congrArg some hnil
    · rw [← hR.stackIn_entries key, hnil]
      rfl
  · obtain ⟨hp, hlinked⟩ := hsome hnil
    obtain ⟨link', q, hsorted, hq, hlinked'⟩ := hR'.formed.sort_spec hp hlinked hmem
    have hR'' := hR'.relink q link'
    refine ⟨_, _, _, hsnapshot, hsorted, hR''.formed.traverse_of_snapshot hq hlinked' fun a ha =>
      hmem a (List.mem_mergeSort.1 ha), ?_, fun key => ?_⟩
    · exact (List.pairwise_mergeSort (le_transitive _) (le_totally _) _).imp of_decide_eq_true
    · exact (stackIn_mergeSort s.table key _).trans (hR.stackIn_entries key)

/-- Two values of one key, and a lesser key. -/
theorem snap_sort_three : ∃ s, (sessions ℕ ℕ id 2).Reach (Careful id) s ∧
    ∃ t t' es, s.table.snapshot = some t ∧ t.sort = some t' ∧ t'.traverse id = some es ∧
      es.Pairwise (fun a b => t'.key a ≤ t'.key b) ∧ t'.stackIn 3 es = [31, 30] ∧
      t'.stackIn 1 es = [10] := by
  have hrun : ∃ s, (sessions ℕ ℕ id 2).Reach (Careful id) s ∧ s.values 3 = [31, 30] ∧
      s.values 1 = [10] :=
    ⟨_, (sessions ℕ ℕ id 2).reach_of_run _
      [.insert 3 30 8, .insert 1 10 16, .insert 3 31 24] rfl, rfl, rfl⟩
  obtain ⟨s, hs, hthree, hone⟩ := hrun
  obtain ⟨t, t', es, hsnap, hsort, htraverse, hsorted, hvalues⟩ :=
    snap_sort (by decide) (by decide) hs
  exact ⟨s, hs, t, t', es, hsnap, hsort, htraverse, hsorted, (hvalues 3).trans hthree,
    (hvalues 1).trans hone⟩

/-! ## A careless call -/

omit [Inhabited K] [Inhabited V] in
theorem Formed.visit_of_freed (hF : Formed hashfn h chain) (hsnap : h.snap ≠ 0)
    (hl : Linked h.link 0 e l) (hfreed : ∃ a ∈ l, a ∉ h.live) (fuel p i : ℕ) :
    h.visit hashfn fuel ⟨e, p, i⟩ = none := by
  induction l generalizing e fuel p i with
  | nil => exact absurd hfreed (by simp)
  | cons b l ih =>
    obtain ⟨rfl, he, hl⟩ := hl
    cases fuel with
    | zero => rfl
    | succ fuel =>
      rw [visit, if_neg he, increment, advance, if_neg he]
      by_cases helive : e ∈ h.live
      · obtain ⟨a, ha, hnot⟩ := hfreed
        have hal : a ∈ l := (List.mem_cons.1 ha).resolve_left fun heq => hnot (heq ▸ helive)
        have hlink : h.link e ≠ 0 := by
          intro hz
          rw [hl.unique (Linked.nil_iff.2 hz)] at hal
          exact List.not_mem_nil hal
        rw [if_neg (not_not.2 helive), if_pos hsnap, if_neg hlink]
        by_cases hnext : h.link e ∈ h.live
        · obtain ⟨p', i', hitr⟩ := hF.itrAt_spec hnext
          rw [hitr]
          simp [ih hl ⟨a, hal, hnot⟩]
        · rw [itrAt, if_pos hnext]
          rfl
      · rw [if_pos helive]
        rfl

omit [Inhabited K] [Inhabited V] in
theorem Formed.traverse_of_freed (hF : Formed hashfn h chain) (hsnap : h.snap ≠ 0)
    (hl : Linked h.link 0 h.snap l) (hfreed : ∃ a ∈ l, a ∉ h.live) : h.traverse hashfn = none := by
  rw [traverse, iterator, if_pos hsnap]
  by_cases hlive : h.snap ∈ h.live
  · obtain ⟨p, i, hitr⟩ := hF.itrAt_spec hlive
    rw [hitr, Option.bind_some]
    exact hF.visit_of_freed hsnap hl hfreed _ p i
  · rw [itrAt, if_pos hlive]
    rfl

/-- **`erase` and the snapshot.** After a careful run `erase` returns, and iteration after it is
defined exactly if the entry that it frees is not in the snapshot. -/
theorem traverse_erased_iff (hmin : 0 < min) (hle : min ≤ 2 ^ 63)
    (hs : (sessions K V hashfn min).Reach (Careful hashfn) s) (key : K) :
    ∃ t, s.table.erase hashfn key = some t ∧
      (t.traverse hashfn ≠ none ↔ s.table.erased hashfn key ∉ s.shown) := by
  obtain ⟨hI, hS⟩ := shows_of_reach hmin hle hs
  by_cases hin : s.table.erased hashfn key ∈ s.shown
  · obtain ⟨-, chain, hR⟩ := hI
    cases hR.formed.lookup key with
    | @found l₁ l₂ a hsplit hkey hbefore hget =>
      obtain ⟨t, chain', herase, hR', hA⟩ := hR.erase_of_found hsplit hkey hbefore hget
      rw [erased, hget] at hin
      have ha : a ∈ s.shown := hin
      -- the snapshot still leads to the entry that is freed
      refine ⟨t, herase, fun hdefined => absurd ?_ hdefined, fun hnot => absurd ?_ hnot⟩
      · refine hR'.formed.traverse_of_freed (l := s.shown) ?_ (by rw [hA.link, hA.snap]; exact hS.1)
          ⟨a, ha, ?_⟩
        · rw [hA.snap, Ne, hS.snap_eq_zero_iff]
          exact List.ne_nil_of_mem ha
        · rw [hA.live, hR.formed.nodup.mem_erase_iff]
          exact fun hand => hand.1 rfl
      · rwa [erased, hget]
    | absent habsent hget =>
      rw [erased, hget] at hin
      exact absurd rfl (hS.1.ne_null hin)
  · have hok : Careful hashfn s (.erase key) := ⟨fun p hp => (by cases hp), hin⟩
    obtain ⟨t, r, happly, hkept, hS'⟩ := hI.step_of_careful hS hok
    obtain ⟨t', herase, heq⟩ := Option.map_eq_some_iff.1 happly
    cases heq
    obtain ⟨chain, hR⟩ := hkept.represents
    refine ⟨t, herase, fun _ => hin, fun _ => ?_⟩
    have hshown : Shows t s.shown := hS'
    by_cases hsnap : t.snap = 0
    · rw [hR.formed.traverse_of_no_snapshot hsnap]
      exact Option.some_ne_none _
    · rw [hR.formed.traverse_of_snapshot hsnap hshown.1 hshown.2]
      exact Option.some_ne_none _

/-- An entry that was inserted after `snap` may be erased, and one from before it may not. -/
theorem traverse_erased_iff_top : ∃ s, (sessions ℕ ℕ id 2).Reach (Careful id) s ∧
    (∃ t, s.table.erase id 3 = some t ∧ t.traverse id ≠ none) ∧
    ∃ t, s.table.erase id 1 = some t ∧ t.traverse id = none := by
  have hrun : ∃ s, (sessions ℕ ℕ id 2).Reach (Careful id) s ∧ s.table.erased id 3 ∉ s.shown ∧
      s.table.erased id 1 ∈ s.shown :=
    ⟨_, (sessions ℕ ℕ id 2).reach_of_run _
      [.insert 3 30 8, .insert 1 10 16, .snap, .insert 3 31 24] rfl, by decide, by decide⟩
  obtain ⟨s, hs, hout, hin⟩ := hrun
  obtain ⟨t, herase, hiff⟩ := traverse_erased_iff (by decide) (by decide) hs 3
  obtain ⟨t', herase', hiff'⟩ := traverse_erased_iff (by decide) (by decide) hs 1
  exact ⟨s, hs, ⟨t, herase, hiff.2 hout⟩, t', herase',
    not_not.1 fun hdefined => hiff'.1 hdefined hin⟩

/-! ## Copies -/

omit [LinearOrder K] [Inhabited K] [Inhabited V] in
/-- The values of a key in a list of pairs. -/
def valuesIn [DecidableEq K] (key : K) (kvs : List (K × V)) : List V :=
  (kvs.filter fun kv => kv.1 = key).map Prod.snd

omit [Inhabited K] [Inhabited V] in
theorem valuesIn_map_pair (h : ChainHash K V) (key : K) (es : List ℕ) :
    valuesIn key (es.map h.pair) = h.stackIn key es := by
  rw [valuesIn, List.filter_map, List.map_map]
  rfl

omit [Inhabited K] [Inhabited V] in
/-- **The insertions of a copy**: the values of each key are pushed one after another. -/
theorem Represents.insertEach_spec (hR : Represents hashfn h chain m) {kvs : List (K × V)}
    {addrs : List ℕ} (hnodup : addrs.Nodup)
    (haddrs : ∀ a ∈ addrs, a ≠ 0 ∧ a < 2 ^ 64 ∧ a ∉ h.live) (hroom : kvs.length ≤ addrs.length) :
    ∃ t chain', h.insertEach hashfn kvs addrs = some t ∧
      Represents hashfn t chain' fun key => (valuesIn key kvs).reverse ++ m key := by
  induction kvs generalizing h chain m addrs with
  | nil => exact ⟨h, chain, rfl, hR⟩
  | cons kv kvs ih =>
    cases addrs with
    | nil => exact absurd hroom (by simp)
    | cons addr addrs =>
      obtain ⟨h0, hlt, hnew⟩ := haddrs addr List.mem_cons_self
      obtain ⟨hnot, hnodup'⟩ := List.nodup_cons.1 hnodup
      have hlive : (h.insert hashfn addr kv.1 kv.2).1.live = addr :: h.live := by
        rw [insert, set]
        simp [h0]
        rfl
      have hpushed := hR.insert_spec kv.1 kv.2 (Or.inr ⟨hnew, hlt⟩)
      revert hpushed hlive
      cases hinsert : h.insert hashfn addr kv.1 kv.2 with
      | mk t itr =>
        intro hlive hpushed
        cases hpushed with
        | threw hz => exact absurd hz h0
        | @pushed _ chain' l₁ l₂ _ hE hR' _ _ _ =>
          have haddrs' : ∀ a ∈ addrs, a ≠ 0 ∧ a < 2 ^ 64 ∧ a ∉ t.live := by
            intro a ha
            obtain ⟨ha0, halt, hanew⟩ := haddrs a (List.mem_cons_of_mem _ ha)
            refine ⟨ha0, halt, fun hin => ?_⟩
            have hin' : a ∈ addr :: h.live := hlive ▸ hin
            rcases List.mem_cons.1 hin' with rfl | hin'
            · exact hnot ha
            · exact hanew hin'
          obtain ⟨t', chain'', heach, hR''⟩ := ih hR' hnodup' haddrs' (by simpa using hroom)
          refine ⟨t', chain'', ?_, ?_⟩
          · rw [insertEach, hinsert]
            exact heach
          · have hvalues : (fun key => (valuesIn key kvs).reverse ++
                Function.update m kv.1 (kv.2 :: m kv.1) key) =
                fun key => (valuesIn key (kv :: kvs)).reverse ++ m key := by
              funext key
              by_cases hkey : kv.1 = key
              · subst hkey
                rw [valuesIn, valuesIn, List.filter_cons_of_pos (by simp), Function.update_self]
                simp
              · rw [valuesIn, valuesIn, List.filter_cons_of_neg (by simpa using hkey),
                  Function.update_of_ne (Ne.symm hkey)]
            rwa [hvalues] at hR''

/-- **Copies reverse the stacks.** The copy constructor, and `operator=` over any other object,
insert the entries that iteration shows, one after another: a key then has the oldest of its values
that are shown, where the original has the newest. -/
theorem copy_reverses {min' : ℕ} {d : Session K V} (hmin : 0 < min) (hle : min ≤ 2 ^ 63)
    (hs : (sessions K V hashfn min).Reach (Careful hashfn) s)
    (hmin' : 0 < min') (hle' : min' ≤ 2 ^ 63)
    (hd : (sessions K V hashfn min').Reach Allowed d) : ∃ es, s.table.traverse hashfn = some es ∧
      (s.shown = [] → ∀ key, s.table.stackIn key es = s.values key) ∧
      ∀ addrs : List ℕ, addrs.Nodup → (∀ a ∈ addrs, a ≠ 0 ∧ a < 2 ^ 64) → es.length ≤ addrs.length →
        ∃ t t', s.table.copyConstruct hashfn addrs = some t ∧
          d.table.copyAssign hashfn s.table addrs = some t' ∧
          ∀ key, t.find hashfn key = some (s.table.stackIn key es).getLast? ∧
            t'.find hashfn key = some (s.table.stackIn key es).getLast? := by
  obtain ⟨-, hsome, hnone⟩ := traverse_shown hmin hle hs
  obtain ⟨es, htraverse, hvalues⟩ : ∃ es, s.table.traverse hashfn = some es ∧
      (s.shown = [] → ∀ key, s.table.stackIn key es = s.values key) := by
    by_cases hnil : s.shown = []
    · obtain ⟨es, htraverse, -, hvalues⟩ := hnone hnil
      exact ⟨es, htraverse, fun _ => hvalues⟩
    · exact ⟨s.shown, (hsome hnil).1, fun hnil' => absurd hnil' hnil⟩
  refine ⟨es, htraverse, hvalues, fun addrs hnodup haddrs hroom => ?_⟩
  have hroom' : (es.map s.table.pair).length ≤ addrs.length := by rwa [List.length_map]
  have hmask : s.table.mask < 2 ^ 63 := (shows_of_reach hmin hle hs).1.1
  -- both copies insert the same pairs into an empty table
  have hfrom : ∀ {h : ChainHash K V}, Represents hashfn h (fun _ => []) (fun _ => []) →
      h.live = [] → ∃ t, h.insertEach hashfn (es.map s.table.pair) addrs = some t ∧
        ∀ key, t.find hashfn key = some (s.table.stackIn key es).getLast? := by
    intro h hR hlive
    obtain ⟨t, chain, heach, hR'⟩ := hR.insertEach_spec hnodup
      (fun a ha => ⟨(haddrs a ha).1, (haddrs a ha).2, by rw [hlive]; exact List.not_mem_nil⟩) hroom'
    refine ⟨t, heach, fun key => ?_⟩
    rw [hR'.find_spec, List.append_nil, List.head?_reverse, valuesIn_map_pair]
  obtain ⟨-, chain, hR⟩ := sound_of_reach hmin' hle' hd
  obtain ⟨h, hclear, hempty, hlive, -⟩ := hR.clear_spec
  obtain ⟨t, heach, hfind⟩ := hfrom (represents_construct (V := V) hashfn
    (show 0 < s.table.nbucket from Nat.succ_pos _) (show s.table.nbucket ≤ 2 ^ 63 from hmask)) rfl
  obtain ⟨t', heach', hfind'⟩ := hfrom hempty hlive
  refine ⟨t, t', ?_, ?_, fun key => ⟨hfind key, hfind' key⟩⟩
  · rw [copyConstruct, htraverse]
    exact heach
  · rw [copyAssign, hclear, Option.bind_some, htraverse]
    exact heach'

/-- The original finds the second value of a key, and its copies find the first. -/
theorem copy_reverses_two : ∃ s, (sessions ℕ ℕ id 2).Reach (Careful id) s ∧
    s.table.find id 3 = some (some 31) ∧ ∃ t t', s.table.copyConstruct id [8, 16] = some t ∧
      (construct ℕ ℕ 4).copyAssign id s.table [8, 16] = some t' ∧
      t.find id 3 = some (some 30) ∧ t'.find id 3 = some (some 30) := by
  have hrun : ∃ s, (sessions ℕ ℕ id 2).Reach (Careful id) s ∧ s.table.find id 3 = some (some 31) ∧
      s.shown = [] ∧ s.values 3 = [31, 30] ∧ s.table.traverse id = some [24, 8] :=
    ⟨_, (sessions ℕ ℕ id 2).reach_of_run _ [.insert 3 30 8, .insert 3 31 24] rfl,
      rfl, rfl, rfl, rfl⟩
  obtain ⟨s, hs, hfind, hshown, htwo, htraverse⟩ := hrun
  obtain ⟨es, htraverse', hvalues, hcopies⟩ :=
    copy_reverses (by decide) (by decide) hs (by decide) (by decide) (d := (sessions ℕ ℕ id 4).init)
      .init
  obtain rfl : es = [24, 8] := Option.some.inj (htraverse'.symm.trans htraverse)
  obtain ⟨t, t', hcopy, hassign, hfinds⟩ := hcopies [8, 16] (by decide) (by decide) (by decide)
  have hlast : (s.table.stackIn 3 [24, 8]).getLast? = some 30 := by
    rw [hvalues hshown, htwo]
    rfl
  exact ⟨s, hs, hfind, t, t', hcopy, hassign, (hfinds 3).1.trans (congrArg some hlast),
    (hfinds 3).2.trans (congrArg some hlast)⟩

end

end ChainHash

end Naesala
