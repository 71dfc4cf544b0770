import Mathlib.Data.List.Perm.Subperm
import Naesala.Library.Linked
import Naesala.Third.ChainHash

/-!
# `chain_hash_map` is a map of stacks

`insert` does not look for its key: it puts a new entry in front of the chain. So a key has a stack
of values, of which `find` sees the top and `erase` removes it. `Formed` says that the chains are
linked lists of entries with the hash of their bucket, and that they share out the entries that are
allocated; every call changes one chain.

Each call has a lemma: `find_spec` and `contain_spec`, `insert_spec`, the two cases of
`find_or_insert`, `erase_of_found` and `clear_spec`. `ChainHashRuns` puts them together.
-/

namespace Naesala

namespace ChainHash

variable {K V : Type} [LinearOrder K] {hashfn : K → ℕ} {h h' : ChainHash K V}
variable {chain : ℕ → List ℕ} {key : K} {val : V} {l l₁ l₂ live : List ℕ} {addr a e p i fuel : ℕ}

/-! ## Well-formed tables -/

/-- The chains of a table, as lists of entries. -/
structure Formed (hashfn : K → ℕ) (h : ChainHash K V) (chain : ℕ → List ℕ) : Prop where
  length : h.tbl.length = h.mask + 1
  linked : ∀ i ≤ h.mask, Linked h.next 0 (h.head i) (chain i)
  bucket : ∀ i ≤ h.mask, ∀ a ∈ chain i, h.indexOf hashfn (h.key a) = i
  mem_live : ∀ a, a ∈ h.live ↔ ∃ i ≤ h.mask, a ∈ chain i
  nodup : h.live.Nodup
  lt : ∀ a ∈ h.live, a < 2 ^ 64

omit [LinearOrder K] in
theorem indexOf_le (h : ChainHash K V) (key : K) : h.indexOf hashfn key ≤ h.mask :=
  Nat.and_le_right

namespace Formed

omit [LinearOrder K] in
theorem live_of_mem (hF : Formed hashfn h chain) (hi : i ≤ h.mask) (ha : a ∈ chain i) :
    a ∈ h.live :=
  (hF.mem_live a).2 ⟨i, hi, ha⟩

omit [LinearOrder K] in
theorem ne_null (hF : Formed hashfn h chain) (ha : a ∈ h.live) : a ≠ 0 := by
  obtain ⟨i, hi, hmem⟩ := (hF.mem_live a).1 ha
  exact (hF.linked i hi).ne_null hmem

omit [LinearOrder K] in
theorem index_eq (hF : Formed hashfn h chain) {j : ℕ} (hi : i ≤ h.mask) (hj : j ≤ h.mask)
    (ha : a ∈ chain i) (ha' : a ∈ chain j) : i = j :=
  (hF.bucket i hi a ha).symm.trans (hF.bucket j hj a ha')

omit [LinearOrder K] in
theorem length_chain_lt (hF : Formed hashfn h chain) (hi : i ≤ h.mask) :
    (chain i).length < h.turns := by
  have hsub : (chain i).Subperm h.live :=
    List.subperm_of_subset (hF.linked i hi).nodup fun _ ha => hF.live_of_mem hi ha
  have hle := hsub.length_le
  rw [turns]
  omega

omit [LinearOrder K] in
/-- **One chain changes.** -/
theorem replace (hF : Formed hashfn h chain) (hi : i ≤ h.mask) (hmask : h'.mask = h.mask)
    (hlength : h'.tbl.length = h.tbl.length) (hhead : ∀ j, j ≠ i → h'.head j = h.head j)
    (hother : ∀ a, a ∈ h.live → a ∉ chain i → h'.next a = h.next a ∧ h'.key a = h.key a)
    (hlinked : Linked h'.next 0 (h'.head i) l)
    (hbucket : ∀ a ∈ l, h.indexOf hashfn (h'.key a) = i)
    (hlive : ∀ a, a ∈ h'.live ↔ a ∈ l ∨ a ∈ h.live ∧ a ∉ chain i) (hnodup : h'.live.Nodup)
    (hlt : ∀ a ∈ l, a < 2 ^ 64) : Formed hashfn h' (Function.update chain i l) := by
  have hindex : ∀ key, h'.indexOf hashfn key = h.indexOf hashfn key := fun key => by
    rw [indexOf, indexOf, hmask]
  have hapart : ∀ j ≤ h.mask, j ≠ i → ∀ a ∈ chain j, a ∈ h.live ∧ a ∉ chain i :=
    fun j hj hji a ha => ⟨hF.live_of_mem hj ha, fun ha' => hji (hF.index_eq hj hi ha ha')⟩
  refine ⟨by rw [hlength, hF.length, hmask], ?_, ?_, ?_, hnodup, ?_⟩
  · intro j hj
    rw [hmask] at hj
    by_cases hji : j = i
    · subst hji
      rwa [Function.update_self]
    · rw [Function.update_of_ne hji, hhead j hji]
      exact (hF.linked j hj).congr fun a ha =>
        (hother a (hapart j hj hji a ha).1 (hapart j hj hji a ha).2).1
  · intro j hj a ha
    rw [hmask] at hj
    rw [hindex]
    by_cases hji : j = i
    · subst hji
      rw [Function.update_self] at ha
      exact hbucket a ha
    · rw [Function.update_of_ne hji] at ha
      rw [(hother a (hapart j hj hji a ha).1 (hapart j hj hji a ha).2).2]
      exact hF.bucket j hj a ha
  · intro a
    rw [hlive, hmask]
    constructor
    · rintro (ha | ⟨ha, hnot⟩)
      · exact ⟨i, hi, by rwa [Function.update_self]⟩
      · obtain ⟨j, hj, hmem⟩ := (hF.mem_live a).1 ha
        have hji : j ≠ i := fun heq => hnot (heq ▸ hmem)
        exact ⟨j, hj, by rwa [Function.update_of_ne hji]⟩
    · rintro ⟨j, hj, ha⟩
      by_cases hji : j = i
      · subst hji
        rw [Function.update_self] at ha
        exact Or.inl ha
      · rw [Function.update_of_ne hji] at ha
        exact Or.inr (hapart j hj hji a ha)
  · intro a ha
    rcases (hlive a).1 ha with ha | ⟨ha, -⟩
    · exact hlt a ha
    · exact hF.lt a ha

end Formed

/-! ## Lookup -/

theorem getLoop_of_found (hl : Linked h.next 0 e (l₁ ++ a :: l₂))
    (hlive : ∀ b ∈ l₁ ++ a :: l₂, b ∈ h.live) (hkey : h.key a = key)
    (hbefore : ∀ b ∈ l₁, h.key b ≠ key) (hfuel : l₁.length < fuel) :
    h.getLoop key fuel p e = some (a, l₁.getLast?.getD p) := by
  induction l₁ generalizing e p fuel with
  | nil =>
    obtain ⟨fuel, rfl⟩ : ∃ k, fuel = k + 1 := ⟨fuel - 1, by omega⟩
    obtain ⟨rfl, he, -⟩ := hl
    rw [getLoop, if_neg he, if_neg (not_not.2 (hlive e List.mem_cons_self)), if_pos hkey.symm]
    rfl
  | cons b l₁ ih =>
    obtain ⟨fuel, rfl⟩ : ∃ k, fuel = k + 1 := ⟨fuel - 1, by omega⟩
    obtain ⟨rfl, he, hl⟩ := hl
    have hb : key ≠ h.key e := (hbefore e List.mem_cons_self).symm
    rw [getLoop, if_neg he, if_neg (not_not.2 (hlive e List.mem_cons_self)), if_neg hb,
      ih hl (fun c hc => hlive c (List.mem_cons_of_mem _ hc))
        (fun c hc => hbefore c (List.mem_cons_of_mem _ hc)) (by simpa using hfuel),
      List.getLast?_cons, Option.getD_some]

theorem getLoop_of_absent (hl : Linked h.next 0 e l) (hlive : ∀ b ∈ l, b ∈ h.live)
    (habsent : ∀ b ∈ l, h.key b ≠ key) (hfuel : l.length < fuel) :
    h.getLoop key fuel p e = some (0, l.getLast?.getD p) := by
  induction l generalizing e p fuel with
  | nil =>
    obtain ⟨fuel, rfl⟩ : ∃ k, fuel = k + 1 := ⟨fuel - 1, by omega⟩
    have he : e = 0 := hl
    rw [getLoop, if_pos he, he]
    rfl
  | cons b l ih =>
    obtain ⟨fuel, rfl⟩ : ∃ k, fuel = k + 1 := ⟨fuel - 1, by omega⟩
    obtain ⟨rfl, he, hl⟩ := hl
    have hb : key ≠ h.key e := (habsent e List.mem_cons_self).symm
    rw [getLoop, if_neg he, if_neg (not_not.2 (hlive e List.mem_cons_self)), if_neg hb,
      ih hl (fun c hc => hlive c (List.mem_cons_of_mem _ hc))
        (fun c hc => habsent c (List.mem_cons_of_mem _ hc)) (by simpa using hfuel),
      List.getLast?_cons, Option.getD_some]

/-- The chain of a key has a first entry with the key, or none. -/
inductive Lookup (hashfn : K → ℕ) (h : ChainHash K V) (chain : ℕ → List ℕ) (key : K) : Prop
  | found {l₁ l₂ : List ℕ} {a : ℕ} : chain (h.indexOf hashfn key) = l₁ ++ a :: l₂ →
      h.key a = key → (∀ b ∈ l₁, h.key b ≠ key) →
      h.get hashfn key = some ⟨a, l₁.getLast?.getD 0, h.indexOf hashfn key⟩ →
      Lookup hashfn h chain key
  | absent : (∀ b ∈ chain (h.indexOf hashfn key), h.key b ≠ key) →
      h.get hashfn key = some ⟨0, (chain (h.indexOf hashfn key)).getLast?.getD 0,
        h.indexOf hashfn key⟩ → Lookup hashfn h chain key

/-- **`chainhash_get`.** -/
theorem Formed.lookup (hF : Formed hashfn h chain) (key : K) : Lookup hashfn h chain key := by
  have hi : h.indexOf hashfn key ≤ h.mask := indexOf_le h key
  have hl := hF.linked _ hi
  have hlive : ∀ b ∈ chain (h.indexOf hashfn key), b ∈ h.live := fun b hb => hF.live_of_mem hi hb
  have hfuel := hF.length_chain_lt hi
  cases hfind : (chain (h.indexOf hashfn key)).find? fun a => h.key a = key with
  | none =>
    have habsent : ∀ b ∈ chain (h.indexOf hashfn key), h.key b ≠ key := fun b hb =>
      by simpa using List.find?_eq_none.1 hfind b hb
    exact .absent habsent (by rw [get, getLoop_of_absent hl hlive habsent hfuel]; rfl)
  | some a =>
    obtain ⟨hkey, l₁, l₂, hsplit, hbefore⟩ := List.find?_eq_some_iff_append.1 hfind
    have hkey' : h.key a = key := by simpa using hkey
    have hbefore' : ∀ b ∈ l₁, h.key b ≠ key := fun b hb => by simpa using hbefore b hb
    rw [hsplit] at hl hlive hfuel
    rw [List.length_append, List.length_cons] at hfuel
    exact .found hsplit hkey' hbefore'
      (by rw [get, getLoop_of_found hl hlive hkey' hbefore' (by omega)]; rfl)

/-! ## Stacks -/

/-- The values of a key in a list of entries. -/
def stackIn (h : ChainHash K V) (key : K) (l : List ℕ) : List V :=
  (l.filter fun a => h.key a = key).map h.val

/-- Every key has its stack of values in its chain. -/
structure Represents (hashfn : K → ℕ) (h : ChainHash K V) (chain : ℕ → List ℕ)
    (m : K → List V) : Prop where
  formed : Formed hashfn h chain
  stack_eq : ∀ key, m key = h.stackIn key (chain (h.indexOf hashfn key))

/-- Nothing happens to the entries there are, but to their `next` and to values. -/
structure Extends (h t : ChainHash K V) : Prop where
  mask : t.mask = h.mask
  snap : t.snap = h.snap
  live : ∀ a ∈ h.live, a ∈ t.live
  link : ∀ a ∈ h.live, t.link a = h.link a
  key : ∀ a ∈ h.live, t.key a = h.key a

omit [LinearOrder K] in
theorem Extends.refl (h : ChainHash K V) : Extends h h :=
  ⟨rfl, rfl, fun _ ha => ha, fun _ _ => rfl, fun _ _ => rfl⟩

omit [LinearOrder K] in
theorem Extends.setVal {t : ChainHash K V} (hE : Extends h t) (e : ℕ) (val : V) :
    Extends h (t.setVal e val) :=
  ⟨hE.mask, hE.snap, hE.live, hE.link, hE.key⟩

theorem stackIn_congr (hsame : ∀ a ∈ l, h'.key a = h.key a ∧ h'.val a = h.val a) :
    h'.stackIn key l = h.stackIn key l := by
  have hfilter : (l.filter fun a => h'.key a = key) = l.filter fun a => h.key a = key :=
    List.filter_congr fun a ha => by rw [(hsame a ha).1]
  rw [stackIn, stackIn, hfilter]
  exact List.map_congr_left fun a ha => (hsame a (List.mem_of_mem_filter ha)).2

theorem stackIn_append (h : ChainHash K V) (key : K) (l l' : List ℕ) :
    h.stackIn key (l ++ l') = h.stackIn key l ++ h.stackIn key l' := by
  rw [stackIn, stackIn, stackIn, List.filter_append, List.map_append]

theorem stackIn_eq_nil (habsent : ∀ b ∈ l, h.key b ≠ key) : h.stackIn key l = [] := by
  rw [stackIn, List.filter_eq_nil_iff.2 fun b hb => by simpa using habsent b hb]
  rfl

theorem stackIn_cons_self (hkey : h.key a = key) (l : List ℕ) :
    h.stackIn key (a :: l) = h.val a :: h.stackIn key l := by
  rw [stackIn, List.filter_cons_of_pos (by simpa using hkey)]
  rfl

theorem stackIn_cons_of_ne (hkey : h.key a ≠ key) (l : List ℕ) :
    h.stackIn key (a :: l) = h.stackIn key l := by
  rw [stackIn, List.filter_cons_of_neg (by simpa using hkey)]
  rfl

variable {m : K → List V} {t : ChainHash K V}

/-- The top of a stack is the first entry with the key. -/
theorem Represents.stack_of_found (hR : Represents hashfn h chain m)
    (hsplit : chain (h.indexOf hashfn key) = l₁ ++ a :: l₂) (hkey : h.key a = key)
    (hbefore : ∀ b ∈ l₁, h.key b ≠ key) : m key = h.val a :: h.stackIn key l₂ := by
  rw [hR.stack_eq, hsplit, stackIn_append, stackIn_eq_nil hbefore, stackIn_cons_self hkey,
    List.nil_append]

theorem Represents.stack_of_absent (hR : Represents hashfn h chain m)
    (habsent : ∀ b ∈ chain (h.indexOf hashfn key), h.key b ≠ key) : m key = [] := by
  rw [hR.stack_eq, stackIn_eq_nil habsent]

theorem Represents.replace {v : List V} (hR : Represents hashfn h chain m)
    (hF : Formed hashfn t (Function.update chain (h.indexOf hashfn key) l))
    (hmask : t.mask = h.mask)
    (hother : ∀ a, a ∈ h.live → a ∉ chain (h.indexOf hashfn key) →
      t.key a = h.key a ∧ t.val a = h.val a)
    (hself : t.stackIn key l = v)
    (hbeside : ∀ k, k ≠ key → t.stackIn k l = h.stackIn k (chain (h.indexOf hashfn key))) :
    Represents hashfn t (Function.update chain (h.indexOf hashfn key) l)
      (Function.update m key v) := by
  refine ⟨hF, fun k => ?_⟩
  have hindex : t.indexOf hashfn k = h.indexOf hashfn k := by rw [indexOf, indexOf, hmask]
  rw [hindex]
  by_cases hk : k = key
  · subst hk
    rw [Function.update_self, Function.update_self, hself]
  · rw [Function.update_of_ne hk, hR.stack_eq]
    by_cases hi : h.indexOf hashfn k = h.indexOf hashfn key
    · rw [hi, Function.update_self, hbeside k hk]
    · rw [Function.update_of_ne hi]
      refine (stackIn_congr fun a ha => ?_).symm
      have hle : h.indexOf hashfn k ≤ h.mask := indexOf_le h k
      have hle' : h.indexOf hashfn key ≤ h.mask := indexOf_le h key
      exact hother a (hR.formed.live_of_mem hle ha) fun ha' =>
        hi (hR.formed.index_eq hle hle' ha ha')

/-! ## Lookup in a stack -/

theorem Represents.find_spec (hR : Represents hashfn h chain m) (key : K) :
    h.find hashfn key = some (m key).head? := by
  cases hR.formed.lookup key with
  | @found l₁ l₂ a hsplit hkey hbefore hget =>
    have ha : a ≠ 0 := hR.formed.ne_null
      (hR.formed.live_of_mem (indexOf_le h key) (by rw [hsplit]; simp))
    rw [find, hget, hR.stack_of_found hsplit hkey hbefore]
    simp [ha]
  | absent habsent hget =>
    rw [find, hget, hR.stack_of_absent habsent]
    rfl

theorem Represents.contain_spec (hR : Represents hashfn h chain m) (key : K) :
    h.contain hashfn key = some (decide (m key ≠ [])) := by
  cases hR.formed.lookup key with
  | @found l₁ l₂ a hsplit hkey hbefore hget =>
    have ha : a ≠ 0 := hR.formed.ne_null
      (hR.formed.live_of_mem (indexOf_le h key) (by rw [hsplit]; simp))
    rw [contain, hget, hR.stack_of_found hsplit hkey hbefore]
    simp [ha]
  | absent habsent hget =>
    rw [contain, hget, hR.stack_of_absent habsent]
    rfl

/-! ## New entries -/

/-- What `malloc` may return. -/
def Mallocs (h : ChainHash K V) (addr : ℕ) : Prop := addr = 0 ∨ addr ∉ h.live ∧ addr < 2 ^ 64

omit [LinearOrder K] in
theorem head_of_set (hlt : i < h.tbl.length) (ht : t.tbl = h.tbl.set i e) :
    t.head i = e ∧ ∀ j, j ≠ i → t.head j = h.head j := by
  constructor
  · rw [head, ht, List.getD_eq_getElem?_getD, List.getElem?_set_self hlt, Option.getD_some]
  · intro j hj
    rw [head, head, ht, List.getD_eq_getElem?_getD, List.getElem?_set_ne (Ne.symm hj),
      List.getD_eq_getElem?_getD]

omit [LinearOrder K] in
theorem ne_of_live (hnew : addr ∉ h.live) (ha : a ∈ h.live) : a ≠ addr := by
  intro heq
  rw [heq] at ha
  exact hnew ha

/-- A new entry `addr`, but for its place in the chain. -/
structure Allocates (h t : ChainHash K V) (addr : ℕ) (key : K) (val : V) : Prop where
  mask : t.mask = h.mask
  length : t.tbl.length = h.tbl.length
  snap : t.snap = h.snap
  link : t.link = Function.update h.link addr 0
  key : t.key = Function.update h.key addr key
  val : t.val = Function.update h.val addr val
  live : t.live = addr :: h.live

omit [LinearOrder K] in
theorem Allocates.extends (hA : Allocates h t addr key val) (hnew : addr ∉ h.live) :
    Extends h t := by
  refine ⟨hA.mask, hA.snap, fun a ha => ?_, fun a ha => ?_, fun a ha => ?_⟩
  · rw [hA.live]
    exact List.mem_cons_of_mem _ ha
  · rw [hA.link]
    exact Function.update_of_ne (ne_of_live hnew ha) ..
  · rw [hA.key]
    exact Function.update_of_ne (ne_of_live hnew ha) ..

/-- What a call that makes an entry does: it throws if it gets none, or pushes its value. -/
inductive Pushed (hashfn : K → ℕ) (h : ChainHash K V) (m : K → List V) (addr : ℕ) (key : K)
    (val : V) : ChainHash K V × Option ℕ → Prop
  | threw : addr = 0 → Pushed hashfn h m addr key val (h, none)
  | pushed {t : ChainHash K V} {chain' : ℕ → List ℕ} (l₁ l₂ : List ℕ) : addr ≠ 0 → Extends h t →
      Represents hashfn t chain' (Function.update m key (val :: m key)) →
      chain' (t.indexOf hashfn key) = l₁ ++ addr :: l₂ → t.key addr = key →
      (∀ b ∈ l₁, t.key b ≠ key) → Pushed hashfn h m addr key val (t, some addr)

/-- **A new entry** is linked into the chain of its key in front of the entries `l₂`, where it is
the top of the stack. -/
theorem Represents.linkEntry (hR : Represents hashfn h chain m) (l₁ l₂ : List ℕ) (h0 : addr ≠ 0)
    (hnew : addr ∉ h.live) (hlt : addr < 2 ^ 64) (hA : Allocates h t addr key val)
    (hhead : ∀ j, j ≠ h.indexOf hashfn key → t.head j = h.head j)
    (hnext : ∀ a, a ∈ h.live → a ∉ chain (h.indexOf hashfn key) → t.next a = h.next a)
    (hchain : chain (h.indexOf hashfn key) = l₁ ++ l₂) (hbefore : ∀ b ∈ l₁, h.key b ≠ key)
    (hlinked : Linked t.next 0 (t.head (h.indexOf hashfn key)) (l₁ ++ addr :: l₂)) :
    Pushed hashfn h m addr key val (t, some addr) := by
  have hi : h.indexOf hashfn key ≤ h.mask := indexOf_le h key
  have hF := hR.formed
  -- `malloc` returns no address in use, so the entries of before keep what they have
  have hold : ∀ a ∈ h.live, t.key a = h.key a ∧ t.val a = h.val a := by
    intro a ha
    have hne := ne_of_live hnew ha
    rw [hA.key, hA.val]
    exact ⟨Function.update_of_ne hne .., Function.update_of_ne hne ..⟩
  have hself : t.key addr = key ∧ t.val addr = val := by
    rw [hA.key, hA.val]
    exact ⟨Function.update_self .., Function.update_self ..⟩
  have hmem : ∀ a ∈ l₁ ++ l₂, a ∈ h.live := fun a ha => hF.live_of_mem hi (by rwa [hchain])
  have hbefore' : ∀ b ∈ l₁, t.key b ≠ key := by
    intro b hb
    rw [(hold b (hmem b (List.mem_append_left _ hb))).1]
    exact hbefore b hb
  have hsplit : ∀ a, a ∈ l₁ ++ addr :: l₂ ↔ a = addr ∨ a ∈ l₁ ++ l₂ := by
    intro a
    simp only [List.mem_append, List.mem_cons]
    tauto
  have hformed : Formed hashfn t
      (Function.update chain (h.indexOf hashfn key) (l₁ ++ addr :: l₂)) := by
    refine hF.replace hi hA.mask hA.length hhead
      (fun a ha hnot => ⟨hnext a ha hnot, (hold a ha).1⟩) hlinked ?_ ?_ ?_ ?_
    · intro a ha
      rcases (hsplit a).1 ha with rfl | ha
      · rw [hself.1]
      · rw [(hold a (hmem a ha)).1]
        exact hF.bucket _ hi a (by rwa [hchain])
    · intro a
      rw [hA.live, List.mem_cons, hsplit, hchain]
      constructor
      · rintro (ha | ha)
        · exact Or.inl (Or.inl ha)
        · by_cases hl : a ∈ l₁ ++ l₂
          · exact Or.inl (Or.inr hl)
          · exact Or.inr ⟨ha, hl⟩
      · rintro ((ha | ha) | ha)
        · exact Or.inl ha
        · exact Or.inr (hmem a ha)
        · exact Or.inr ha.1
    · rw [hA.live]
      exact List.nodup_cons.2 ⟨hnew, hF.nodup⟩
    · intro a ha
      rcases (hsplit a).1 ha with rfl | ha
      · exact hlt
      · exact hF.lt a (hmem a ha)
  have hindex : t.indexOf hashfn key = h.indexOf hashfn key := by rw [indexOf, indexOf, hA.mask]
  refine .pushed l₁ l₂ h0 (hA.extends hnew)
    (hR.replace hformed hA.mask (fun a ha _ => hold a ha) ?_ fun k hk => ?_) ?_ hself.1 hbefore'
  · rw [stackIn_append, stackIn_eq_nil hbefore', List.nil_append, stackIn_cons_self hself.1,
      hself.2, hR.stack_eq, hchain, stackIn_append, stackIn_eq_nil hbefore, List.nil_append,
      stackIn_congr fun b hb => hold b (hmem b (List.mem_append_right _ hb))]
  · rw [hchain, stackIn_append, stackIn_cons_of_ne (by rw [hself.1]; exact hk.symm),
      ← stackIn_append]
    exact stackIn_congr fun a ha => hold a (hmem a ha)
  · rw [hindex, Function.update_self]

theorem Represents.insert_spec (hR : Represents hashfn h chain m) (key : K) (val : V)
    (hmalloc : h.Mallocs addr) : Pushed hashfn h m addr key val (h.insert hashfn addr key val) := by
  by_cases h0 : addr = 0
  · have hinsert : h.insert hashfn addr key val = (h, none) := by
      rw [insert, set]
      simp [h0]
    rw [hinsert]
    exact .threw h0
  obtain ⟨hnew, hlt⟩ := hmalloc.resolve_left h0
  have hi : h.indexOf hashfn key ≤ h.mask := indexOf_le h key
  have hF := hR.formed
  have hset : h.indexOf hashfn key < h.tbl.length := by
    rw [hF.length]
    omega
  obtain ⟨t, ht⟩ : ∃ t, t = ({ h.alloc addr (h.head (h.indexOf hashfn key)) key with
      tbl := h.tbl.set (h.indexOf hashfn key) addr }).setVal addr val := ⟨_, rfl⟩
  have hinsert : h.insert hashfn addr key val = (t, some addr) := by
    rw [ht, insert, set]
    simp [h0]
  have hA : Allocates h t addr key val := by
    rw [ht]
    exact ⟨rfl, List.length_set, rfl, rfl, rfl, rfl, rfl⟩
  have htbl : t.tbl = h.tbl.set (h.indexOf hashfn key) addr := by rw [ht]; rfl
  have hnext : t.next = Function.update h.next addr (h.head (h.indexOf hashfn key)) := by
    rw [ht]
    rfl
  obtain ⟨hhead, hhead'⟩ := head_of_set hset htbl
  rw [hinsert]
  refine hR.linkEntry [] _ h0 hnew hlt hA hhead' (fun a ha _ => ?_) rfl
    (fun b hb => absurd hb List.not_mem_nil) ?_
  · rw [hnext]
    exact Function.update_of_ne (ne_of_live hnew ha) ..
  · rw [hhead, hnext, List.nil_append]
    refine Linked.push ?_ h0
    rw [Function.update_self]
    exact (hF.linked _ hi).update_of_notMem fun hmem => hnew (hF.live_of_mem hi hmem)

theorem Represents.findOrInsert_of_found (hR : Represents hashfn h chain m)
    (hsplit : chain (h.indexOf hashfn key) = l₁ ++ a :: l₂)
    (hget : h.get hashfn key = some ⟨a, p, i⟩) (addr : ℕ) (val : V) :
    h.findOrInsert hashfn addr key val = some (h, some a) := by
  have ha : a ≠ 0 := hR.formed.ne_null
    (hR.formed.live_of_mem (indexOf_le h key) (by rw [hsplit]; simp))
  rw [findOrInsert, setUniq, hget]
  simp [ha]

theorem Represents.findOrInsert_of_absent (hR : Represents hashfn h chain m)
    (habsent : ∀ b ∈ chain (h.indexOf hashfn key), h.key b ≠ key)
    (hget : h.get hashfn key =
      some ⟨0, (chain (h.indexOf hashfn key)).getLast?.getD 0, h.indexOf hashfn key⟩)
    (hmalloc : h.Mallocs addr) (val : V) : ∃ r, h.findOrInsert hashfn addr key val = some r ∧
      Pushed hashfn h m addr key val r := by
  by_cases h0 : addr = 0
  · refine ⟨(h, none), ?_, .threw h0⟩
    rw [findOrInsert, setUniq, hget]
    simp [h0]
  obtain ⟨hnew, hlt⟩ := hmalloc.resolve_left h0
  have hi : h.indexOf hashfn key ≤ h.mask := indexOf_le h key
  have hF := hR.formed
  have hset : h.indexOf hashfn key < h.tbl.length := by
    rw [hF.length]
    omega
  rcases List.eq_nil_or_concat (chain (h.indexOf hashfn key)) with hnil | ⟨l, e, hlast⟩
  · -- the chain is empty, and the entry its head
    obtain ⟨t, ht⟩ : ∃ t, t = ({ h.alloc addr 0 key with
        tbl := h.tbl.set (h.indexOf hashfn key) addr }).setVal addr val := ⟨_, rfl⟩
    have hA : Allocates h t addr key val := by
      rw [ht]
      exact ⟨rfl, List.length_set, rfl, rfl, rfl, rfl, rfl⟩
    have htbl : t.tbl = h.tbl.set (h.indexOf hashfn key) addr := by rw [ht]; rfl
    have hnext : t.next = Function.update h.next addr 0 := by rw [ht]; rfl
    obtain ⟨hhead, hhead'⟩ := head_of_set hset htbl
    refine ⟨(t, some addr), ?_, hR.linkEntry [] [] h0 hnew hlt hA hhead' (fun a ha _ => ?_)
      (by rw [hnil]; rfl) (fun b hb => absurd hb List.not_mem_nil) ?_⟩
    · rw [findOrInsert, setUniq, hget, hnil, ht]
      simp [h0]
      rfl
    · rw [hnext]
      exact Function.update_of_ne (ne_of_live hnew ha) ..
    · rw [hhead, hnext]
      exact ⟨rfl, h0, Function.update_self ..⟩
  · -- the last entry is linked to it
    rw [List.concat_eq_append] at hlast
    have he : e ∈ chain (h.indexOf hashfn key) := by rw [hlast]; simp
    have hlive := hF.live_of_mem hi he
    have he0 : e ≠ 0 := hF.ne_null hlive
    obtain ⟨t, ht⟩ : ∃ t, t = ({ h.alloc addr 0 key with
        next := Function.update (h.alloc addr 0 key).next e addr }).setVal addr val := ⟨_, rfl⟩
    have hA : Allocates h t addr key val := by
      rw [ht]
      exact ⟨rfl, rfl, rfl, rfl, rfl, rfl, rfl⟩
    have hnext : t.next = Function.update (Function.update h.next addr 0) e addr := by rw [ht]; rfl
    have hhead : ∀ j, t.head j = h.head j := fun j => by rw [ht]; rfl
    have hnotMem : addr ∉ chain (h.indexOf hashfn key) := fun hmem =>
      hnew (hF.live_of_mem hi hmem)
    refine ⟨(t, some addr), ?_, hR.linkEntry (l ++ [e]) [] h0 hnew hlt hA (fun j _ => hhead j)
      (fun a ha hnot => ?_) (by rw [hlast, List.append_nil]) ?_ ?_⟩
    · rw [findOrInsert, setUniq, hget, hlast, ht]
      simp [h0, he0]
    · have hae : a ≠ e := fun heq => hnot (heq ▸ he)
      rw [hnext, Function.update_of_ne hae]
      exact Function.update_of_ne (ne_of_live hnew ha) ..
    · rw [← hlast]
      exact habsent
    · rw [hhead, hnext, List.append_assoc]
      have hl := (hF.linked _ hi).update_of_notMem (v := 0) hnotMem
      rw [hlast] at hl hnotMem
      exact hl.snoc hnotMem h0 (Function.update_self ..)

/-! ## Assignment -/

/-- An assignment to the first entry with the key changes the top of its stack. -/
theorem Represents.setVal (hR : Represents hashfn h chain m)
    (hsplit : chain (h.indexOf hashfn key) = l₁ ++ a :: l₂) (hkey : h.key a = key)
    (hbefore : ∀ b ∈ l₁, h.key b ≠ key) (val : V) :
    Represents hashfn (h.setVal a val) chain (Function.update m key (val :: (m key).tail)) := by
  have hF := hR.formed
  have hi : h.indexOf hashfn key ≤ h.mask := indexOf_le h key
  have hself : (h.setVal a val).val a = val := Function.update_self ..
  have hold : ∀ b, b ≠ a → (h.setVal a val).key b = h.key b ∧ (h.setVal a val).val b = h.val b :=
    fun b hb => ⟨rfl, Function.update_of_ne hb ..⟩
  have hnodup := (hF.linked _ hi).nodup
  rw [hsplit, List.nodup_append, List.nodup_cons] at hnodup
  have ha₂ : a ∉ l₂ := hnodup.2.1.1
  have hformed : Formed hashfn (h.setVal a val) chain :=
    ⟨hF.length, hF.linked, hF.bucket, hF.mem_live, hF.nodup, hF.lt⟩
  refine ⟨hformed, fun k => ?_⟩
  show _ = (h.setVal a val).stackIn k (chain (h.indexOf hashfn k))
  by_cases hk : k = key
  · subst hk
    have hbefore' : ∀ b ∈ l₁, (h.setVal a val).key b ≠ k := hbefore
    have hrest : (h.setVal a val).stackIn k l₂ = h.stackIn k l₂ :=
      stackIn_congr fun b hb => hold b fun heq => ha₂ (heq ▸ hb)
    rw [Function.update_self, hR.stack_of_found hsplit hkey hbefore, hsplit, stackIn_append,
      stackIn_eq_nil hbefore', stackIn_cons_self (show (h.setVal a val).key a = k from hkey), hself,
      hrest]
    rfl
  · rw [Function.update_of_ne hk, hR.stack_eq]
    have hfilter : ∀ b ∈ (chain (h.indexOf hashfn k)).filter fun b => h.key b = k, b ≠ a := by
      intro b hb heq
      have hbk : h.key b = k := by simpa using (List.mem_filter.1 hb).2
      exact hk (by rw [← hbk, heq, hkey])
    exact (List.map_congr_left fun b hb => (hold b (hfilter b hb)).2).symm

/-! ## Erasing -/

/-- The entry `a` is freed, but for its place in the chain. -/
structure Frees (h t : ChainHash K V) (a : ℕ) : Prop where
  mask : t.mask = h.mask
  length : t.tbl.length = h.tbl.length
  snap : t.snap = h.snap
  link : t.link = h.link
  key : t.key = h.key
  val : t.val = h.val
  live : t.live = h.live.erase a

/-- **An entry is taken out** of the chain of its key. It was the top of the stack. -/
theorem Represents.unlinkEntry (hR : Represents hashfn h chain m)
    (hsplit : chain (h.indexOf hashfn key) = l₁ ++ a :: l₂) (hkey : h.key a = key)
    (hbefore : ∀ b ∈ l₁, h.key b ≠ key) (hA : Frees h t a)
    (hhead : ∀ j, j ≠ h.indexOf hashfn key → t.head j = h.head j)
    (hnext : ∀ b, b ∈ h.live → b ∉ chain (h.indexOf hashfn key) → t.next b = h.next b)
    (hlinked : Linked t.next 0 (t.head (h.indexOf hashfn key)) (l₁ ++ l₂)) :
    Represents hashfn t (Function.update chain (h.indexOf hashfn key) (l₁ ++ l₂))
      (Function.update m key (m key).tail) := by
  have hF := hR.formed
  have hi : h.indexOf hashfn key ≤ h.mask := indexOf_le h key
  have hmem : ∀ b ∈ l₁ ++ a :: l₂, b ∈ h.live := fun b hb => hF.live_of_mem hi (by rwa [hsplit])
  have hnodup := (hF.linked _ hi).nodup
  rw [hsplit] at hnodup
  have hnot : a ∉ l₁ ++ l₂ := (List.nodup_middle.1 hnodup).notMem
  have hsame : ∀ b, t.key b = h.key b ∧ t.val b = h.val b := fun b => by
    rw [hA.key, hA.val]
    exact ⟨rfl, rfl⟩
  have hback : ∀ b ∈ l₁ ++ l₂, b ∈ l₁ ++ a :: l₂ := fun b hb => by
    rw [List.mem_append] at hb
    rw [List.mem_append, List.mem_cons]
    exact hb.imp_right Or.inr
  have hlive : ∀ b, b ∈ t.live ↔
      b ∈ l₁ ++ l₂ ∨ b ∈ h.live ∧ b ∉ chain (h.indexOf hashfn key) := by
    intro b
    rw [hA.live, hF.nodup.mem_erase_iff, hsplit]
    constructor
    · intro hb
      by_cases hbl : b ∈ l₁ ++ l₂
      · exact Or.inl hbl
      · refine Or.inr ⟨hb.2, fun hin => ?_⟩
        rw [List.mem_append, List.mem_cons] at hin
        rw [List.mem_append] at hbl
        tauto
    · rintro (hb | ⟨hb, hnotMem⟩)
      · exact ⟨fun heq => hnot (heq ▸ hb), hmem b (hback b hb)⟩
      · exact ⟨fun heq => hnotMem (by rw [heq]; simp), hb⟩
  have hformed := hF.replace hi hA.mask hA.length hhead
    (fun b hb hnotMem => ⟨hnext b hb hnotMem, (hsame b).1⟩) hlinked
    (fun b hb => by rw [(hsame b).1]; exact hF.bucket _ hi b (by rw [hsplit]; exact hback b hb))
    hlive (by rw [hA.live]; exact hF.nodup.erase a) fun b hb => hF.lt b (hmem b (hback b hb))
  refine hR.replace hformed hA.mask (fun b _ _ => hsame b) ?_ fun k hk => ?_
  · rw [stackIn_congr fun b _ => hsame b, stackIn_append, stackIn_eq_nil hbefore, List.nil_append,
      hR.stack_of_found hsplit hkey hbefore, List.tail_cons]
  · rw [stackIn_congr fun b _ => hsame b, hsplit, stackIn_append, stackIn_append,
      stackIn_cons_of_ne (by rw [hkey]; exact hk.symm)]

theorem Represents.erase_of_found (hR : Represents hashfn h chain m)
    (hsplit : chain (h.indexOf hashfn key) = l₁ ++ a :: l₂) (hkey : h.key a = key)
    (hbefore : ∀ b ∈ l₁, h.key b ≠ key)
    (hget : h.get hashfn key = some ⟨a, l₁.getLast?.getD 0, h.indexOf hashfn key⟩) :
    ∃ t chain', h.erase hashfn key = some t ∧
      Represents hashfn t chain' (Function.update m key (m key).tail) ∧ Frees h t a := by
  have hF := hR.formed
  have hi : h.indexOf hashfn key ≤ h.mask := indexOf_le h key
  have hl := hF.linked _ hi
  have hmem : ∀ b ∈ l₁ ++ a :: l₂, b ∈ h.live := fun b hb => hF.live_of_mem hi (by rwa [hsplit])
  have ha : a ∈ h.live := hmem a (by simp)
  have ha0 : a ≠ 0 := hF.ne_null ha
  rw [hsplit] at hl
  rcases List.eq_nil_or_concat l₁ with rfl | ⟨l₀, e, rfl⟩
  · -- the bucket gets a new head
    have hset : h.indexOf hashfn key < h.tbl.length := by
      rw [hF.length]
      omega
    obtain ⟨t, ht⟩ : ∃ t : ChainHash K V, t = { h with
        tbl := h.tbl.set (h.indexOf hashfn key) (h.next a)
        live := h.live.erase a } := ⟨_, rfl⟩
    have hA : Frees h t a := by
      rw [ht]
      exact ⟨rfl, List.length_set, rfl, rfl, rfl, rfl, rfl⟩
    obtain ⟨hhead, hhead'⟩ := head_of_set (t := t) (h := h) hset (by rw [ht])
    refine ⟨t, _, ?_, hR.unlinkEntry hsplit hkey hbefore hA hhead' (fun b _ _ => by rw [ht]) ?_, hA⟩
    · rw [erase, hget, Option.bind_some, del, ht]
      simp [ha0, ha]
    · have hnext : t.next = h.next := by rw [ht]
      rw [hhead, hnext]
      exact hl.tail
  · -- the entry before it gets a new `next`
    rw [List.concat_eq_append] at *
    have he : e ∈ h.live := hmem e (by simp)
    have he0 : e ≠ 0 := hF.ne_null he
    obtain ⟨t, ht⟩ : ∃ t : ChainHash K V, t = { h with
        next := Function.update h.next e (h.next a)
        live := h.live.erase a } := ⟨_, rfl⟩
    have hA : Frees h t a := by
      rw [ht]
      exact ⟨rfl, rfl, rfl, rfl, rfl, rfl, rfl⟩
    refine ⟨t, _, ?_, hR.unlinkEntry hsplit hkey hbefore hA (fun j _ => by rw [ht]; rfl)
      (fun b _ hnotMem => ?_) ?_, hA⟩
    · rw [erase, hget, Option.bind_some, del, ht]
      simp [ha0, ha, he, he0]
    · have hbe : b ≠ e := fun heq => hnotMem (by rw [heq, hsplit]; simp)
      rw [ht]
      exact Function.update_of_ne hbe ..
    · have hnext : t.next = Function.update h.next e (h.next a) := by rw [ht]
      have hhead : t.head = h.head := by rw [ht]; rfl
      rw [hhead, hnext, List.append_assoc]
      rw [List.append_assoc] at hl
      exact hl.unlink

/-! ## Clearing -/

omit [LinearOrder K] in
theorem freeLoop_spec (hl : Linked h.next 0 e l) (hsub : ∀ a ∈ l, a ∈ live) (hnodup : live.Nodup)
    (hfuel : l.length < fuel) : ∃ live', h.freeLoop fuel e live = some live' ∧ live'.Nodup ∧
      ∀ a, a ∈ live' ↔ a ∈ live ∧ a ∉ l := by
  induction l generalizing e live fuel with
  | nil =>
    obtain ⟨fuel, rfl⟩ : ∃ k, fuel = k + 1 := ⟨fuel - 1, by omega⟩
    have he : e = 0 := hl
    exact ⟨live, by rw [freeLoop, if_pos he], hnodup, fun a => by simp⟩
  | cons b l ih =>
    obtain ⟨fuel, rfl⟩ : ∃ k, fuel = k + 1 := ⟨fuel - 1, by omega⟩
    have hnot := (List.nodup_cons.1 hl.nodup).1
    obtain ⟨rfl, he, hl⟩ := hl
    have hrest : ∀ a ∈ l, a ∈ live.erase e := by
      intro a ha
      have hae : a ≠ e := fun heq => hnot (heq ▸ ha)
      exact hnodup.mem_erase_iff.2 ⟨hae, hsub a (List.mem_cons_of_mem _ ha)⟩
    obtain ⟨live', hfree, hnodup', hmem⟩ := ih hl hrest (hnodup.erase e) (by simpa using hfuel)
    refine ⟨live', ?_, hnodup', fun a => ?_⟩
    · rw [freeLoop, if_neg he, if_neg (not_not.2 (hsub e List.mem_cons_self)), hfree]
    · rw [hmem, hnodup.mem_erase_iff, List.mem_cons]
      tauto

omit [LinearOrder K] in
theorem Formed.free_spec (hF : Formed hashfn h chain) (is : List ℕ) (his : ∀ i ∈ is, i ≤ h.mask)
    (hapart : is.Nodup) (hsub : ∀ i ∈ is, ∀ a ∈ chain i, a ∈ live) (hnodup : live.Nodup) :
    ∃ live', (is.map h.head).foldlM (fun live e => h.freeLoop h.turns e live) live = some live' ∧
      ∀ a, a ∈ live' ↔ a ∈ live ∧ ∀ i ∈ is, a ∉ chain i := by
  induction is generalizing live with
  | nil => exact ⟨live, rfl, fun a => by simp⟩
  | cons i is ih =>
    rw [List.nodup_cons] at hapart
    have hi := his i List.mem_cons_self
    obtain ⟨live₁, hfree, hnodup₁, hmem₁⟩ := freeLoop_spec (hF.linked i hi)
      (hsub i List.mem_cons_self) hnodup (hF.length_chain_lt hi)
    have hsub₁ : ∀ j ∈ is, ∀ a ∈ chain j, a ∈ live₁ := by
      intro j hj a ha
      refine (hmem₁ a).2 ⟨hsub j (List.mem_cons_of_mem _ hj) a ha, fun ha' => hapart.1 ?_⟩
      rwa [hF.index_eq hi (his j (List.mem_cons_of_mem _ hj)) ha' ha]
    obtain ⟨live', hfold, hmem⟩ := ih (fun j hj => his j (List.mem_cons_of_mem _ hj)) hapart.2 hsub₁
      hnodup₁
    refine ⟨live', ?_, fun a => ?_⟩
    · rw [List.map_cons, List.foldlM_cons, hfree]
      exact hfold
    · rw [hmem, hmem₁, List.forall_mem_cons, and_assoc]

omit [LinearOrder K] in
theorem Formed.tbl_eq (hF : Formed hashfn h chain) :
    h.tbl = (List.range (h.mask + 1)).map h.head := by
  refine List.ext_getElem (by simp [hF.length]) fun i hi hi' => ?_
  rw [List.getElem_map, List.getElem_range, head, List.getD_eq_getElem _ _ hi]

theorem represents_of_empty (hlength : h.tbl.length = h.mask + 1) (hhead : ∀ i, h.head i = 0)
    (hlive : h.live = []) : Represents hashfn h (fun _ => []) fun _ => [] := by
  refine ⟨⟨hlength, fun i _ => hhead i, fun i _ a ha => absurd ha List.not_mem_nil, fun a => ?_, ?_,
    fun a ha => ?_⟩, fun key => rfl⟩
  · simp [hlive]
  · rw [hlive]
    exact List.nodup_nil
  · rw [hlive] at ha
    exact absurd ha List.not_mem_nil

theorem Represents.clear_spec (hR : Represents hashfn h chain m) :
    ∃ t, h.clear = some t ∧ Represents hashfn t (fun _ => []) (fun _ => []) ∧ t.live = [] ∧
      t.snap = 0 ∧ t.mask = h.mask := by
  have hF := hR.formed
  obtain ⟨live, hfold, hmem⟩ := hF.free_spec (List.range (h.mask + 1))
    (fun i hi => by rw [List.mem_range] at hi; omega) List.nodup_range
    (fun i hi a ha => hF.live_of_mem (by rw [List.mem_range] at hi; omega) ha) hF.nodup
  have hnil : live = [] := by
    refine List.eq_nil_iff_forall_not_mem.2 fun a ha => ?_
    obtain ⟨ha, hnone⟩ := (hmem a).1 ha
    obtain ⟨i, hi, hin⟩ := (hF.mem_live a).1 ha
    exact hnone i (List.mem_range.2 (by omega)) hin
  rw [← hF.tbl_eq] at hfold
  refine ⟨{ h with snap := 0, tbl := h.tbl.map fun _ => 0, live }, ?_,
    represents_of_empty ?_ (fun i => ?_) hnil, hnil, rfl, rfl⟩
  · rw [clear, hfold]
    rfl
  · show (h.tbl.map fun _ => 0).length = _
    rw [List.length_map, hF.length]
  · show (h.tbl.map fun _ => 0).getD i 0 = 0
    rw [List.getD_eq_getElem?_getD, List.getElem?_map]
    cases h.tbl[i]? <;> rfl

/-! ## Construction -/

/-- At most `2 ^ 63` chains can be asked for. -/
theorem maskOf_lt {min : ℕ} (hmin : 0 < min) (hle : min ≤ 2 ^ 63) : maskOf min < 2 ^ 63 := by
  have hor : ∀ {x : ℕ} (n : ℕ), x < 2 ^ 63 → x ||| x >>> n < 2 ^ 63 := fun {x} n hx =>
    Nat.or_lt_two_pow hx ((Nat.shiftRight_le x n).trans_lt hx)
  have hfirst : (min + (2 ^ 64 - 1)) % 2 ^ 64 < 2 ^ 63 := by omega
  exact hor 32 (hor 16 (hor 8 (hor 4 (hor 2 (hor 1 hfirst)))))

theorem represents_construct [Inhabited K] [Inhabited V] (hashfn : K → ℕ) {min : ℕ}
    (hmin : 0 < min) (hle : min ≤ 2 ^ 63) :
    Represents hashfn (construct K V min) (fun _ => []) fun _ => [] := by
  have hmask := maskOf_lt hmin hle
  refine represents_of_empty ?_ (fun i => ?_) rfl
  · show (List.replicate ((maskOf min + 1) % 2 ^ 64) 0).length = maskOf min + 1
    rw [List.length_replicate, Nat.mod_eq_of_lt (by omega)]
  · show (List.replicate ((maskOf min + 1) % 2 ^ 64) 0).getD i 0 = 0
    rw [List.getD_eq_getElem?_getD, List.getElem?_replicate]
    split_ifs <;> rfl

end ChainHash

end Naesala
