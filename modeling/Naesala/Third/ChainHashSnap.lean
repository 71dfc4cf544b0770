import Naesala.Third.ChainHashProof

/-!
# Walks through a `chain_hash_map`

Iteration without a snapshot and `snap` go the same way: along a chain, and on to the next bucket
that has one. `Walk` says what is left of that way. Iteration with a snapshot goes along its list.

`visit_of_walk` and `visit_of_linked` are the two iterations; `snapshot_spec` is `snap`, which links
all entries in the order of the buckets.
-/

namespace Naesala

namespace ChainHash

variable {K V : Type} {hashfn : K → ℕ} {h t : ChainHash K V}
variable {chain : ℕ → List ℕ} {l : List ℕ} {link : ℕ → ℕ} {a e p i j n fuel : ℕ}

/-! ## The way through the buckets -/

/-- The entries of `n` buckets from `i` on. -/
def entriesFrom (chain : ℕ → List ℕ) (i n : ℕ) : List ℕ := (List.range' i n).flatMap chain

/-- From entry `e` in bucket `i` on, the entries `l` are left. -/
structure Walk (h : ChainHash K V) (chain : ℕ → List ℕ) (i e : ℕ) (l : List ℕ) : Prop where
  le : i ≤ h.mask
  split : ∃ c, Linked h.next 0 e c ∧ l = c ++ entriesFrom chain (i + 1) (h.mask - i)
  stop : e = 0 → l = []

theorem Walk.eq_zero (hw : Walk h chain i e []) : e = 0 := by
  obtain ⟨c, hl, hsplit⟩ := hw.split
  rw [(List.append_eq_nil_iff.1 hsplit.symm).1] at hl
  exact hl

theorem entriesFrom_succ (chain : ℕ → List ℕ) (i n : ℕ) :
    entriesFrom chain i (n + 1) = chain i ++ entriesFrom chain (i + 1) n := by
  rw [entriesFrom, List.range'_succ, List.flatMap_cons]
  rfl

theorem mem_entriesFrom : a ∈ entriesFrom chain i n ↔ ∃ j, i ≤ j ∧ j < i + n ∧ a ∈ chain j := by
  simp only [entriesFrom, List.mem_flatMap, List.mem_range'_1, and_assoc]

theorem Formed.head_eq_zero_iff (hF : Formed hashfn h chain) (hi : i ≤ h.mask) :
    h.head i = 0 ↔ chain i = [] := by
  have hl := hF.linked i hi
  constructor
  · intro hz
    exact (hz ▸ hl : Linked h.next 0 0 (chain i)).unique rfl
  · intro hnil
    rw [hnil] at hl
    exact hl

/-- **The search for the next chain.** -/
theorem Formed.skip_spec (hF : Formed hashfn h chain) (hn : i + n = h.mask + 1) :
    h.skip n i ≤ h.mask ∧ h.head (h.skip n i) ≠ 0 ∧
      Walk h chain (h.skip n i) (h.head (h.skip n i)) (entriesFrom chain i n) ∨
    h.mask < h.skip n i ∧ entriesFrom chain i n = [] := by
  induction n generalizing i with
  | zero => exact Or.inr ⟨by rw [skip]; omega, rfl⟩
  | succ n ih =>
    have hi : i ≤ h.mask := by omega
    rw [skip, entriesFrom_succ]
    by_cases hhead : h.head i = 0
    · rw [if_neg (not_not.2 hhead), (hF.head_eq_zero_iff hi).1 hhead, List.nil_append]
      exact ih (by omega)
    · rw [if_pos hhead]
      have hsplit : chain i ++ entriesFrom chain (i + 1) n =
          chain i ++ entriesFrom chain (i + 1) (h.mask - i) := by
        rw [show h.mask - i = n by omega]
      exact Or.inl ⟨hi, hhead, hi, ⟨chain i, hF.linked i hi, hsplit⟩, fun hz => absurd hz hhead⟩

/-- **One step of the way.** -/
theorem Formed.walk_next (hF : Formed hashfn h chain) (hw : Walk h chain i e (a :: l)) :
    e = a ∧ (h.next a ≠ 0 ∧ Walk h chain i (h.next a) l ∨
      h.next a = 0 ∧
        (i < h.mask ∧ h.skip (h.mask - i) (i + 1) ≤ h.mask ∧
          h.head (h.skip (h.mask - i) (i + 1)) ≠ 0 ∧
          Walk h chain (h.skip (h.mask - i) (i + 1)) (h.head (h.skip (h.mask - i) (i + 1))) l ∨
        ¬(i < h.mask ∧ h.skip (h.mask - i) (i + 1) ≤ h.mask) ∧ l = [])) := by
  obtain ⟨c, hl, hsplit⟩ := hw.split
  cases c with
  | nil => exact absurd (hw.stop hl) (List.cons_ne_nil a l)
  | cons b c =>
    obtain ⟨rfl, he, hl⟩ := hl
    obtain ⟨rfl, hrest⟩ : a = e ∧ l = c ++ entriesFrom chain (i + 1) (h.mask - i) :=
      List.cons_eq_cons.1 hsplit
    refine ⟨rfl, ?_⟩
    by_cases hnext : h.next a = 0
    · -- the chain ends here
      rw [hnext] at hl
      have hc : c = [] := hl.unique (Linked.nil_iff.2 rfl)
      rw [hc, List.nil_append] at hrest
      refine Or.inr ⟨hnext, ?_⟩
      rcases hF.skip_spec (i := i + 1) (n := h.mask - i) (by have := hw.le; omega) with
        ⟨hle, hhead, hwalk⟩ | ⟨hlt, hnil⟩
      · rw [hrest]
        by_cases hi : i < h.mask
        · exact Or.inl ⟨hi, hle, hhead, hwalk⟩
        · have hzero : h.mask - i = 0 := by omega
          rw [hzero, skip] at hle
          omega
      · exact Or.inr ⟨by omega, by rw [hrest, hnil]⟩
    · exact Or.inl ⟨hnext, hw.le, ⟨c, hl, hrest⟩, fun hz => absurd hz hnext⟩

theorem Formed.first_spec (hF : Formed hashfn h chain) :
    h.skip (h.mask + 1) 0 ≤ h.mask ∧ h.head (h.skip (h.mask + 1) 0) ≠ 0 ∧
      Walk h chain (h.skip (h.mask + 1) 0) (h.head (h.skip (h.mask + 1) 0))
        (entriesFrom chain 0 (h.mask + 1)) ∨
    h.mask < h.skip (h.mask + 1) 0 ∧ entriesFrom chain 0 (h.mask + 1) = [] :=
  hF.skip_spec (Nat.zero_add _)

theorem Formed.mem_entries (hF : Formed hashfn h chain) :
    a ∈ entriesFrom chain 0 (h.mask + 1) ↔ a ∈ h.live := by
  rw [mem_entriesFrom, hF.mem_live]
  constructor
  · intro hex
    obtain ⟨j, -, hj, ha⟩ := hex
    exact ⟨j, by omega, ha⟩
  · intro hex
    obtain ⟨j, hj, ha⟩ := hex
    exact ⟨j, Nat.zero_le j, by omega, ha⟩

theorem Formed.nodup_entries (hF : Formed hashfn h chain) :
    (entriesFrom chain 0 (h.mask + 1)).Nodup := by
  refine List.nodup_flatMap.2 ⟨fun i hi => ?_, ?_⟩
  · rw [List.mem_range'_1] at hi
    exact (hF.linked i (by omega)).nodup
  · refine List.pairwise_iff_getElem.2 fun j k hj hk hjk => ?_
    rw [List.length_range'] at hj hk
    rw [List.getElem_range', List.getElem_range']
    intro a ha ha'
    have heq := hF.index_eq (by omega) (by omega) ha ha'
    omega

theorem Formed.length_entries_lt (hF : Formed hashfn h chain) :
    (entriesFrom chain 0 (h.mask + 1)).length < h.turns := by
  have hsub : (entriesFrom chain 0 (h.mask + 1)).Subperm h.live :=
    List.subperm_of_subset hF.nodup_entries fun _ ha => hF.mem_entries.1 ha
  have hle := hsub.length_le
  rw [turns]
  omega

/-! ## Iteration -/

section

variable [DecidableEq K]

/-- **Iteration without a snapshot.** -/
theorem Formed.visit_of_walk (hF : Formed hashfn h chain) (hsnap : h.snap = 0)
    (hw : Walk h chain i e l) (hlive : ∀ a ∈ l, a ∈ h.live) (hfuel : l.length < fuel) (p : ℕ) :
    h.visit hashfn fuel ⟨e, p, i⟩ = some l := by
  induction l generalizing e p i fuel with
  | nil =>
    obtain ⟨fuel, rfl⟩ : ∃ k, fuel = k + 1 := ⟨fuel - 1, by omega⟩
    rw [visit, if_pos hw.eq_zero]
  | cons a l ih =>
    obtain ⟨fuel, rfl⟩ : ∃ k, fuel = k + 1 := ⟨fuel - 1, by omega⟩
    have hfuel' : l.length < fuel := by simpa using hfuel
    obtain ⟨rfl, hnext⟩ := hF.walk_next hw
    have he : e ∈ h.live := hlive e List.mem_cons_self
    have he0 : e ≠ 0 := hF.ne_null he
    have hrest : ∀ a ∈ l, a ∈ h.live := fun a ha => hlive a (List.mem_cons_of_mem _ ha)
    rw [visit, if_neg he0, increment, advance, if_neg he0, if_neg (not_not.2 he),
      if_neg (not_not.2 hsnap)]
    rcases hnext with ⟨hne, hwalk⟩ | ⟨hz, ⟨hlt, hle, -, hwalk⟩ | ⟨hend, rfl⟩⟩
    · rw [if_pos hne]
      simp [ih hwalk hrest hfuel']
    · rw [if_neg (not_not.2 hz), if_pos hlt]
      simp [hle, ih hwalk hrest hfuel']
    · have hvisit : h.visit hashfn fuel ⟨0, p, i⟩ = some [] := by
        obtain ⟨fuel, rfl⟩ : ∃ k, fuel = k + 1 := ⟨fuel - 1, by simp at hfuel'; omega⟩
        rfl
      rw [if_neg (not_not.2 hz)]
      by_cases hlt : i < h.mask
      · rw [if_pos hlt, if_neg fun hle => hend ⟨hlt, hle⟩]
        simp [hvisit]
      · rw [if_neg hlt]
        simp [hvisit]

theorem Formed.traverse_of_no_snapshot (hF : Formed hashfn h chain) (hsnap : h.snap = 0) :
    h.traverse hashfn = some (entriesFrom chain 0 (h.mask + 1)) := by
  rw [traverse, iterator, if_neg (not_not.2 hsnap), Option.bind_some]
  rcases hF.first_spec with ⟨hle, -, hwalk⟩ | ⟨hlt, hnil⟩
  · rw [if_pos hle]
    exact hF.visit_of_walk hsnap hwalk (fun a ha => hF.mem_entries.1 ha) hF.length_entries_lt 0
  · rw [if_neg (by omega), hnil]
    rfl

/-- The entry before the first one with the key of an entry. -/
theorem parentLoop_isSome (hl : Linked h.next 0 e l) (hlive : ∀ b ∈ l, b ∈ h.live) (ha : a ∈ l)
    (hfuel : l.length < fuel) (p : ℕ) : (h.parentLoop (h.key a) fuel p e).isSome := by
  induction l generalizing e p fuel with
  | nil => exact absurd ha List.not_mem_nil
  | cons b l ih =>
    obtain ⟨fuel, rfl⟩ : ∃ k, fuel = k + 1 := ⟨fuel - 1, by omega⟩
    rw [List.length_cons] at hfuel
    obtain ⟨rfl, he, hl⟩ := hl
    rw [parentLoop, if_neg (not_not.2 (hlive e List.mem_cons_self))]
    by_cases hkey : h.key a = h.key e
    · rw [if_pos hkey]
      rfl
    · rw [if_neg hkey]
      have hal : a ∈ l := (List.mem_cons.1 ha).resolve_left fun heq => hkey (by rw [heq])
      exact ih hl (fun b hb => hlive b (List.mem_cons_of_mem _ hb)) hal (by omega) e

theorem Formed.itrAt_spec (hF : Formed hashfn h chain) (he : e ∈ h.live) :
    ∃ p i, h.itrAt hashfn e = some ⟨e, p, i⟩ := by
  obtain ⟨i, hi, hmem⟩ := (hF.mem_live e).1 he
  have hsome := parentLoop_isSome (hF.linked i hi) (fun b hb => hF.live_of_mem hi hb) hmem
    (hF.length_chain_lt hi) 0
  obtain ⟨p, hp⟩ := Option.isSome_iff_exists.1 hsome
  refine ⟨p, i, ?_⟩
  rw [itrAt, if_neg (not_not.2 he)]
  simp [hF.bucket i hi e hmem, hp]

/-- **Iteration with a snapshot.** -/
theorem Formed.visit_of_linked (hF : Formed hashfn h chain) (hsnap : h.snap ≠ 0)
    (hl : Linked h.link 0 e l) (hlive : ∀ a ∈ l, a ∈ h.live) (hfuel : l.length < fuel) (p i : ℕ) :
    h.visit hashfn fuel ⟨e, p, i⟩ = some l := by
  induction l generalizing e p i fuel with
  | nil =>
    obtain ⟨fuel, rfl⟩ : ∃ k, fuel = k + 1 := ⟨fuel - 1, by omega⟩
    have he : e = 0 := hl
    rw [visit, if_pos he]
  | cons a l ih =>
    obtain ⟨fuel, rfl⟩ : ∃ k, fuel = k + 1 := ⟨fuel - 1, by omega⟩
    have hfuel' : l.length < fuel := by simpa using hfuel
    obtain ⟨rfl, he, hl⟩ := hl
    have helive : e ∈ h.live := hlive e List.mem_cons_self
    have hrest : ∀ a ∈ l, a ∈ h.live := fun a ha => hlive a (List.mem_cons_of_mem _ ha)
    rw [visit, if_neg he, increment, advance, if_neg he, if_neg (not_not.2 helive), if_pos hsnap]
    by_cases hlink : h.link e = 0
    · rw [hlink] at hl
      have hvisit := ih hl hrest hfuel' p i
      rw [if_pos hlink]
      simp [hvisit]
    · obtain ⟨r, rfl, -⟩ := hl.exists_cons hlink
      obtain ⟨p', i', hitr⟩ := hF.itrAt_spec (hrest (h.link e) List.mem_cons_self)
      rw [if_neg hlink, hitr]
      simp [ih hl hrest hfuel']

theorem Formed.traverse_of_snapshot (hF : Formed hashfn h chain) (hsnap : h.snap ≠ 0)
    (hl : Linked h.link 0 h.snap l) (hlive : ∀ a ∈ l, a ∈ h.live) :
    h.traverse hashfn = some l := by
  obtain ⟨r, rfl, -⟩ := hl.exists_cons hsnap
  obtain ⟨p, i, hitr⟩ := hF.itrAt_spec (hlive h.snap List.mem_cons_self)
  have hsub : (h.snap :: r).Subperm h.live := List.subperm_of_subset hl.nodup hlive
  have hfuel := hsub.length_le
  rw [traverse, iterator, if_pos hsnap, hitr, Option.bind_some]
  exact hF.visit_of_linked hsnap hl hlive (by rw [turns]; omega) p i

end

/-! ## Taking a snapshot -/

/-- The loop of `snap` links the entries that are left of its way, and the one before them. -/
theorem Formed.snapLoop_spec (hF : Formed hashfn h chain) (hw : Walk h chain i e (e :: l))
    (hlive : ∀ a ∈ e :: l, a ∈ h.live) (hnodup : (e :: l).Nodup) (hfuel : l.length < fuel)
    (link : ℕ → ℕ) (last : ℕ) :
    ∃ link', h.snapLoop fuel link last e i = some link' ∧ Linked link' 0 e (e :: l) ∧
      (last ∉ e :: l → link' last = e) ∧ ∀ a, a ≠ last → a ∉ e :: l → link' a = link a := by
  induction l generalizing e i link last fuel with
  | nil =>
    obtain ⟨fuel, rfl⟩ : ∃ k, fuel = k + 1 := ⟨fuel - 1, by omega⟩
    have he : e ∈ h.live := hlive e List.mem_cons_self
    refine ⟨Function.update (Function.update link last e) e 0, ?_, ?_, fun hlast => ?_,
      fun a hal hae => ?_⟩
    · -- nothing is left of the way, so no entry is behind `e`, in its chain or after
      rcases (hF.walk_next hw).2 with ⟨hne, hwalk⟩ | ⟨hz, ⟨-, -, hhead, hwalk⟩ | ⟨hend, -⟩⟩
      · exact absurd hwalk.eq_zero hne
      · exact absurd hwalk.eq_zero hhead
      · rw [snapLoop, if_neg (not_not.2 he)]
        simp only
        rw [if_neg (not_not.2 hz), if_neg hend]
    · exact ⟨rfl, hF.ne_null he, Function.update_self ..⟩
    · rw [Function.update_of_ne fun heq => hlast (by rw [heq]; exact List.mem_cons_self),
        Function.update_self]
    · rw [Function.update_of_ne fun heq => hae (by rw [heq]; exact List.mem_cons_self),
        Function.update_of_ne hal]
  | cons b l ih =>
    obtain ⟨fuel, rfl⟩ : ∃ k, fuel = k + 1 := ⟨fuel - 1, by omega⟩
    have he : e ∈ h.live := hlive e List.mem_cons_self
    have hrest : ∀ a ∈ b :: l, a ∈ h.live := fun a ha => hlive a (List.mem_cons_of_mem _ ha)
    obtain ⟨hnot, hnodup'⟩ := List.nodup_cons.1 hnodup
    have hfuel' : l.length < fuel := by simpa using hfuel
    -- the way goes on to `b` in some bucket
    obtain ⟨j, hwalk, hloop⟩ : ∃ j, Walk h chain j b (b :: l) ∧
        h.snapLoop (fuel + 1) link last e i =
          h.snapLoop fuel (Function.update link last e) e b j := by
      rcases (hF.walk_next hw).2 with ⟨hne, hwalk⟩ | ⟨hz, ⟨hlt, hle, -, hwalk⟩ | ⟨-, hnil⟩⟩
      · have hb := (hF.walk_next hwalk).1
        rw [hb] at hwalk
        refine ⟨i, hwalk, ?_⟩
        rw [snapLoop, if_neg (not_not.2 he)]
        simp only
        rw [if_pos hne, hb]
      · have hb := (hF.walk_next hwalk).1
        rw [hb] at hwalk
        refine ⟨_, hwalk, ?_⟩
        rw [snapLoop, if_neg (not_not.2 he)]
        simp only
        rw [if_neg (not_not.2 hz), if_pos ⟨hlt, hle⟩, hb]
      · exact absurd hnil (List.cons_ne_nil b l)
    obtain ⟨link', hsome, hlinked, hbefore, hframe⟩ :=
      ih hwalk hrest hnodup' hfuel' (Function.update link last e) e
    refine ⟨link', hloop.trans hsome, ⟨rfl, hF.ne_null he, ?_⟩, fun hlast => ?_,
      fun a hal hae => ?_⟩
    · rw [hbefore hnot]
      exact hlinked
    · have hle : last ≠ e := fun heq => hlast (by rw [heq]; exact List.mem_cons_self)
      rw [hframe last hle fun hmem => hlast (List.mem_cons_of_mem _ hmem), Function.update_self]
    · have hae' : a ≠ e := fun heq => hae (by rw [heq]; exact List.mem_cons_self)
      rw [hframe a hae' fun hmem => hae (List.mem_cons_of_mem _ hmem), Function.update_of_ne hal]

/-- **`snap`** links all entries in the order of the buckets, if there are any. -/
theorem Formed.snapshot_spec (hF : Formed hashfn h chain) :
    ∃ s link, h.snapshot = some { h with snap := s, link } ∧
      (entriesFrom chain 0 (h.mask + 1) = [] → s = h.snap ∧ link = h.link) ∧
      (entriesFrom chain 0 (h.mask + 1) ≠ [] →
        s ≠ 0 ∧ Linked link 0 s (entriesFrom chain 0 (h.mask + 1))) := by
  rcases hF.first_spec with ⟨hle, hhead, hwalk⟩ | ⟨hlt, hnil⟩
  · have hmem := fun a => (hF.mem_entries (a := a)).1
    have hnodup := hF.nodup_entries
    have hfuel := hF.length_entries_lt
    revert hwalk hmem hnodup hfuel
    cases entriesFrom chain 0 (h.mask + 1) with
    | nil => exact fun hwalk => absurd hwalk.eq_zero hhead
    | cons a l =>
      intro hwalk hmem hnodup hfuel
      have ha := (hF.walk_next hwalk).1
      rw [ha] at hwalk
      have hfuel' : l.length < h.turns := by
        rw [List.length_cons] at hfuel
        omega
      obtain ⟨link', hsome, hlinked, -, -⟩ := hF.snapLoop_spec hwalk hmem hnodup hfuel' h.link a
      refine ⟨a, link', ?_, fun hnil => absurd hnil (List.cons_ne_nil a l),
        fun _ => ⟨by rwa [← ha], hlinked⟩⟩
      rw [snapshot, if_pos hle, ha, hsome]
      rfl
  · refine ⟨h.snap, h.link, ?_, fun _ => ⟨rfl, rfl⟩, fun hne => absurd hnil hne⟩
    rw [snapshot, if_neg (by omega)]

end ChainHash

end Naesala
