import Naesala.Library.BottomUp
import Naesala.Third.ChainHashProof

/-!
# `sort` of a `chain_hash_map`

The snapshot is sorted from the bottom up, by changing links. `part` is an array of lists, and each
of them is a run of `BottomUp`; the loops do to the runs what `BottomUp.carryAll` and
`BottomUp.collect` do, and each merge changes the links of the entries it merges only.

**Theorem (`Formed.sort_spec`).** `sort` makes the snapshot `l` the snapshot `l.mergeSort`: it is
the stable sort by keys, for any number of entries that memory can hold.
-/

namespace Naesala

namespace ChainHash

variable {K V : Type} [LinearOrder K] {hashfn : K → ℕ} {h : ChainHash K V}
variable {chain : ℕ → List ℕ} {l xs ys done part cur : List ℕ} {ps ps' : List (List ℕ)}
variable {link link' : ℕ → ℕ} {a b c e q lev maxLev fuel : ℕ} {head tail : ℕ}

/-! ## Merging -/

omit [LinearOrder K] in
/-- The entries `done` are attached to one another, from `head` to `tail`. -/
def Attached (link : ℕ → ℕ) (head tail : ℕ) (done : List ℕ) : Prop :=
  tail = 0 ∧ done = [] ∨ tail ≠ 0 ∧ ∃ l, done = l ++ [tail] ∧ Linked link tail head l

theorem Attached.tail_mem (ha : Attached link head tail done) : tail = 0 ∨ tail ∈ done := by
  rcases ha with ⟨h0, -⟩ | ⟨-, l, rfl, -⟩
  · exact Or.inl h0
  · exact Or.inr (by simp)

/-- What `attach` changes. -/
theorem attach_of_ne (ha : Attached link head tail done) (hc : c ∉ done) (e : ℕ) :
    (attach link head tail e).1 c = link c := by
  rw [attach]
  split_ifs with h0
  · rfl
  · have hne : c ≠ tail := fun heq => hc (heq ▸ ha.tail_mem.resolve_left h0)
    exact Function.update_of_ne hne ..

theorem Attached.attach (ha : Attached link head tail done) (he : e ≠ 0) (hnot : e ∉ done) :
    Attached (attach link head tail e).1 (attach link head tail e).2 e (done ++ [e]) := by
  refine Or.inr ⟨he, done, rfl, ?_⟩
  rcases ha with ⟨h0, rfl⟩ | ⟨h0, l, rfl, hl⟩
  · rw [ChainHash.attach, if_pos h0]
    rfl
  · rw [ChainHash.attach, if_neg h0]
    have hte : tail ≠ e := fun heq => hnot (by rw [heq]; simp)
    have htail : tail ∉ l := fun hmem => hl.ne_null hmem rfl
    exact (hl.update_of_notMem htail).extend (Function.update_self ..) hte
      fun hmem => hnot (List.mem_append_left _ hmem)

theorem Attached.finish (ha : Attached link head tail done) (hl : Linked link 0 q l)
    (hnull : ∀ c ∈ done, c ≠ 0) (hapart : ∀ c ∈ l, c ∉ done) :
    Linked (ChainHash.attach link head tail q).1 0 (ChainHash.attach link head tail q).2
      (done ++ l) := by
  rcases ha with ⟨h0, rfl⟩ | ⟨h0, l', rfl, hl'⟩
  · rw [ChainHash.attach, if_pos h0]
    exact hl
  · rw [ChainHash.attach, if_neg h0]
    have htail : tail ∉ l' := fun hmem => hl'.ne_null hmem rfl
    have hrest : Linked (Function.update link tail q) 0 tail (tail :: l) := by
      refine ⟨rfl, h0, ?_⟩
      rw [Function.update_self]
      exact hl.update_of_notMem fun hmem => hapart tail hmem (by simp)
    rw [List.append_assoc]
    exact (hl'.update_of_notMem htail).join hrest fun c hc => hnull c (List.mem_append_left _ hc)

theorem Attached.take (ha : Attached link head tail done) (hxs : Linked link 0 e (e :: xs))
    (hys : Linked link 0 q ys) (hapart : ∀ c ∈ e :: xs ++ ys, c ∉ done) :
    Attached (ChainHash.attach link head tail e).1 (ChainHash.attach link head tail e).2 e
        (done ++ [e]) ∧
      Linked (ChainHash.attach link head tail e).1 0 ((ChainHash.attach link head tail e).1 e) xs ∧
      Linked (ChainHash.attach link head tail e).1 0 q ys := by
  have hframe : ∀ c ∈ e :: xs ++ ys, (ChainHash.attach link head tail e).1 c = link c :=
    fun c hc => attach_of_ne ha (hapart c hc) e
  refine ⟨ha.attach hxs.2.1 (hapart e (by simp)), ?_, ?_⟩
  · rw [hframe e (by simp)]
    exact hxs.tail.congr fun c hc => hframe c (by simp [hc])
  · exact hys.congr fun c hc => hframe c (List.mem_append_right _ hc)

/-- **The loop of `__chainhash_merge`.** -/
theorem mergeLoop_spec (ha : Attached link head tail done) (hxs : Linked link 0 a xs)
    (hys : Linked link 0 b ys) (hnodup : (done ++ (xs ++ ys)).Nodup) (hnull : ∀ c ∈ done, c ≠ 0)
    (hlive : ∀ c ∈ xs ++ ys, c ∈ h.live) (hfuel : xs.length + ys.length < fuel) :
    ∃ r, h.mergeLoop fuel link head tail a b = some r ∧
      Linked r.1 0 r.2 (done ++ List.merge xs ys h.le) ∧
      ∀ c, c ∉ done ++ (xs ++ ys) → r.1 c = link c := by
  induction fuel generalizing link head tail done a b xs ys with
  | zero => omega
  | succ fuel ih =>
    have hapart : ∀ c ∈ xs ++ ys, c ∉ done := fun c hc hc' =>
      (List.nodup_append.1 hnodup).2.2 c hc' c hc rfl
    cases xs with
    | nil =>
      -- one list is used up: the rest of the other is attached as it is
      have ha0 : a = 0 := hxs
      refine ⟨_, by rw [mergeLoop, if_neg fun hboth => hboth.1 ha0], ?_, fun c hc => ?_⟩
      · rw [if_neg (not_not.2 ha0), List.nil_merge]
        exact ha.finish hys hnull hapart
      · exact attach_of_ne ha (fun hmem => hc (List.mem_append_left _ hmem)) _
    | cons x xs =>
      cases ys with
      | nil =>
        have hb0 : b = 0 := hys
        have ha0 : a ≠ 0 := hxs.1 ▸ hxs.2.1
        refine ⟨_, by rw [mergeLoop, if_neg fun hboth => hboth.2 hb0], ?_, fun c hc => ?_⟩
        · rw [if_pos ha0, List.merge_right]
          exact ha.finish hxs hnull fun c hc => hapart c (by rwa [List.append_nil])
        · exact attach_of_ne ha (fun hmem => hc (List.mem_append_left _ hmem)) _
      | cons y ys =>
        obtain ⟨rfl, ha0, hxs'⟩ := hxs
        obtain ⟨rfl, hb0, hys'⟩ := hys
        have hal : a ∈ h.live := hlive a (by simp)
        have hbl : b ∈ h.live := hlive b (by simp)
        have hnull' : ∀ e, e ≠ 0 → ∀ c ∈ done ++ [e], c ≠ 0 := by
          intro e he c hc
          rcases List.mem_append.1 hc with hc | hc
          · exact hnull c hc
          · rwa [List.mem_singleton.1 hc]
        -- the entry that comes first is attached to `done`; the induction hypothesis does the rest
        have hx : Linked link 0 a (a :: xs) := ⟨rfl, ha0, hxs'⟩
        have hy : Linked link 0 b (b :: ys) := ⟨rfl, hb0, hys'⟩
        rw [List.length_cons, List.length_cons] at hfuel
        rw [mergeLoop, if_pos ⟨ha0, hb0⟩, if_neg (by simp [hal, hbl]), List.cons_merge_cons]
        by_cases hle : h.le a b
        · have hperm : (done ++ [a] ++ (xs ++ b :: ys)).Perm (done ++ (a :: xs ++ b :: ys)) := by
            simp
          obtain ⟨hdone, hxs₁, hys₁⟩ := ha.take hx hy hapart
          obtain ⟨r, hr, hlinked, hrest⟩ := ih hdone hxs₁ hys₁ (hperm.nodup_iff.2 hnodup)
            (hnull' a ha0) (fun c hc => hlive c (List.mem_cons_of_mem _ hc))
            (by rw [List.length_cons]; omega)
          rw [if_pos hle, if_pos hle]
          refine ⟨r, hr, by simpa using hlinked, fun c hc => ?_⟩
          rw [hrest c fun hin => hc (hperm.mem_iff.1 hin)]
          exact attach_of_ne ha (fun hin => hc (List.mem_append_left _ hin)) a
        · have hmiddle : (b :: (a :: xs ++ ys)).Perm (a :: xs ++ b :: ys) := List.perm_middle.symm
          have hperm : (done ++ [b] ++ (a :: xs ++ ys)).Perm (done ++ (a :: xs ++ b :: ys)) := by
            rw [List.append_assoc]
            exact hmiddle.append_left done
          have hswap : ∀ c, c ∈ b :: ys ++ a :: xs → c ∈ a :: xs ++ b :: ys := fun c hc =>
            List.mem_append.2 (List.mem_append.1 hc).symm
          obtain ⟨hdone, hys₁, hxs₁⟩ := ha.take hy hx fun c hc => hapart c (hswap c hc)
          obtain ⟨r, hr, hlinked, hrest⟩ := ih hdone hxs₁ hys₁ (hperm.nodup_iff.2 hnodup)
            (hnull' b hb0) (fun c hc => hlive c (hmiddle.mem_iff.1 (List.mem_cons_of_mem _ hc)))
            (by rw [List.length_cons]; omega)
          rw [if_neg hle, if_neg hle]
          refine ⟨r, hr, by simpa using hlinked, fun c hc => ?_⟩
          rw [hrest c fun hin => hc (hperm.mem_iff.1 hin)]
          exact attach_of_ne ha (fun hin => hc (List.mem_append_left _ hin)) b

theorem merge_spec (hxs : Linked link 0 a xs) (hys : Linked link 0 b ys) (hnodup : (xs ++ ys).Nodup)
    (hlive : ∀ c ∈ xs ++ ys, c ∈ h.live) : ∃ r, h.merge link a b = some r ∧
      Linked r.1 0 r.2 (List.merge xs ys h.le) ∧ ∀ c, c ∉ xs ++ ys → r.1 c = link c := by
  have hsub : (xs ++ ys).Subperm h.live := List.subperm_of_subset hnodup hlive
  have hfuel := hsub.length_le
  rw [List.length_append] at hfuel
  exact mergeLoop_spec (Or.inl ⟨rfl, rfl⟩) hxs hys hnodup (fun c hc => absurd hc List.not_mem_nil)
    hlive (by rw [turns]; omega)

/-! ## Lists of entries -/

omit [LinearOrder K] in
/-- `part` are the first entries of the lists. -/
def Heads (link : ℕ → ℕ) (part : List ℕ) (ps : List (List ℕ)) : Prop :=
  List.Forall₂ (Linked link 0) part ps

theorem Heads.congr (hH : Heads link part ps) (heq : ∀ c ∈ BottomUp.arrived ps, link' c = link c) :
    Heads link' part ps := by
  induction hH with
  | nil => exact .nil
  | cons hp _ ih =>
    rw [BottomUp.arrived_cons] at heq
    exact .cons (hp.congr fun c hc => heq c (List.mem_append_right _ hc))
      (ih fun c hc => heq c (List.mem_append_left _ hc))

/-- A null pointer stands for no entries. -/
theorem Heads.nil_of_zero (hH : Heads link part ps) (h0 : ∀ c ∈ part, c = 0) :
    ∀ p ∈ ps, p = [] := by
  induction hH with
  | nil => exact fun p hp => absurd hp List.not_mem_nil
  | @cons c p part ps hp _ ih =>
    have hc : c = 0 := h0 c List.mem_cons_self
    intro q hq
    rcases List.mem_cons.1 hq with rfl | hq
    · exact hp.unique (Linked.nil_iff.2 hc)
    · exact ih (fun d hd => h0 d (List.mem_cons_of_mem _ hd)) q hq

theorem heads_replicate (link : ℕ → ℕ) (n : ℕ) :
    Heads link (List.replicate n 0) (List.replicate n []) := by
  induction n with
  | zero => exact .nil
  | succ n ih => exact .cons (Linked.nil_iff.2 rfl) ih

/-! ## Sorting -/

/-- **The inner loop of `chainhash_sort`.** -/
theorem carry_spec (hH : Heads link part ps) (hcur : Linked link 0 e cur)
    (hnodup : (BottomUp.arrived ps ++ cur).Nodup)
    (hlive : ∀ c ∈ BottomUp.arrived ps ++ cur, c ∈ h.live)
    (hc : BottomUp.carry h.le cur ps = some ps') (lev : ℕ) : ∃ link' part' k,
      h.carry link e lev part = some (link', part', lev + k) ∧ Heads link' part' ps' ∧
        (∀ c, c ∉ BottomUp.arrived ps ++ cur → link' c = link c) ∧
        (BottomUp.arrived ps').Perm (BottomUp.arrived ps ++ cur) ∧
        part'.drop (k + 1) = part.drop (k + 1) := by
  induction ps generalizing link part e cur ps' lev with
  | nil => exact absurd hc (Option.some_ne_none ps').symm
  | cons xs ps ih =>
    obtain ⟨p, part, hp, hrest, rfl⟩ := List.forall₂_cons_right_iff.1 hH
    cases xs with
    | nil =>
      have hp0 : p = 0 := hp
      have heq : cur :: ps = ps' := Option.some.inj hc
      subst heq
      refine ⟨link, e :: part, 0, by rw [carry, if_pos hp0]; rfl, .cons hcur hrest,
        fun _ _ => rfl, ?_, rfl⟩
      rw [BottomUp.arrived_cons, BottomUp.arrived_cons, List.append_nil]
    | cons x xs =>
      have hp0 : p ≠ 0 := hp.1 ▸ hp.2.1
      rw [BottomUp.arrived_cons, List.append_assoc] at hnodup hlive
      obtain ⟨r, hr, hmerged, hframe⟩ := merge_spec hp hcur (List.nodup_append.1 hnodup).2.1
        fun c hc => hlive c (List.mem_append_right _ hc)
      have hperm : (List.merge (x :: xs) cur h.le).Perm (x :: xs ++ cur) :=
        List.merge_perm_append h.le
      have hperm' := hperm.append_left (BottomUp.arrived ps)
      have happart : ∀ c ∈ BottomUp.arrived ps, c ∉ x :: xs ++ cur := fun c hc hc' =>
        (List.nodup_append.1 hnodup).2.2 c hc c hc' rfl
      obtain ⟨ps₁, hcarry, rfl⟩ := Option.map_eq_some_iff.1 hc
      obtain ⟨link', part', k, hrun, hH', hframe', harrived, hdrop⟩ :=
        ih (Heads.congr hrest fun c hc => hframe c (happart c hc)) hmerged
          (hperm'.nodup_iff.2 hnodup) (fun c hc => hlive c (hperm'.mem_iff.1 hc)) hcarry (lev + 1)
      refine ⟨link', 0 :: part', k + 1, ?_, .cons (Linked.nil_iff.2 rfl) hH', fun c hc => ?_, ?_,
        hdrop⟩
      · simp only [carry, if_neg hp0, hr, Option.bind_some, hrun, Option.map_some]
        rw [Nat.add_assoc, Nat.add_comm 1 k]
      · rw [BottomUp.arrived_cons, List.append_assoc] at hc
        rw [hframe' c fun hin => hc (hperm'.mem_iff.1 hin)]
        exact hframe c fun hin => hc (List.mem_append_right _ hin)
      · rw [BottomUp.arrived_cons, BottomUp.arrived_cons, List.append_nil, List.append_assoc]
        exact harrived.trans hperm'

/-- **The outer loop of `chainhash_sort`.** Nothing is above `max_lev`. -/
theorem sortLoop_spec (hH : Heads link part ps) (hl : Linked link 0 e l)
    (hnodup : (BottomUp.arrived ps ++ l).Nodup) (hlive : ∀ c ∈ BottomUp.arrived ps ++ l, c ∈ h.live)
    (hall : BottomUp.carryAll h.le ps l = some ps') (h0 : ∀ c ∈ part.drop (maxLev + 1), c = 0)
    (hfuel : l.length < fuel) : ∃ link' part' maxLev',
      h.sortLoop fuel link part maxLev e = some (link', part', maxLev') ∧ Heads link' part' ps' ∧
        (∀ c ∈ part'.drop (maxLev' + 1), c = 0) ∧
        (BottomUp.arrived ps').Perm (BottomUp.arrived ps ++ l) := by
  induction l generalizing link part maxLev e ps fuel with
  | nil =>
    obtain ⟨fuel, rfl⟩ : ∃ k, fuel = k + 1 := ⟨fuel - 1, by omega⟩
    have he : e = 0 := hl
    have heq : ps = ps' := Option.some.inj hall
    subst heq
    exact ⟨link, part, maxLev, by rw [sortLoop, if_pos he], hH, h0, by rw [List.append_nil]⟩
  | cons a l ih =>
    obtain ⟨fuel, rfl⟩ : ∃ k, fuel = k + 1 := ⟨fuel - 1, by omega⟩
    obtain ⟨rfl, he, hl⟩ := hl
    have hsplit : BottomUp.arrived ps ++ e :: l = BottomUp.arrived ps ++ [e] ++ l := by simp
    rw [hsplit] at hnodup hlive
    obtain ⟨hnodup₁, hnodup₂, hapart⟩ := List.nodup_append.1 hnodup
    have helive : e ∈ h.live := hlive e (by simp)
    have heps : ∀ c ∈ BottomUp.arrived ps, c ≠ e := fun c hc =>
      (List.nodup_append.1 hnodup₁).2.2 c hc e (by simp)
    have hel : ∀ c ∈ l, c ≠ e := fun c hc => (hapart e (by simp) c hc).symm
    rw [BottomUp.carryAll] at hall
    obtain ⟨ps₁, hcarry, hall⟩ := Option.bind_eq_some_iff.1 hall
    -- the first entry is taken off the list
    have hcur : Linked (Function.update link e 0) 0 e [e] := ⟨rfl, he, Function.update_self ..⟩
    obtain ⟨link₁, part₁, k, hrun, hH₁, hframe, harrived, hdrop⟩ :=
      carry_spec (hH.congr fun c hc => Function.update_of_ne (heps c hc) ..) hcur hnodup₁
        (fun c hc => hlive c (List.mem_append_left _ hc)) hcarry 0
    have hl₁ : Linked link₁ 0 (link e) l := hl.congr fun c hc => by
      rw [hframe c fun hin => hapart c hin c hc rfl]
      exact Function.update_of_ne (hel c hc) ..
    have hpart₁ : ∀ c ∈ part₁.drop ((if 0 + k > maxLev then 0 + k else maxLev) + 1), c = 0 := by
      rw [Nat.zero_add]
      split_ifs with hk
      · rw [hdrop]
        exact fun c hc => h0 c (List.drop_subset_drop_left part (by omega) hc)
      · rw [show maxLev + 1 = k + 1 + (maxLev - k) by omega, ← List.drop_drop, hdrop,
          List.drop_drop, show k + 1 + (maxLev - k) = maxLev + 1 by omega]
        exact h0
    have hperm := harrived.append_right l
    obtain ⟨link', part', maxLev', hrest, hH', h0', harrived'⟩ :=
      ih hH₁ hl₁ (hperm.nodup_iff.2 hnodup) (fun c hc => hlive c (hperm.mem_iff.1 hc)) hall hpart₁
        (Nat.lt_of_succ_lt_succ hfuel)
    refine ⟨link', part', maxLev', ?_, hH', h0', ?_⟩
    · rw [sortLoop, if_neg he, if_neg (not_not.2 helive), hrun]
      exact hrest
    · rw [hsplit]
      exact harrived'.trans hperm

/-- **The last loop of `chainhash_sort`.** -/
theorem collect_spec (hH : Heads link part ps) (hl : Linked link 0 e l)
    (hnodup : (BottomUp.arrived ps ++ l).Nodup)
    (hlive : ∀ c ∈ BottomUp.arrived ps ++ l, c ∈ h.live) : ∃ r, h.collect link part e = some r ∧
      Linked r.1 0 r.2 (BottomUp.collect h.le ps l) := by
  induction ps generalizing link part e l with
  | nil =>
    obtain rfl := List.forall₂_nil_right_iff.1 hH
    exact ⟨_, rfl, hl⟩
  | cons xs ps ih =>
    obtain ⟨p, part, hp, hrest, rfl⟩ := List.forall₂_cons_right_iff.1 hH
    rw [BottomUp.arrived_cons, List.append_assoc] at hnodup hlive
    rw [collect, BottomUp.collect]
    cases xs with
    | nil =>
      have hp0 : p = 0 := hp
      rw [if_neg (not_not.2 hp0), List.nil_merge]
      exact ih hrest hl hnodup hlive
    | cons x xs =>
      have hp0 : p ≠ 0 := hp.1 ▸ hp.2.1
      obtain ⟨r, hr, hmerged, hframe⟩ := merge_spec hp hl (List.nodup_append.1 hnodup).2.1
        fun c hc => hlive c (List.mem_append_right _ hc)
      have hmerge : (List.merge (x :: xs) l h.le).Perm (x :: xs ++ l) := List.merge_perm_append h.le
      have hperm := hmerge.append_left (BottomUp.arrived ps)
      have happart : ∀ c ∈ BottomUp.arrived ps, c ∉ x :: xs ++ l := fun c hc hc' =>
        (List.nodup_append.1 hnodup).2.2 c hc c hc' rfl
      rw [if_pos hp0, hr, Option.bind_some]
      exact ih (Heads.congr hrest fun c hc => hframe c (happart c hc)) hmerged
        (hperm.nodup_iff.2 hnodup) fun c hc => hlive c (hperm.mem_iff.1 hc)

theorem le_transitive (h : ChainHash K V) (a b c : ℕ) (hab : h.le a b) (hbc : h.le b c) :
    h.le a c :=
  decide_eq_true ((of_decide_eq_true hab).trans (of_decide_eq_true hbc))

theorem le_totally (h : ChainHash K V) (a b : ℕ) : h.le a b || h.le b a := by
  simpa [le] using le_total (h.key a) (h.key b)

omit [LinearOrder K] in
theorem Formed.length_live_le (hF : Formed hashfn h chain) : h.live.length ≤ 2 ^ 64 := by
  have hsub := List.subperm_of_subset hF.nodup fun a ha => List.mem_range.2 (hF.lt a ha)
  have hle := hsub.length_le
  rwa [List.length_range] at hle

theorem Formed.sort_spec (hF : Formed hashfn h chain) (hsnap : h.snap ≠ 0)
    (hl : Linked h.link 0 h.snap l) (hlive : ∀ c ∈ l, c ∈ h.live) : ∃ link s,
      h.sort = some { h with snap := s, link } ∧ s ≠ 0 ∧ Linked link 0 s (l.mergeSort h.le) := by
  have hlength : l.length ≤ h.live.length :=
    (List.subperm_of_subset hl.nodup hlive).length_le
  have hroom : l.length < 2 ^ 65 := by
    have hle := hF.length_live_le
    omega
  obtain ⟨ps, hall, -, hcollect⟩ := BottomUp.collect_carryAll h.le_transitive h.le_totally hroom
  have hstart : BottomUp.arrived (List.replicate 65 ([] : List ℕ)) ++ l = l := by
    rw [BottomUp.arrived_replicate, List.nil_append]
  have hzero : ∀ c ∈ (List.replicate 65 0).drop (0 + 1), c = 0 := fun c hc =>
    List.eq_of_mem_replicate (List.mem_of_mem_drop hc)
  have hfuel : l.length < h.turns := by
    rw [turns]
    omega
  obtain ⟨link₁, part, maxLev, hloop, hH, h0, harrived⟩ :=
    sortLoop_spec (heads_replicate h.link 65) hl (by rw [hstart]; exact hl.nodup)
      (by rwa [hstart]) hall hzero hfuel
  rw [hstart] at harrived
  -- the levels above `max_lev` are empty
  have hnil := Heads.nil_of_zero (List.forall₂_drop (maxLev + 1) hH) h0
  have htake : (BottomUp.arrived (ps.take (maxLev + 1))).Perm l := by
    rw [← List.take_append_drop (maxLev + 1) ps, BottomUp.arrived_append_nil hnil] at harrived
    exact harrived
  rw [← List.take_append_drop (maxLev + 1) ps, BottomUp.collect_append_nil hnil] at hcollect
  obtain ⟨⟨link', s⟩, hr, hsorted⟩ := collect_spec (h := h) (l := []) (e := 0)
    (List.forall₂_take (maxLev + 1) hH) (Linked.nil_iff.2 rfl)
    (by rw [List.append_nil]; exact htake.nodup_iff.2 hl.nodup)
    (by rw [List.append_nil]; exact fun c hc => hlive c (htake.mem_iff.1 hc))
  rw [hcollect] at hsorted
  refine ⟨link', s, ?_, fun hs => ?_, hsorted⟩
  · simp only [sort, if_neg hsnap, hloop, Option.bind_some, hr, Option.map_some]
  · -- then the snapshot was empty
    have hnone : l.mergeSort h.le = [] := hsorted.unique (Linked.nil_iff.2 hs)
    have hl0 : l = [] := List.nil_perm.1 (hnone ▸ (List.mergeSort_perm l h.le))
    subst hl0
    exact hsnap hl

end ChainHash

end Naesala
