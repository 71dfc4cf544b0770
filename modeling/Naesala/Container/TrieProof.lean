import Mathlib.Data.List.Induction
import Mathlib.Data.Set.Insert
import Naesala.Container.Trie

/-!
# `Trie` is a set of words

`walk t w` is the node that the letters `w` lead to from `root_`. `Shape t paths marks` says that
the walks of a trie are exactly `paths`, that no two of them end at one node, and that the node
at the end of a walk is marked exactly if the walk is in `marks`. Growing a node adds one path,
marking one adds one mark, and so the loop of `Insert` adds the prefixes of its word, each of
them new or already there.

**Theorem (`search_startsWith`).** After any insertions of words over `a` to `z`, at least one,
`Search` finds exactly the inserted words and `StartsWith` exactly their prefixes, whatever the
order and repetition of the insertions.
-/

namespace Naesala

namespace Trie

variable {t t' : Trie} {p q : ℕ} {i j : Fin 26} {w v u : List (Fin 26)}

/-! ## Letters -/

/-- The letter of an index. -/
def letter (i : Fin 26) : Char := Char.ofNat ('a'.toNat + i)

/-- The characters from `a` to `z`. -/
def IsLetter (c : Char) : Prop := 'a'.toNat ≤ c.toNat ∧ c.toNat ≤ 'z'.toNat

theorem slot_letter (i : Fin 26) : slot (letter i) = some i := by
  revert i
  decide

theorem letter_injective : Function.Injective letter := by
  intro i j hij
  have hslot := slot_letter i
  rw [hij, slot_letter j] at hslot
  exact (Option.some.inj hslot).symm

theorem exists_letter {c : Char} (hc : IsLetter c) : ∃ i, letter i = c := by
  obtain ⟨hlo, hhi⟩ := hc
  have hz : 'z'.toNat = 'a'.toNat + 25 := rfl
  refine ⟨⟨c.toNat - 'a'.toNat, by omega⟩, ?_⟩
  show Char.ofNat ('a'.toNat + (c.toNat - 'a'.toNat)) = c
  rw [Nat.add_sub_cancel' hlo, Char.ofNat_toNat]

/-- A word over the letters, by their indices. -/
def toWord (w : List (Fin 26)) : List Char := w.map letter

theorem toWord_injective : Function.Injective toWord := List.map_injective_iff.2 letter_injective

theorem exists_toWord {word : List Char} (hword : ∀ c ∈ word, IsLetter c) :
    ∃ w, toWord w = word := by
  induction word with
  | nil => exact ⟨[], rfl⟩
  | cons c word ih =>
    obtain ⟨i, hi⟩ := exists_letter (hword c List.mem_cons_self)
    obtain ⟨w, hw⟩ := ih fun d hd => hword d (List.mem_cons_of_mem c hd)
    exact ⟨i :: w, by rw [toWord, List.map_cons, hi, ← hw]; rfl⟩

theorem toWord_prefix_iff : toWord w <+: toWord v ↔ w <+: v := by
  unfold toWord
  exact List.prefix_map_iff_of_injective letter_injective

/-! ## Walks -/

/-- `p->next[i]`, null where `p` is null. -/
def child (t : Trie) (p : Option ℕ) (i : Fin 26) : Option ℕ :=
  p.bind fun p => (t.nodes[p]?).bind fun n => n.next i

/-- The node at the end of the walk `w` from `p`. -/
def walkFrom (t : Trie) (p : Option ℕ) (w : List (Fin 26)) : Option ℕ := w.foldl t.child p

/-- The node at the end of the walk `w` from `root_`. -/
def walk (t : Trie) (w : List (Fin 26)) : Option ℕ := t.walkFrom (some 0) w

theorem walk_concat (t : Trie) (w : List (Fin 26)) (i : Fin 26) :
    t.walk (w ++ [i]) = t.child (t.walk w) i := by
  rw [walk, walkFrom, List.foldl_append]
  rfl

theorem walkFrom_none (t : Trie) (w : List (Fin 26)) : t.walkFrom none w = none := by
  induction w with
  | nil => rfl
  | cons i w ih => exact ih

/-- The walks, which end at nodes of their own, and the marks on these nodes. -/
structure Shape (t : Trie) (paths marks : Set (List (Fin 26))) : Prop where
  lt : ∀ w p, t.walk w = some p → p < t.nodes.length
  unique : ∀ w v p, t.walk w = some p → t.walk v = some p → w = v
  mem_paths : ∀ w, w ∈ paths ↔ (t.walk w).isSome
  mem_marks : ∀ w p n, t.walk w = some p → t.nodes[p]? = some n → (n.isWord = true ↔ w ∈ marks)

variable {paths marks : Set (List (Fin 26))}

namespace Shape

theorem exists_node (h : Shape t paths marks) (hw : t.walk w = some p) :
    ∃ n, t.nodes[p]? = some n := ⟨_, List.getElem?_eq_getElem (h.lt w p hw)⟩

end Shape

/-- A new trie has the empty walk alone, and no mark. -/
theorem shape_construct : Shape construct {[]} ∅ := by
  have hwalk : ∀ w, construct.walk w = if w = [] then some 0 else none := by
    intro w
    cases w with
    | nil => rfl
    | cons i w =>
      show construct.walkFrom (construct.child (some 0) i) w = none
      exact walkFrom_none construct w
  refine ⟨fun w p hw => ?_, fun w v p hw hv => ?_, fun w => ?_, fun w p n hw hn => ?_⟩
  · rw [hwalk] at hw
    split_ifs at hw
    cases hw
    exact Nat.one_pos
  · rw [hwalk] at hw hv
    split_ifs at hw hv with hw' hv'
    rw [hw', hv']
  · rw [hwalk, Set.mem_singleton_iff]
    split_ifs with hw
    · simp [hw]
    · simp [hw]
  · rw [hwalk] at hw
    split_ifs at hw
    cases hw
    cases hn
    exact iff_of_false (by simp [newNode]) (Set.notMem_empty w)

/-! ## A new node -/

section Grow

variable {n : TrieNode}

theorem getElem?_grow_self (hn : t.nodes[p]? = some n) :
    (t.grow p n i).nodes[p]? =
      some { n with next := Function.update n.next i (some t.nodes.length) } := by
  obtain ⟨hp, -⟩ := List.getElem?_eq_some_iff.1 hn
  rw [grow, List.getElem?_append_left (by rwa [List.length_set]), List.getElem?_set_self hp]

theorem getElem?_grow_length : (t.grow p n i).nodes[t.nodes.length]? = some newNode := by
  rw [grow, List.getElem?_append_right (by simp), List.length_set, Nat.sub_self]
  rfl

theorem getElem?_grow_of_ne (hq : q ≠ p) (hlt : q < t.nodes.length) :
    (t.grow p n i).nodes[q]? = t.nodes[q]? := by
  rw [grow, List.getElem?_append_left (by rwa [List.length_set]), List.getElem?_set_ne hq.symm]

theorem child_of_getElem? (hn : t.nodes[p]? = some n) (i : Fin 26) :
    t.child (some p) i = n.next i := by
  rw [child, Option.bind_some, hn, Option.bind_some]

theorem Shape.walk_grow (h : Shape t paths marks) (hu : t.walk u = some p)
    (hn : t.nodes[p]? = some n) (hi : n.next i = none) (w : List (Fin 26)) :
    (t.grow p n i).walk w = if w = u ++ [i] then some t.nodes.length else t.walk w := by
  induction w using List.reverseRecOn with
  | nil =>
    rw [if_neg (by simp)]
    rfl
  | append_singleton v j ih =>
    have hui : t.walk (u ++ [i]) = none := by
      rw [walk_concat, hu, child_of_getElem? hn, hi]
    rw [walk_concat, walk_concat, ih]
    by_cases hv : v = u ++ [i]
    · have hne : v ++ [j] ≠ u ++ [i] := by
        intro heq
        have hlen := congrArg List.length heq
        rw [hv, List.length_append, List.length_append] at hlen
        simp at hlen
      rw [if_pos hv, if_neg hne, hv, hui, child_of_getElem? getElem?_grow_length]
      rfl
    · rw [if_neg hv]
      cases hq : t.walk v with
      | none =>
        have hne : v ++ [j] ≠ u ++ [i] := by
          intro heq
          rw [(List.append_inj' heq rfl).1, hu] at hq
          exact absurd hq (by simp)
        rw [if_neg hne]
        rfl
      | some q =>
        by_cases hqp : q = p
        · subst hqp
          have hvu : v = u := h.unique v u q hq hu
          rw [hvu, child_of_getElem? (getElem?_grow_self hn), child_of_getElem? hn]
          by_cases hji : j = i
          · rw [hji, if_pos rfl]
            exact Function.update_self _ _ _
          · have hne : u ++ [j] ≠ u ++ [i] := by
              intro heq
              exact hji (List.cons.inj (List.append_cancel_left heq)).1
            rw [if_neg hne]
            exact Function.update_of_ne hji _ _
        · have hne : v ++ [j] ≠ u ++ [i] := by
            intro heq
            rw [(List.append_inj' heq rfl).1, hu] at hq
            exact hqp (Option.some.inj hq).symm
          obtain ⟨m, hm⟩ := h.exists_node hq
          have hm' : (t.grow p n i).nodes[q]? = some m := by
            rw [getElem?_grow_of_ne hqp (h.lt v q hq), hm]
          rw [if_neg hne, child_of_getElem? hm', child_of_getElem? hm]

/-- **Growing a node adds a path.** -/
theorem Shape.grow (h : Shape t paths marks) (hu : t.walk u = some p) (hn : t.nodes[p]? = some n)
    (hi : n.next i = none) (hmarks : marks ⊆ paths) :
    Shape (t.grow p n i) (paths ∪ {u ++ [i]}) marks := by
  have hwalk := h.walk_grow hu hn hi
  have hlen : (t.grow p n i).nodes.length = t.nodes.length + 1 := by
    simp [Trie.grow]
  have hnew : u ++ [i] ∉ paths := by
    rw [h.mem_paths, walk_concat, hu, child_of_getElem? hn, hi]
    simp
  refine ⟨fun w q hw => ?_, fun w v q hw hv => ?_, fun w => ?_, fun w q m hw hm => ?_⟩
  · rw [hwalk] at hw
    rw [hlen]
    split_ifs at hw
    · cases hw
      exact Nat.lt_succ_self _
    · exact Nat.lt_succ_of_lt (h.lt w q hw)
  · rw [hwalk] at hw hv
    split_ifs at hw hv with hw' hv' hv'
    · rw [hw', hv']
    · cases hw
      exact absurd (h.lt v _ hv) (Nat.lt_irrefl _)
    · cases hv
      exact absurd (h.lt w _ hw) (Nat.lt_irrefl _)
    · exact h.unique w v q hw hv
  · rw [hwalk, Set.mem_union, Set.mem_singleton_iff]
    split_ifs with hw
    · simp [hw]
    · rw [← h.mem_paths, or_iff_left hw]
  · rw [hwalk] at hw
    split_ifs at hw with hw'
    · cases hw
      rw [getElem?_grow_length] at hm
      cases hm
      rw [hw']
      exact iff_of_false (by simp [newNode]) fun hmem => hnew (hmarks hmem)
    · by_cases hqp : q = p
      · subst hqp
        rw [getElem?_grow_self hn] at hm
        cases hm
        exact h.mem_marks w q n hw hn
      · rw [getElem?_grow_of_ne hqp (h.lt w q hw)] at hm
        exact h.mem_marks w q m hw hm

end Grow

/-! ## A new mark -/

/-- **Marking a node adds a mark.** -/
theorem Shape.mark (h : Shape t paths marks) (hu : t.walk u = some p) :
    ∃ t', t.mark p = some t' ∧ Shape t' paths (marks ∪ {u}) := by
  obtain ⟨n, hn⟩ := h.exists_node hu
  obtain ⟨hp, -⟩ := List.getElem?_eq_some_iff.1 hn
  refine ⟨⟨t.nodes.set p { n with isWord := true }⟩, ?_, ?_⟩
  · rw [Trie.mark, hn]
    rfl
  have hchild : ∀ q j, (⟨t.nodes.set p { n with isWord := true }⟩ : Trie).child q j =
      t.child q j := by
    intro q j
    cases q with
    | none => rfl
    | some q =>
      by_cases hqp : q = p
      · subst hqp
        rw [child_of_getElem? hn, child_of_getElem? (List.getElem?_set_self hp)]
      · rw [child, child, Option.bind_some, Option.bind_some, List.getElem?_set_ne (Ne.symm hqp)]
  have hwalk : ∀ w, (⟨t.nodes.set p { n with isWord := true }⟩ : Trie).walk w = t.walk w := by
    intro w
    induction w using List.reverseRecOn with
    | nil => rfl
    | append_singleton v j ih => rw [walk_concat, walk_concat, ih, hchild]
  refine ⟨fun w q hw => ?_, fun w v q hw hv => ?_, fun w => ?_, fun w q m hw hm => ?_⟩
  · rw [hwalk] at hw
    show q < (t.nodes.set p { n with isWord := true }).length
    rw [List.length_set]
    exact h.lt w q hw
  · rw [hwalk] at hw hv
    exact h.unique w v q hw hv
  · rw [hwalk]
    exact h.mem_paths w
  · rw [hwalk] at hw
    rw [Set.mem_union, Set.mem_singleton_iff]
    by_cases hqp : q = p
    · subst hqp
      rw [List.getElem?_set_self hp] at hm
      cases hm
      simp [h.unique w u q hw hu]
    · have hwu : w ≠ u := by
        intro heq
        rw [heq, hu] at hw
        exact hqp (Option.some.inj hw).symm
      rw [List.getElem?_set_ne (Ne.symm hqp)] at hm
      rw [h.mem_marks w q m hw hm, or_iff_left hwu]

/-! ## `Insert` -/

theorem insertLoop_some {n : TrieNode} (hn : t.nodes[p]? = some n) (hi : n.next i = some q) :
    t.insertLoop p (toWord (i :: w)) = t.insertLoop q (toWord w) := by
  rw [toWord, List.map_cons, Trie.insertLoop, slot_letter, hn, Option.bind_eq_bind,
    Option.bind_some, Option.bind_eq_bind, Option.bind_some, hi]
  rfl

theorem insertLoop_none {n : TrieNode} (hn : t.nodes[p]? = some n) (hi : n.next i = none) :
    t.insertLoop p (toWord (i :: w)) = (t.grow p n i).insertLoop t.nodes.length (toWord w) := by
  rw [toWord, List.map_cons, Trie.insertLoop, slot_letter, hn, Option.bind_eq_bind,
    Option.bind_some, Option.bind_eq_bind, Option.bind_some, hi]
  rfl

theorem exists_prefix_cons :
    (∃ r, r <+: i :: w ∧ v = u ++ r) ↔ v = u ∨ ∃ r, r <+: w ∧ v = u ++ [i] ++ r := by
  constructor
  · intro hp
    obtain ⟨r, hr, rfl⟩ := hp
    rcases List.prefix_cons_iff.1 hr with rfl | ⟨r', rfl, hr'⟩
    · exact Or.inl (List.append_nil u)
    · exact Or.inr ⟨r', hr', by simp⟩
  · intro hor
    rcases hor with rfl | ⟨r, hr, rfl⟩
    · exact ⟨[], List.nil_prefix, (List.append_nil v).symm⟩
    · exact ⟨i :: r, List.cons_prefix_cons.2 ⟨rfl, hr⟩, by simp⟩

/-- **The loop of `Insert`** adds the prefixes of what is left of the word, and ends at its
node. -/
theorem Shape.insertLoop (h : Shape t paths marks) (hmarks : marks ⊆ paths)
    (hu : t.walk u = some p) :
    ∃ t' q, t.insertLoop p (toWord w) = some (t', q) ∧ t'.walk (u ++ w) = some q ∧
      Shape t' (paths ∪ {v | ∃ r, r <+: w ∧ v = u ++ r}) marks := by
  induction w generalizing t p u paths with
  | nil =>
    refine ⟨t, p, rfl, by rwa [List.append_nil], ?_⟩
    -- the loop is over, and its node has been a path all along
    have heq : paths ∪ {v | ∃ r, r <+: [] ∧ v = u ++ r} = paths := by
      refine Set.union_eq_self_of_subset_right fun v hv => ?_
      obtain ⟨r, hr, rfl⟩ := hv
      rw [List.prefix_nil.1 hr, List.append_nil, h.mem_paths, hu]
      rfl
    rwa [heq]
  | cons i w ih =>
    obtain ⟨n, hn⟩ := h.exists_node hu
    have hupath : u ∈ paths := (h.mem_paths u).2 (by rw [hu]; rfl)
    cases hi : n.next i with
    | some q =>
      -- the child is there, and the loop goes on from it
      have hui : t.walk (u ++ [i]) = some q := by
        rw [walk_concat, hu, child_of_getElem? hn, hi]
      obtain ⟨t', q', hloop, hwalk, hshape⟩ := ih h hmarks hui
      refine ⟨t', q', (insertLoop_some hn hi).trans hloop,
        by rwa [List.append_assoc] at hwalk, ?_⟩
      have heq : paths ∪ {v | ∃ r, r <+: i :: w ∧ v = u ++ r} =
          paths ∪ {v | ∃ r, r <+: w ∧ v = u ++ [i] ++ r} := by
        ext v
        simp only [Set.mem_union, Set.mem_ofPred_eq, exists_prefix_cons]
        constructor
        · intro hor
          rcases hor with hv | rfl | hv
          · exact Or.inl hv
          · exact Or.inl hupath
          · exact Or.inr hv
        · intro hor
          rcases hor with hv | hv
          · exact Or.inl hv
          · exact Or.inr (Or.inr hv)
      rwa [heq]
    | none =>
      -- the child is made, which adds its path
      have h' := h.grow hu hn hi hmarks
      have hui : (t.grow p n i).walk (u ++ [i]) = some t.nodes.length := by
        rw [h.walk_grow hu hn hi, if_pos rfl]
      obtain ⟨t', q', hloop, hwalk, hshape⟩ :=
        ih h' (hmarks.trans Set.subset_union_left) hui
      refine ⟨t', q', (insertLoop_none hn hi).trans hloop,
        by rwa [List.append_assoc] at hwalk, ?_⟩
      have heq : paths ∪ {v | ∃ r, r <+: i :: w ∧ v = u ++ r} =
          paths ∪ {u ++ [i]} ∪ {v | ∃ r, r <+: w ∧ v = u ++ [i] ++ r} := by
        ext v
        simp only [Set.mem_union, Set.mem_ofPred_eq, Set.mem_singleton_iff,
          exists_prefix_cons]
        constructor
        · intro hor
          rcases hor with hv | rfl | hv
          · exact Or.inl (Or.inl hv)
          · exact Or.inl (Or.inl hupath)
          · exact Or.inr hv
        · intro hor
          rcases hor with (hv | rfl) | hv
          · exact Or.inl hv
          · exact Or.inr (Or.inr ⟨[], List.nil_prefix, (List.append_nil _).symm⟩)
          · exact Or.inr (Or.inr hv)
      rwa [heq]

/-- The trie of a set of words: the walks are their prefixes, the marks the words. -/
structure Represents (t : Trie) (words : Set (List (Fin 26))) : Prop where
  shape : Shape t ({[]} ∪ {v | ∃ w ∈ words, v <+: w}) words

theorem represents_construct : Represents construct ∅ where
  shape := by
    have heq : ({[]} ∪ {v | ∃ w ∈ (∅ : Set (List (Fin 26))), v <+: w}) = {[]} := by
      refine Set.union_eq_self_of_subset_right fun v hv => ?_
      obtain ⟨w, hw, -⟩ := hv
      exact absurd hw (Set.notMem_empty w)
    rw [heq]
    exact shape_construct

variable {words : Set (List (Fin 26))}

/-- **`Insert` adds the word.** -/
theorem Represents.insert (h : Represents t words) (w : List (Fin 26)) :
    ∃ t', t.insert (toWord w) = some t' ∧ Represents t' (words ∪ {w}) := by
  have hmarks : words ⊆ {[]} ∪ {v | ∃ w ∈ words, v <+: w} :=
    fun v hv => Or.inr ⟨v, hv, List.prefix_rfl⟩
  have hroot : t.walk [] = some 0 := rfl
  obtain ⟨t₁, q, hloop, hwalk, hshape⟩ := h.shape.insertLoop (w := w) hmarks hroot
  rw [List.nil_append] at hwalk
  obtain ⟨t', hmark, hshape'⟩ := hshape.mark hwalk
  refine ⟨t', ?_, ⟨?_⟩⟩
  · rw [Trie.insert, hloop]
    exact hmark
  · have heq : {[]} ∪ {v | ∃ u ∈ words ∪ {w}, v <+: u} =
        {[]} ∪ {v | ∃ u ∈ words, v <+: u} ∪ {v | ∃ r, r <+: w ∧ v = [] ++ r} := by
      ext v
      simp only [Set.mem_union, Set.mem_ofPred_eq, Set.mem_singleton_iff, List.nil_append]
      constructor
      · intro hor
        rcases hor with hv | ⟨u, hu | rfl, hv⟩
        · exact Or.inl (Or.inl hv)
        · exact Or.inl (Or.inr ⟨u, hu, hv⟩)
        · exact Or.inr ⟨v, hv, rfl⟩
      · intro hor
        rcases hor with (hv | ⟨u, hu, hv⟩) | ⟨r, hr, rfl⟩
        · exact Or.inl hv
        · exact Or.inr ⟨u, Or.inl hu, hv⟩
        · exact Or.inr ⟨w, Or.inr rfl, hr⟩
    rwa [heq]

/-! ## `Find` -/

theorem findLoop_none (t : Trie) (word : List Char) : t.findLoop none word = some none := by
  cases word with
  | nil => rfl
  | cons c word => rfl

/-- **`Find` is the walk.** -/
theorem Shape.findLoop (h : Shape t paths marks) (hu : t.walk u = some p) (w : List (Fin 26)) :
    t.findLoop (some p) (toWord w) = some (t.walk (u ++ w)) := by
  induction w generalizing u p with
  | nil => rw [List.append_nil, hu]; rfl
  | cons i w ih =>
    obtain ⟨n, hn⟩ := h.exists_node hu
    have hui : t.walk (u ++ [i]) = n.next i := by
      rw [walk_concat, hu, child_of_getElem? hn]
    have hstep : t.findLoop (some p) (toWord (i :: w)) = t.findLoop (n.next i) (toWord w) := by
      rw [toWord, List.map_cons, Trie.findLoop, slot_letter, hn]
      rfl
    rw [hstep, List.append_cons]
    cases hi : n.next i with
    | some q => exact ih (hui.trans hi)
    | none =>
      have hnone : t.walk (u ++ [i] ++ w) = none := by
        rw [walk, walkFrom, List.foldl_append]
        show t.walkFrom (t.walk (u ++ [i])) w = none
        rw [hui, hi, walkFrom_none]
      rw [findLoop_none, hnone]

theorem Shape.find (h : Shape t paths marks) (w : List (Fin 26)) :
    t.find (toWord w) = some (t.walk w) :=
  h.findLoop (show t.walk [] = some 0 from rfl) w

/-- **`Search` finds the words.** -/
theorem Represents.search (h : Represents t words) (w : List (Fin 26)) :
    ∃ b, t.search (toWord w) = some b ∧ (b = true ↔ w ∈ words) := by
  have hfind := h.shape.find w
  cases hw : t.walk w with
  | none =>
    refine ⟨false, ?_, iff_of_false Bool.false_ne_true fun hmem => ?_⟩
    · rw [Trie.search, hfind, hw]
      rfl
    · have hsome := (h.shape.mem_paths w).1 (Or.inr ⟨w, hmem, List.prefix_rfl⟩)
      rw [hw] at hsome
      exact absurd hsome (by simp)
  | some p =>
    obtain ⟨n, hn⟩ := h.shape.exists_node hw
    refine ⟨n.isWord, ?_, h.shape.mem_marks w p n hw hn⟩
    rw [Trie.search, hfind, hw]
    show (t.nodes[p]?).bind (fun n => some n.isWord) = some n.isWord
    rw [hn, Option.bind_some]

/-- **`StartsWith` finds the prefixes**, and always the empty one. -/
theorem Represents.startsWith (h : Represents t words) (w : List (Fin 26)) :
    ∃ b, t.startsWith (toWord w) = some b ∧ (b = true ↔ w = [] ∨ ∃ u ∈ words, w <+: u) := by
  refine ⟨(t.walk w).isSome, ?_, (h.shape.mem_paths w).symm⟩
  rw [Trie.startsWith, h.shape.find w]
  rfl

/-! ## Runs -/

/-- **Insertions add their words**, in any order and however often. -/
theorem Represents.insertAll (h : Represents t words) (ws : List (List (Fin 26))) :
    ∃ t', t.insertAll (ws.map toWord) = some t' ∧ Represents t' (words ∪ {w | w ∈ ws}) := by
  induction ws generalizing t words with
  | nil =>
    refine ⟨t, rfl, ?_⟩
    have heq : words ∪ {w | w ∈ ([] : List (List (Fin 26)))} = words :=
      Set.union_eq_self_of_subset_right fun w hw => absurd hw List.not_mem_nil
    rwa [heq]
  | cons w ws ih =>
    obtain ⟨t₁, ht₁, h₁⟩ := h.insert w
    obtain ⟨t', ht', h'⟩ := ih h₁
    refine ⟨t', ?_, ?_⟩
    · rw [Trie.insertAll, List.map_cons, List.foldlM_cons, ht₁]
      exact ht'
    · have heq : words ∪ {v | v ∈ w :: ws} = words ∪ {w} ∪ {v | v ∈ ws} := by
        ext v
        simp only [Set.mem_union, Set.mem_ofPred_eq, Set.mem_singleton_iff, List.mem_cons,
          or_assoc]
      rwa [heq]

theorem exists_map_toWord {words : List (List Char)} (hwords : ∀ w ∈ words, ∀ c ∈ w, IsLetter c) :
    ∃ ws : List (List (Fin 26)), ws.map toWord = words := by
  induction words with
  | nil => exact ⟨[], rfl⟩
  | cons word words ih =>
    obtain ⟨w, hw⟩ := exists_toWord (hwords word List.mem_cons_self)
    obtain ⟨ws, hws⟩ := ih fun v hv => hwords v (List.mem_cons_of_mem word hv)
    exact ⟨w :: ws, by rw [List.map_cons, hw, hws]⟩

/-- The answers of `t` are those of the set of `words`. -/
def Answers (t : Trie) (words : List (List Char)) : Prop :=
  ∀ w, (∀ c ∈ w, IsLetter c) → t.search w = some (decide (w ∈ words)) ∧
    t.startsWith w = some (decide (∃ u ∈ words, w <+: u))

theorem exists_answers {words : List (List Char)} (hne : words ≠ [])
    (hwords : ∀ w ∈ words, ∀ c ∈ w, IsLetter c) :
    ∃ t, construct.insertAll words = some t ∧ Answers t words := by
  obtain ⟨ws, rfl⟩ := exists_map_toWord hwords
  obtain ⟨t, ht, h⟩ := represents_construct.insertAll ws
  refine ⟨t, ht, fun word hword => ?_⟩
  obtain ⟨w, rfl⟩ := exists_toWord hword
  constructor
  · obtain ⟨b, hb, hiff⟩ := h.search w
    have hmem : w ∈ (∅ : Set (List (Fin 26))) ∪ {w | w ∈ ws} ↔ toWord w ∈ ws.map toWord := by
      rw [List.mem_map_of_injective toWord_injective, Set.empty_union]
      rfl
    rw [hb]
    exact congrArg some (Bool.eq_iff_iff.2 ((hiff.trans hmem).trans decide_eq_true_iff.symm))
  · obtain ⟨b, hb, hiff⟩ := h.startsWith w
    have hmem : (w = [] ∨ ∃ u ∈ (∅ : Set (List (Fin 26))) ∪ {w | w ∈ ws}, w <+: u) ↔
        ∃ u ∈ ws.map toWord, toWord w <+: u := by
      rw [Set.empty_union]
      constructor
      · intro hor
        rcases hor with rfl | ⟨u, hu, hpre⟩
        · obtain ⟨u, hu⟩ := List.exists_mem_of_ne_nil _ hne
          exact ⟨u, hu, List.nil_prefix⟩
        · exact ⟨toWord u, List.mem_map_of_mem hu, toWord_prefix_iff.2 hpre⟩
      · intro hp
        obtain ⟨_, hmem, hpre⟩ := hp
        obtain ⟨u, hu, rfl⟩ := List.mem_map.1 hmem
        exact Or.inr ⟨u, hu, toWord_prefix_iff.1 hpre⟩
    rw [hb]
    exact congrArg some (Bool.eq_iff_iff.2 ((hiff.trans hmem).trans decide_eq_true_iff.symm))

/-- **`Trie` is a set of words with prefix search.** After any insertions of words over `a` to
`z`, at least one, `Search` of a word over these letters is true exactly if it was inserted,
`StartsWith` exactly if it is a prefix of an inserted word, and any other insertions of the same
words, in another order or more than once, give a trie with the same answers. -/
theorem search_startsWith {words : List (List Char)} (hne : words ≠ [])
    (hwords : ∀ w ∈ words, ∀ c ∈ w, IsLetter c) :
    ∃ t, construct.insertAll words = some t ∧
      (∀ w, (∀ c ∈ w, IsLetter c) →
        t.search w = some (decide (w ∈ words)) ∧
        t.startsWith w = some (decide (∃ u ∈ words, w <+: u))) ∧
      ∀ words', (∀ w, w ∈ words' ↔ w ∈ words) → ∃ t', construct.insertAll words' = some t' ∧
        ∀ w, (∀ c ∈ w, IsLetter c) →
          t'.search w = t.search w ∧ t'.startsWith w = t.startsWith w := by
  obtain ⟨t, ht, hanswers⟩ := exists_answers hne hwords
  refine ⟨t, ht, hanswers, fun words' hsame => ?_⟩
  obtain ⟨u, hu⟩ := List.exists_mem_of_ne_nil words hne
  have hne' : words' ≠ [] := List.ne_nil_of_mem ((hsame u).2 hu)
  obtain ⟨t', ht', hanswers'⟩ := exists_answers hne' fun w hw => hwords w ((hsame w).1 hw)
  refine ⟨t', ht', fun w hw => ?_⟩
  rw [(hanswers w hw).1, (hanswers w hw).2, (hanswers' w hw).1, (hanswers' w hw).2]
  simp only [hsame, and_self]

/-- Two words that share a letter, and the empty word. -/
theorem search_startsWith_three :
    ∃ t, construct.insertAll [['a', 'b'], [], ['a', 'c']] = some t ∧
      t.search ['a'] = some false ∧ t.startsWith ['a'] = some true := by
  have hwords : ∀ w ∈ [['a', 'b'], [], ['a', 'c']], ∀ c ∈ w, IsLetter c := by
    simp [IsLetter]
  have ha : ∀ c ∈ ['a'], IsLetter c := by
    simp [IsLetter]
  obtain ⟨t, ht, hanswers, -⟩ := search_startsWith (by decide) hwords
  exact ⟨t, ht, (hanswers ['a'] ha).1, (hanswers ['a'] ha).2⟩

end Trie

end Naesala
