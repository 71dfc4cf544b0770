import Naesala.Library.Entries
import Naesala.Library.Fresh
import Naesala.Lockfree.ListProof

/-!
# The head of `LockfreeList` never overtakes its tail

With words that `combine` returns only once, a compare-exchange on `_head` or `_tail` that succeeds
finds a cell that nobody has written since the word was loaded. A stale link is still possible, as
`next` is reset to a plain `0`; but what it makes is a link into a node with no owner, and the node
it comes from is not on the path from `_head` to `_tail`, or is its end.

The invariant `Ordered` has three parts.

* `Shape` — the path, who owns what, and that links enter each node once (`Entries`); the links of
  the nodes that a `take` has removed and not reset yet do not count.
* the words: those that threads keep have never been in `_head` or `_tail` (`Fresh`).
* `Pc.HasRead` — what each thread has read of the node of `_tail` is so while `_tail` is what it
  was, and of `_head` likewise; and if the two differed, `_tail` has not come back to the node of
  `_head`, since nothing links there.

**Theorem (`head_behind_tail`).** In every run with such words, following `next` from the node of
`_head` comes to the node of `_tail`, and no node that a `take` has removed is on the way.
-/

namespace Naesala

namespace LockfreeList

variable {τ δ : Type} {s s' : State τ δ} {t u : τ} {l : List Ptr} {pc : Pc δ}
variable {seen seen' : Set Word} {gone : Set Ptr} {w : Word} {n node : Ptr}

/-! ## The invariant -/

/-- The nodes that a `take` has removed and not reset yet. -/
def State.taken (s : State τ δ) : Set Ptr := {n | ∃ t, (s.pc t).removed = some n}

/-- The path from the node of `_head` to that of `_tail` is `l`, and then that node. -/
structure Shape (s : State τ δ) (gone : Set Ptr) (l : List Ptr) : Prop where
  path : Linked s.link (pointer s.tail) (pointer s.head) l
  owned : Ownership 0 s.owns s.allocated (pointer s.tail :: l)
  entries : Entries 0 s.link gone s.owns s.allocated (pointer s.head)
  null : s.allocated 0 = false

/-- While `_tail` is `w`, its node links to `n`. -/
def State.AfterTail (s : State τ δ) (w : Word) (n : Ptr) : Prop :=
  n ≠ 0 ∧ (s.tail = w → s.link (pointer w) = n)

/-- While `_head` is `w`, its node links to `n`. -/
def State.AfterHead (s : State τ δ) (w : Word) (n : Ptr) : Prop :=
  n ≠ 0 ∧ (s.head = w → s.link (pointer w) = n)

/-- While `_head` is `w`, its node is not that of `_tail`. -/
def State.Behind (s : State τ δ) (w : Word) : Prop := s.head = w → pointer s.tail ≠ pointer w

/-- What a thread has read of the list, and which node it owns. -/
def Pc.HasRead (s : State τ δ) (seen : Set Word) (t : τ) : Pc δ → Prop
  | .putTail node => s.owns t node = true
  | .putNext node tail => s.owns t node = true ∧ tail ∈ seen
  | .putAdvance node tail tailNext =>
    s.owns t node = true ∧ tail ∈ seen ∧ s.AfterTail tail (pointer tailNext)
  | .putAdvanceCas node tail newTail =>
    s.owns t node = true ∧ tail ∈ seen ∧ s.AfterTail tail (pointer newTail)
  | .putCombine node tail tailNext =>
    s.owns t node = true ∧ tail ∈ seen ∧ pointer tailNext = 0
  | .putLink node tail tailNext newNext =>
    s.owns t node = true ∧ tail ∈ seen ∧ pointer tailNext = 0 ∧ pointer newNext = node
  | .putSwing node tail => tail ∈ seen ∧ s.AfterTail tail node
  | .putSwingCas tail newTail | .takeAdvanceCas tail newTail =>
    tail ∈ seen ∧ s.AfterTail tail (pointer newTail)
  | .takeTail head => head ∈ seen
  | .takeNext head tail =>
    head ∈ seen ∧ tail ∈ seen ∧ (pointer head ≠ pointer tail → s.Behind head)
  | .takeCheck head tail headNext =>
    head ∈ seen ∧ tail ∈ seen ∧ (pointer head ≠ pointer tail → s.Behind head) ∧
      (pointer headNext ≠ 0 → s.AfterHead head (pointer headNext) ∧
        (pointer head = pointer tail → s.AfterTail tail (pointer headNext)))
  | .takeAdvance tail headNext => tail ∈ seen ∧ s.AfterTail tail (pointer headNext)
  | .takeCopy head headNext | .takeCombine head headNext _ =>
    head ∈ seen ∧ s.Behind head ∧ s.AfterHead head (pointer headNext)
  | .takeCas head _ _ newHead =>
    head ∈ seen ∧ s.Behind head ∧ s.AfterHead head (pointer newHead)
  | .takeWrite head _ | .takeReset head => s.owns t head = true ∧ s.link head ≠ 0
  | .idle | .takeHead => True

/-- The word that a thread has drawn and not used yet. -/
def Pc.kept : Pc δ → Option Word
  | .putAdvanceCas _ _ w | .putLink _ _ _ w | .putSwingCas _ w | .takeAdvanceCas _ w
  | .takeCas _ _ _ w => some w
  | _ => none

/-- The words: `seen` are those that `_head` and `_tail` have held. -/
structure Drawn (s : State τ δ) (seen : Set Word) (kept : τ → Option Word) : Prop where
  fresh : Fresh (fun _ => True) s.words seen kept
  head : s.head ∈ seen
  tail : s.tail ∈ seen
  allocated : ∀ w ∈ seen, s.allocated (pointer w) = true

/-- The invariant of a list whose path is `l`. -/
structure Ordered (s : State τ δ) (seen : Set Word) (l : List Ptr) : Prop where
  shape : Shape s s.taken l
  drawn : Drawn s seen fun t => (s.pc t).kept
  read : ∀ t, (s.pc t).HasRead s seen t

/-- What one thread has read is still so, as long as the nodes of `_head` and `_tail` keep their
links. -/
theorem Pc.HasRead.frame (h : pc.HasRead s seen u) (hseen : seen ⊆ seen')
    (howns : ∀ n, s.owns u n = true → s'.owns u n = true)
    (hlink : ∀ n, s.owns u n = true → s.link n ≠ 0 → s'.link n ≠ 0)
    (htail : ∀ w ∈ seen, ∀ n, s.AfterTail w n → s'.AfterTail w n)
    (hhead : ∀ w ∈ seen, ∀ n, s.AfterHead w n → s'.AfterHead w n)
    (hbehind : ∀ w ∈ seen, s.Behind w → s'.Behind w) : pc.HasRead s' seen' u := by
  cases pc with
  | idle => trivial
  | putTail node => exact howns node h
  | putNext node tail => exact ⟨howns node h.1, hseen h.2⟩
  | putAdvance node tail tailNext =>
    exact ⟨howns node h.1, hseen h.2.1, htail tail h.2.1 _ h.2.2⟩
  | putAdvanceCas node tail newTail =>
    exact ⟨howns node h.1, hseen h.2.1, htail tail h.2.1 _ h.2.2⟩
  | putCombine node tail tailNext => exact ⟨howns node h.1, hseen h.2.1, h.2.2⟩
  | putLink node tail tailNext newNext => exact ⟨howns node h.1, hseen h.2.1, h.2.2⟩
  | putSwing node tail => exact ⟨hseen h.1, htail tail h.1 _ h.2⟩
  | putSwingCas tail newTail => exact ⟨hseen h.1, htail tail h.1 _ h.2⟩
  | takeHead => trivial
  | takeTail head => exact hseen h
  | takeNext head tail =>
    exact ⟨hseen h.1, hseen h.2.1, fun hne => hbehind head h.1 (h.2.2 hne)⟩
  | takeCheck head tail headNext =>
    refine ⟨hseen h.1, hseen h.2.1, fun hne => hbehind head h.1 (h.2.2.1 hne), fun hnull => ?_⟩
    obtain ⟨hhead', htail'⟩ := h.2.2.2 hnull
    exact ⟨hhead head h.1 _ hhead', fun heq => htail tail h.2.1 _ (htail' heq)⟩
  | takeAdvance tail headNext => exact ⟨hseen h.1, htail tail h.1 _ h.2⟩
  | takeAdvanceCas tail newTail => exact ⟨hseen h.1, htail tail h.1 _ h.2⟩
  | takeCopy head headNext =>
    exact ⟨hseen h.1, hbehind head h.1 h.2.1, hhead head h.1 _ h.2.2⟩
  | takeCombine head headNext bytes =>
    exact ⟨hseen h.1, hbehind head h.1 h.2.1, hhead head h.1 _ h.2.2⟩
  | takeCas head headNext bytes newHead =>
    exact ⟨hseen h.1, hbehind head h.1 h.2.1, hhead head h.1 _ h.2.2⟩
  | takeWrite head bytes => exact ⟨howns head h.1, hlink head h.1 h.2⟩
  | takeReset head => exact ⟨howns head h.1, hlink head h.1 h.2⟩

/-! ## What the steps do to the path -/

theorem Shape.mem_head (h : Shape s gone l) : pointer s.head ∈ pointer s.tail :: l := by
  cases l with
  | nil => exact List.mem_singleton.2 h.path
  | cons a l =>
    rw [h.path.head_eq]
    exact List.mem_cons_of_mem _ List.mem_cons_self

theorem Shape.link_ne_null (h : Shape s gone l) (hn : n ∈ l) : s.link n ≠ 0 := by
  intro hnull
  have hmem : s.link n ∈ pointer s.tail :: l := List.mem_cons.2 (h.path.next_mem hn)
  have halloc := h.owned.mem_allocated _ hmem
  rw [hnull, h.null] at halloc
  cases halloc

variable [DecidableEq τ]

/-- A node is linked behind one that links to nothing: the path stays, as that is its end or not
on it. -/
theorem Shape.link (h : Shape s gone l) {tail : Ptr} (ho : s.owns t node = true)
    (hw : pointer w = node) (htail : s.link tail = 0) (halloc : s.allocated tail = true)
    (e : Event τ δ) : Shape (((s.setNext tail w).record e).setOwns t node false) gone l := by
  refine ⟨?_, h.owned.disown t node, ?_, h.null⟩
  · show Linked (s.setNext tail w).link (pointer s.tail) (pointer s.head) l
    rw [link_setNext]
    refine h.path.update_of_notMem ?_
    intro hmem
    exact h.link_ne_null hmem htail
  · show Entries 0 (s.setNext tail w).link gone (updateOwns s.owns t node false) s.allocated
      (pointer s.head)
    rw [link_setNext, hw]
    exact h.entries.link h.owned h.mem_head ho htail halloc

omit [DecidableEq τ] in
theorem Shape.notMem_gone (h : Shape s gone l) (hgone : ∀ n ∈ gone, ∃ t, s.owns t n = true)
    (hn : n ∈ pointer s.tail :: l) : n ∉ gone := by
  intro hmem
  obtain ⟨t, ht⟩ := hgone n hmem
  exact h.owned.notMem ht hn

omit [DecidableEq τ] in
theorem Shape.swing (h : Shape s gone l) (hgone : ∀ n ∈ gone, ∃ t, s.owns t n = true)
    (hlink : s.link (pointer s.tail) = pointer w) (hw : pointer w ≠ 0) :
    Shape { s with tail := w } gone (l ++ [pointer s.tail]) := by
  have hnull : s.link (pointer s.tail) ≠ 0 := by rwa [hlink]
  have hmem := h.notMem_gone hgone List.mem_cons_self
  refine ⟨?_, h.owned.enter ?_, h.entries, h.null⟩
  · show Linked s.link (pointer w) (pointer s.head) (l ++ [pointer s.tail])
    rw [← hlink]
    exact h.entries.extend h.path (fun m hm => h.notMem_gone hgone hm) hnull
  · intro m hm
    rcases List.mem_cons.1 hm with rfl | hm
    · refine Or.inr ⟨fun t => ?_, ?_⟩
      · show s.owns t (pointer w) = false
        rw [← hlink]
        exact h.entries.unowned _ hmem hnull t
      · show s.allocated (pointer w) = true
        rw [← hlink]
        exact h.entries.mem_allocated _ hmem hnull
    · rw [List.mem_append, List.mem_singleton] at hm
      exact Or.inl (List.mem_cons.2 hm.symm)

theorem Shape.advance (h : Shape s gone l) (hgone : ∀ n ∈ gone, ∃ t, s.owns t n = true)
    (hbehind : pointer s.tail ≠ pointer s.head) (hlink : s.link (pointer s.head) = pointer w)
    (hw : pointer w ≠ 0) (t : τ) (e : Event τ δ) :
    ∃ r, Shape (({ s with head := w }.record e).setOwns t (pointer s.head) true)
      (insert (pointer s.head) gone) r := by
  have hnull : s.link (pointer s.head) ≠ 0 := by rwa [hlink]
  obtain ⟨r, rfl, hr⟩ := h.path.exists_cons hbehind.symm
  have hout := (List.nodup_cons.1 h.path.nodup).1
  refine ⟨r, ?_, ?_, ?_, h.null⟩
  · show Linked s.link (pointer s.tail) (pointer w) r
    rwa [← hlink]
  · refine h.owned.remove h.mem_head ?_ ?_ ?_ t
    · intro hzero
      have halloc := h.owned.mem_allocated _ h.mem_head
      rw [hzero, h.null] at halloc
      cases halloc
    · intro hmem
      rcases List.mem_cons.1 hmem with heq | hmem
      · exact hbehind heq.symm
      · exact hout hmem
    · intro m hm
      rcases List.mem_cons.1 hm with rfl | hm
      · exact List.mem_cons_self
      · exact List.mem_cons_of_mem _ (List.mem_cons_of_mem _ hm)
  · show Entries 0 s.link (insert (pointer s.head) gone)
      (updateOwns s.owns t (pointer s.head) true) s.allocated (pointer w)
    rw [← hlink]
    exact h.entries.remove (h.notMem_gone hgone h.mem_head) hnull t

omit [DecidableEq τ] in
theorem Shape.reset (h : Shape s gone l) (ho : s.owns t node = true) :
    Shape (s.setNext node 0) (gone \ {node}) l := by
  have hout : node ∉ l := fun hmem => h.owned.notMem ho (List.mem_cons_of_mem _ hmem)
  refine ⟨?_, h.owned, ?_, h.null⟩
  · rw [link_setNext]
    exact h.path.update_of_notMem hout
  · rw [link_setNext]
    refine h.entries.cut ?_
    intro n
    by_cases hn : n = node
    · subst hn
      exact Or.inr ((Function.update_self _ _ _).trans pointer_zero)
    · exact Or.inl ⟨Function.update_of_ne hn _ _, fun hmem => ⟨hmem, hn⟩⟩

/-! ## The step lemma -/

omit [DecidableEq τ] in
theorem Ordered.owned_of_taken (h : Ordered s seen l) : ∀ n ∈ s.taken, ∃ t, s.owns t n = true := by
  intro n hn
  obtain ⟨t, ht⟩ := hn
  have hread := h.read t
  refine ⟨t, ?_⟩
  cases hpc : s.pc t with
  | takeWrite head bytes =>
    rw [hpc] at ht hread
    exact Option.some.inj ht ▸ hread.1
  | takeReset head =>
    rw [hpc] at ht hread
    exact Option.some.inj ht ▸ hread.1
  | _ =>
    rw [hpc] at ht
    cases ht

/-- Only thread `t` moves: what the others have removed is still removed. -/
theorem taken_goto (hpc : s'.pc = s.pc) (hremoved : ∀ n ∈ gone, (s.pc t).removed ≠ some n)
    (hgone : gone ⊆ s.taken) : gone ⊆ (s'.goto t pc).taken := by
  intro n hn
  obtain ⟨u, hu⟩ := hgone hn
  have hne : u ≠ t := by
    intro heq
    subst heq
    exact hremoved n hn hu
  refine ⟨u, ?_⟩
  rw [State.goto_pc_ne _ hne, hpc]
  exact hu

omit [DecidableEq τ] in
theorem removed_of_idle (hidle : (s.pc t).isIdle = true) : (s.pc t).removed = none := by
  cases hpc : s.pc t with
  | idle => rfl
  | _ =>
    rw [hpc] at hidle
    cases hidle

theorem taken_goto_of_none (hpc : s'.pc = s.pc) (hremoved : (s.pc t).removed = none) :
    s.taken ⊆ (s'.goto t pc).taken := by
  refine taken_goto hpc (fun n _ => ?_) subset_rfl
  rw [hremoved]
  exact (Option.some_ne_none n).symm

/-- Thread `t` moves. A cell is what it was, or holds a word that nobody has seen; no link changes
but of what links to nothing or belongs to `t`. -/
theorem Ordered.goto {l' : List Ptr} (h : Ordered s seen l) (hpc : s'.pc = s.pc)
    (hshape : Shape s' gone l') (hgone : gone ⊆ (s'.goto t pc).taken)
    (hdrawn : Drawn s' seen' (Function.update (fun u => (s.pc u).kept) t pc.kept))
    (hseen : seen ⊆ seen')
    (htail : s'.tail = s.tail ∨ s'.tail ∉ seen ∧ pointer s'.tail ≠ pointer s.head)
    (hhead : s'.head = s.head ∨ s'.head ∉ seen)
    (howns : ∀ u, u ≠ t → ∀ n, s'.owns u n = s.owns u n)
    (hlink : ∀ n, s.link n ≠ 0 → s.owns t n = false → s'.link n = s.link n)
    (hread : pc.HasRead s' seen' t) : Ordered (s'.goto t pc) seen' l' := by
  have hkept : (fun u => ((s'.goto t pc).pc u).kept) =
      Function.update (fun u => (s.pc u).kept) t pc.kept := by
    funext u
    by_cases hu : u = t
    · subst hu
      rw [State.goto_pc_self, Function.update_self]
    · rw [State.goto_pc_ne _ hu, hpc, Function.update_of_ne hu]
  refine ⟨⟨hshape.path, hshape.owned, ?_, hshape.null⟩, ?_, ?_⟩
  · exact hshape.entries.mono hgone (fun _ _ _ _ hn => hn) fun _ hn => hn
  · rw [hkept]
    exact ⟨hdrawn.fresh, hdrawn.head, hdrawn.tail, hdrawn.allocated⟩
  intro u
  by_cases hu : u = t
  · subst hu
    rw [State.goto_pc_self]
    exact hread
  · rw [State.goto_pc_ne _ hu, hpc]
    show (s.pc u).HasRead s' seen' u
    refine (h.read u).frame hseen (fun n hn => (howns u hu n).trans hn) ?_ ?_ ?_ ?_
    · intro n hn hnull
      have hnot : s.owns t n = false := by
        rw [← Bool.not_eq_true]
        exact fun hnt => hu (h.shape.owned.exclusive u t n hn hnt)
      rwa [hlink n hnull hnot]
    -- a word that `t` has seen is in `_tail` now only if it was there before
    · intro w hw n hafter
      refine ⟨hafter.1, fun heq => ?_⟩
      rcases htail with hsame | hnew
      · have hlast := hafter.2 (hsame.symm.trans heq)
        have hmem : pointer w ∈ pointer s.tail :: l := by
          rw [← heq, hsame]
          exact List.mem_cons_self
        rw [hlink _ (by rw [hlast]; exact hafter.1) (h.shape.owned.unowned _ hmem t), hlast]
      · exact absurd (heq ▸ hw) hnew.1
    -- the same of `_head`, whose node is on the path, so that nobody owns it
    · intro w hw n hafter
      refine ⟨hafter.1, fun heq => ?_⟩
      rcases hhead with hsame | hnew
      · have hfirst := hafter.2 (hsame.symm.trans heq)
        have hmem : pointer w ∈ pointer s.tail :: l := by
          rw [← heq, hsame]
          exact h.shape.mem_head
        rw [hlink _ (by rw [hfirst]; exact hafter.1) (h.shape.owned.unowned _ hmem t), hfirst]
      · exact absurd (heq ▸ hw) hnew
    · intro w hw hbehind heq
      rcases hhead with hsame | hnew
      · have hold := hbehind (hsame.symm.trans heq)
        rcases htail with htail' | htail'
        · rwa [htail']
        · rw [← heq, hsame]
          exact htail'.2
      · exact absurd (heq ▸ hw) hnew

/-- What the path depends on. -/
def State.core (s : State τ δ) :=
  (s.head, s.tail, s.next, s.owns, s.allocated, s.words, s.pc)

/-- Thread `t` moves, and neither the path nor the words change. It keeps no word. -/
theorem Ordered.quiet (h : Ordered s seen l) (hcore : s'.core = s.core)
    (hremoved : (s.pc t).removed = none ∨ pc.removed = (s.pc t).removed) (hkept : pc.kept = none)
    (hread : pc.HasRead s seen t) : Ordered (s'.goto t pc) seen l := by
  simp only [State.core, Prod.mk.injEq] at hcore
  obtain ⟨hhead, htail, hnext, howns, hallocated, hwords, hpc⟩ := hcore
  have hlink : s'.link = s.link := by
    funext n
    rw [State.link, State.link, hnext]
  have hgone : s.taken ⊆ (s'.goto t pc).taken := by
    rcases hremoved with hnone | hsame
    · exact taken_goto_of_none hpc hnone
    · intro n hn
      obtain ⟨u, hu⟩ := hn
      refine ⟨u, ?_⟩
      by_cases hut : u = t
      · subst hut
        rw [State.goto_pc_self, hsame, hu]
      · rw [State.goto_pc_ne _ hut, hpc, hu]
  refine h.goto hpc ?_ hgone ?_ subset_rfl (Or.inl htail) (Or.inl hhead)
    (fun u _ n => by rw [howns]) (fun n _ _ => by rw [hlink]) ?_
  · refine ⟨?_, ?_, ?_, ?_⟩
    · rw [hlink, htail, hhead]
      exact h.shape.path
    · rw [htail, howns, hallocated]
      exact h.shape.owned
    · rw [hlink, howns, hallocated, hhead]
      exact h.shape.entries
    · rw [hallocated]
      exact h.shape.null
  · refine ⟨?_, ?_, ?_, ?_⟩
    · rw [hwords]
      refine h.drawn.fresh.mono ?_
      intro u v hv
      by_cases hu : u = t
      · subst hu
        rw [Function.update_self, hkept] at hv
        cases hv
      · rwa [Function.update_of_ne hu] at hv
    · rw [hhead]
      exact h.drawn.head
    · rw [htail]
      exact h.drawn.tail
    · rw [hallocated]
      exact h.drawn.allocated
  · refine hread.frame subset_rfl (fun n hn => by rwa [howns]) (fun n _ hn => by rwa [hlink])
      (fun v _ n hv => ?_) (fun v _ n hv => ?_) (fun v _ hv => ?_)
    · rwa [State.AfterTail, htail, hlink]
    · rwa [State.AfterHead, hhead, hlink]
    · rwa [State.Behind, hhead, htail]

theorem Ordered.draw {p : Ptr} (h : Ordered s seen l) (hremoved : (s.pc t).removed = none)
    (hkept : pc.kept = some (combine p s.version))
    (hnodup : (combine p s.version :: s.words).Nodup) (hread : pc.HasRead s seen t) :
    Ordered ((s.combined p).1.goto t pc) seen l := by
  refine h.goto rfl ⟨h.shape.path, h.shape.owned, h.shape.entries, h.shape.null⟩
    (taken_goto_of_none rfl hremoved) ?_ subset_rfl (Or.inl rfl) (Or.inl rfl) (fun _ _ _ => rfl)
    (fun _ _ _ => rfl) ?_
  · refine ⟨?_, h.drawn.head, h.drawn.tail, h.drawn.allocated⟩
    refine h.drawn.fresh.issue (t := t) (List.subset_cons_self _ _)
      (fun _ => ⟨List.mem_cons_self, (List.nodup_cons.1 hnodup).1⟩) ?_ ?_
    · intro u hu
      exact Function.update_of_ne hu _ _
    · rw [Function.update_self, hkept]
  · exact hread.frame subset_rfl (fun _ hn => hn) (fun _ _ hn => hn) (fun _ _ _ hv => hv)
      (fun _ _ _ hv => hv) fun _ _ hv => hv

theorem Ordered.casTail {tail : Word} (h : Ordered s seen l)
    (hremoved : (s.pc t).removed = none) (hkept : (s.pc t).kept = some w)
    (hafter : s.AfterTail tail (pointer w)) (hkept' : pc.kept = none)
    (hread : ∀ s' : State τ δ, s'.owns = s.owns → ∀ seen', pc.HasRead s' seen' t) :
    ∃ seen' l', Ordered ((s.casTail tail w).goto t pc) seen' l' := by
  by_cases heq : s.tail = tail
  · rw [State.casTail, if_pos heq]
    have hlink : s.link (pointer s.tail) = pointer w := by
      rw [heq]
      exact hafter.2 heq
    have hnull : s.link (pointer s.tail) ≠ 0 := by
      rw [hlink]
      exact hafter.1
    have hmem := h.shape.notMem_gone h.owned_of_taken List.mem_cons_self
    refine ⟨insert w seen, l ++ [pointer s.tail],
      h.goto rfl (h.shape.swing h.owned_of_taken hlink hafter.1) (taken_goto_of_none rfl hremoved)
        ?_ (Set.subset_insert _ _) (Or.inr ⟨?_, ?_⟩) (Or.inl rfl) (fun _ _ _ => rfl)
        (fun _ _ _ => rfl) ?_⟩
    · refine ⟨?_, Set.mem_insert_of_mem _ h.drawn.head, Set.mem_insert _ _, ?_⟩
      · refine h.drawn.fresh.install (t := t) hkept ?_ ?_
        · intro u hu
          exact Function.update_of_ne hu _ _
        · rw [Function.update_self, hkept']
      · intro v hv
        rcases Set.mem_insert_iff.1 hv with rfl | hv
        · rw [← hlink]
          exact h.shape.entries.mem_allocated _ hmem hnull
        · exact h.drawn.allocated v hv
    · exact h.drawn.fresh.pending_not_seen t w hkept trivial
    · show pointer w ≠ pointer s.head
      rw [← hlink]
      exact h.shape.entries.ne_first _ hmem hnull
    · refine hread _ ?_ _
      rfl
  · rw [State.casTail, if_neg heq]
    exact ⟨seen, l, h.quiet rfl (Or.inl hremoved) hkept' (hread s rfl seen)⟩

theorem Drawn.drop {kept : τ → Option Word} (h : Drawn s seen kept) (t : τ) :
    Drawn s seen (Function.update kept t none) := by
  refine ⟨h.fresh.mono ?_, h.head, h.tail, h.allocated⟩
  intro u v hv
  by_cases hu : u = t
  · subst hu
    rw [Function.update_self] at hv
    cases hv
  · rwa [Function.update_of_ne hu] at hv

theorem Ordered.link {tail tailNext newNext : Word} (h : Ordered s seen l)
    (hpc : s.pc t = .putLink node tail tailNext newNext)
    (hnext : s.next (pointer tail) = tailNext) (e : Event τ δ) :
    Ordered ((((s.setNext (pointer tail) newNext).record e).setOwns t node false).goto t
      (.putSwing node tail)) seen l := by
  have hread := h.read t
  rw [hpc] at hread
  obtain ⟨ho, htail, hnull, hnew⟩ := hread
  have hzero : s.link (pointer tail) = 0 := by rw [State.link, hnext, hnull]
  have hlink : (((s.setNext (pointer tail) newNext).record e).setOwns t node false).link =
      Function.update s.link (pointer tail) node := by
    rw [← hnew]
    exact link_setNext s (pointer tail) newNext
  have hdrawn := h.drawn.drop t
  refine h.goto rfl (h.shape.link ho hnew hzero (h.drawn.allocated tail htail) e)
    (taken_goto_of_none rfl (by rw [hpc]; rfl))
    ⟨hdrawn.fresh, hdrawn.head, hdrawn.tail, hdrawn.allocated⟩ subset_rfl (Or.inl rfl) (Or.inl rfl)
    (fun u hu n => updateOwns_of_ne hu _) ?_ ?_
  · intro n hn _
    have hne : n ≠ pointer tail := by
      intro heq
      subst heq
      exact hn hzero
    rw [hlink, Function.update_of_ne hne]
  · refine ⟨htail, h.shape.owned.ne_null t node ho, fun _ => ?_⟩
    rw [hlink, Function.update_self]

theorem Ordered.claim {head headNext newHead : Word} {bytes : δ} (h : Ordered s seen l)
    (hpc : s.pc t = .takeCas head headNext bytes newHead) (heq : s.head = head) (e : Event τ δ) :
    ∃ seen' l', Ordered ((({ s with head := newHead }.record e).setOwns t (pointer head)
      true).goto t (.takeWrite (pointer head) bytes)) seen' l' := by
  subst heq
  have hread := h.read t
  rw [hpc] at hread
  obtain ⟨-, hbehind, hnull, hafter⟩ := hread
  have hkept : (s.pc t).kept = some newHead := by rw [hpc]; rfl
  obtain ⟨r, hr⟩ := h.shape.advance h.owned_of_taken (hbehind rfl) (hafter rfl) hnull t e
  have hlast : s.link (pointer s.head) ≠ 0 := by rwa [hafter rfl]
  refine ⟨insert newHead seen, r, h.goto rfl hr ?_ ?_ (Set.subset_insert _ _) (Or.inl rfl)
    (Or.inr (h.drawn.fresh.pending_not_seen t newHead hkept trivial))
    (fun u hu n => updateOwns_of_ne hu _) (fun _ _ _ => rfl) ⟨?_, hlast⟩⟩
  · refine Set.insert_subset ⟨t, ?_⟩ (taken_goto_of_none rfl (by rw [hpc]; rfl))
    rw [State.goto_pc_self]
    rfl
  · refine ⟨?_, Set.mem_insert _ _, Set.mem_insert_of_mem _ h.drawn.tail, ?_⟩
    · refine h.drawn.fresh.install (t := t) hkept ?_ ?_
      · intro u hu
        exact Function.update_of_ne hu _ _
      · exact Function.update_self _ _ _
    · intro v hv
      rcases Set.mem_insert_iff.1 hv with rfl | hv
      · show s.allocated (pointer v) = true
        rw [← hafter rfl]
        exact h.shape.entries.mem_allocated _
          (h.shape.notMem_gone h.owned_of_taken h.shape.mem_head) hlast
      · exact h.drawn.allocated v hv
  · show updateOwns s.owns t (pointer s.head) true t (pointer s.head) = true
    rw [updateOwns_apply, if_pos ⟨rfl, rfl⟩]

theorem Ordered.reset (h : Ordered s seen l) (hpc : s.pc t = .takeReset node) :
    Ordered ((s.setNext node 0).goto t .idle) seen l := by
  have hread := h.read t
  rw [hpc] at hread
  have hdrawn := h.drawn.drop t
  refine h.goto rfl (h.shape.reset hread.1) (taken_goto rfl ?_ Set.sdiff_subset)
    ⟨hdrawn.fresh, hdrawn.head, hdrawn.tail, hdrawn.allocated⟩ subset_rfl (Or.inl rfl) (Or.inl rfl)
    (fun _ _ _ => rfl) ?_ trivial
  · intro n hn hremoved
    have hsame : (s.pc t).removed = some n := hremoved
    rw [hpc] at hsame
    exact hn.2 (Option.some.inj hsame).symm
  · intro n _ hn
    have hne : n ≠ node := by
      intro heq
      subst heq
      rw [hread.1] at hn
      cases hn
    rw [link_setNext, Function.update_of_ne hne]

omit [DecidableEq τ] in
/-- What a thread loads is what `_head` and `_tail` are now, and what their nodes link to. -/
theorem Reads.hasRead {spurious : Bool} {pc pc' : Pc δ} (hr : Reads s spurious pc pc')
    (hhead : s.head ∈ seen) (htail : s.tail ∈ seen) (h : pc.HasRead s seen t) :
    pc'.HasRead s seen t := by
  cases hr with
  | tail => exact ⟨h, htail⟩
  | lags hnull => exact ⟨h.1, h.2, hnull, fun _ => rfl⟩
  | last hnull => exact ⟨h.1, h.2, hnull⟩
  | linkFails => exact h.1
  | head => exact hhead
  | headTail => exact ⟨h, htail, fun hne _ => hne.symm⟩
  | headNext =>
    refine ⟨h.1, h.2.1, h.2.2, fun hnull => ⟨⟨hnull, fun _ => rfl⟩, fun heq => ?_⟩⟩
    exact ⟨hnull, fun _ => by rw [← heq]; rfl⟩
  | behind _ hsame hnull => exact ⟨h.2.1, (h.2.2.2 hnull).2 hsame⟩
  | filled _ hne hnull => exact ⟨h.1, h.2.2.1 hne, (h.2.2.2 hnull).1⟩
  | copy => exact h
  | moved | alone | claimFails => trivial

omit [DecidableEq τ] in
/-- The word that a thread draws points to what the node that it has read links to. -/
theorem Draws.hasRead {pc : Pc δ} {p : Ptr} {next : Word → Pc δ} (hd : Draws pc p next)
    (h : pc.HasRead s seen t) (hw : pointer w = p) : (next w).HasRead s seen t := by
  cases hd with
  | lags => exact ⟨h.1, h.2.1, by rw [hw]; exact h.2.2⟩
  | link => exact ⟨h.1, h.2.1, h.2.2, hw⟩
  | swing | behind => exact ⟨h.1, by rw [hw]; exact h.2⟩
  | claim => exact ⟨h.1, h.2.1, by rw [hw]; exact h.2.2⟩

omit [DecidableEq τ] in
theorem Reads.kept {spurious : Bool} {pc pc' : Pc δ} (hr : Reads s spurious pc pc') :
    pc'.kept = none := by
  cases hr <;> rfl

theorem Draws.kept {pc : Pc δ} {p : Ptr} {next : Word → Pc δ} (hd : Draws pc p next) (w : Word) :
    (next w).kept = some w := by
  cases hd <;> rfl

theorem Swings.kept {pc pc' : Pc δ} {tail newTail : Word} (hs : Swings pc tail newTail pc') :
    pc.kept = some newTail ∧ pc'.kept = none := by
  cases hs <;> exact ⟨rfl, rfl⟩

omit [DecidableEq τ] in
/-- The word that a thread swings `_tail` to points to the node after it. -/
theorem Swings.afterTail {pc pc' : Pc δ} {tail newTail : Word} (hs : Swings pc tail newTail pc')
    (h : pc.HasRead s seen t) : s.AfterTail tail (pointer newTail) := by
  cases hs with
  | lags => exact h.2.2
  | linked | behind => exact h.2

omit [DecidableEq τ] in
theorem Swings.hasRead {pc pc' : Pc δ} {tail newTail : Word} (hs : Swings pc tail newTail pc')
    (h : pc.HasRead s seen t) (howns : s'.owns = s.owns) : pc'.HasRead s' seen' t := by
  cases hs with
  | lags =>
    show s'.owns t _ = true
    rw [howns]
    exact h.1
  | linked | behind => trivial

theorem Ordered.advance {spurious : Bool} (h : Ordered s seen l)
    (hst : s.advance t spurious = some s') (hnodup : s'.words.Nodup) :
    ∃ seen' l', Ordered s' seen' l' := by
  have hread := h.read t
  cases stepped_of_advance hst with
  | reads hr =>
    exact ⟨seen, l, h.quiet rfl (.inl hr.removed.1) hr.kept
      (hr.hasRead h.drawn.head h.drawn.tail hread)⟩
  | draws hd =>
    exact ⟨seen, l, h.draw (hd.removed 0).1 (hd.kept _) hnodup
      (hd.hasRead hread (pointer_combine _ _))⟩
  | swings hs =>
    exact h.casTail hs.removed.1 hs.kept.1 (hs.afterTail hread) hs.kept.2
      fun _ howns _ => hs.hasRead hread howns
  | links hpc hcas => exact ⟨seen, l, h.link hpc hcas _⟩
  | empty hpc => exact ⟨seen, l, h.quiet rfl (.inl (by rw [hpc]; rfl)) rfl trivial⟩
  | claims hpc hcas => exact h.claim hpc hcas _
  | writes hpc =>
    rw [hpc] at hread
    exact ⟨seen, l, h.quiet rfl (.inr (by rw [hpc]; rfl)) rfl hread⟩
  | resets hpc => exact ⟨seen, l, h.reset hpc⟩

omit [DecidableEq τ] in
/-- Threads between calls change memory, but no link that is there and no cell. -/
theorem Ordered.use (h : Ordered s seen l) (hpc : s'.pc = s.pc) (hhead : s'.head = s.head)
    (htail : s'.tail = s.tail) (hwords : s'.words = s.words)
    (howned : Ownership 0 s'.owns s'.allocated (pointer s'.tail :: l))
    (hentries : Entries 0 s'.link s.taken s'.owns s'.allocated (pointer s'.head))
    (hnull : s'.allocated 0 = false)
    (hallocated : ∀ n, s.allocated n = true → s'.allocated n = true)
    (howns : ∀ u n, (s.pc u).isIdle = false → s.owns u n = true → s'.owns u n = true)
    (hlink : ∀ n, s.link n ≠ 0 → s'.link n = s.link n) : Ordered s' seen l := by
  have htaken : s'.taken = s.taken := by rw [State.taken, State.taken, hpc]
  refine ⟨⟨?_, howned, ?_, hnull⟩, ⟨?_, ?_, ?_, ?_⟩, ?_⟩
  · rw [htail, hhead]
    exact h.shape.path.congr fun n hn => hlink n (h.shape.link_ne_null hn)
  · rw [htaken]
    exact hentries
  · rw [hwords, hpc]
    exact h.drawn.fresh
  · rw [hhead]
    exact h.drawn.head
  · rw [htail]
    exact h.drawn.tail
  · exact fun w hw => hallocated _ (h.drawn.allocated w hw)
  intro u
  rw [hpc]
  by_cases hidle : (s.pc u).isIdle = true
  · cases hpcu : s.pc u with
    | idle => trivial
    | _ =>
      rw [hpcu] at hidle
      cases hidle
  · have hbusy : (s.pc u).isIdle = false := by simpa using hidle
    refine (h.read u).frame subset_rfl (fun n hn => howns u n hbusy hn) ?_ ?_ ?_ ?_
    · intro n _ hn
      rwa [hlink n hn]
    · intro w _ n hafter
      refine ⟨hafter.1, fun heq => ?_⟩
      have hold := hafter.2 (htail.symm.trans heq)
      rw [hlink _ (by rw [hold]; exact hafter.1), hold]
    · intro w _ n hafter
      refine ⟨hafter.1, fun heq => ?_⟩
      have hold := hafter.2 (hhead.symm.trans heq)
      rw [hlink _ (by rw [hold]; exact hafter.1), hold]
    · intro w _ hbehind
      rwa [State.Behind, hhead, htail]

/-- **The step lemma**, for steps that draw no word twice. -/
theorem Ordered.step (h : Ordered s seen l) (a : Action τ δ) (hst : s.step a = some s')
    (hnodup : s'.words.Nodup) : ∃ seen' l', Ordered s' seen' l' := by
  have hS := h.shape
  cases a with
  | new t node payload =>
    simp only [State.step] at hst
    split_ifs at hst with hnew
    cases hst
    obtain ⟨-, hnull, halloc⟩ := hnew
    -- a node that is not in use links to nothing, so the constructor changes no link
    have hzero : s.link node = 0 := hS.entries.unused node halloc
    have hlink : ((({ s with allocated := Function.update s.allocated node true }.setNext node
        0).setData node payload).setOwns t node true).link = s.link := by
      show (({ s with allocated := Function.update s.allocated node true } : State τ δ).setNext
        node 0).link = s.link
      rw [link_setNext]
      show Function.update s.link node (pointer 0) = s.link
      rw [pointer_zero, ← hzero, Function.update_eq_self]
    have hmono : ∀ n, s.allocated n = true → Function.update s.allocated node true n = true := by
      intro n hn
      by_cases hnn : n = node
      · rw [hnn, Function.update_self]
      · rwa [Function.update_of_ne hnn]
    refine ⟨seen, l, h.use rfl rfl rfl rfl (hS.owned.allocate hnull halloc t) ?_ ?_ hmono ?_ ?_⟩
    · rw [hlink]
      refine hS.entries.mono subset_rfl ?_ hmono
      intro n hn hlinked u hu
      have hne : s.link n ≠ node := by
        intro heq
        have hmem := hS.entries.mem_allocated n hn hlinked
        rw [heq, halloc] at hmem
        cases hmem
      have hu' : updateOwns s.owns t node true u (s.link n) = true := hu
      rwa [updateOwns_apply, if_neg fun heq => hne heq.2] at hu'
    · exact (Function.update_of_ne hnull.symm _ _).trans hS.null
    · intro u n _ hn
      show updateOwns s.owns t node true u n = true
      rw [updateOwns_apply]
      split_ifs
      · rfl
      · exact hn
    · intro n _
      rw [hlink]
  | write t node payload =>
    simp only [State.step] at hst
    split_ifs at hst
    cases hst
    exact ⟨seen, l, h.use rfl rfl rfl rfl hS.owned hS.entries hS.null (fun _ hn => hn)
      (fun _ _ _ hn => hn) fun _ _ => rfl⟩
  | give t u node =>
    simp only [State.step, State.mayUse, Bool.and_eq_true] at hst
    split_ifs at hst with huse
    cases hst
    obtain ⟨hidle, ho⟩ := huse
    refine ⟨seen, l, h.use rfl rfl rfl rfl (hS.owned.give ho u) ?_ hS.null (fun _ hn => hn) ?_
      fun _ _ => rfl⟩
    · refine hS.entries.mono subset_rfl ?_ fun _ hn => hn
      intro n hn hlinked v hv
      -- what is linked to has no owner, and `node` has one
      have hne : s.link n ≠ node := by
        intro heq
        have hfree := hS.entries.unowned n hn hlinked t
        rw [heq, ho] at hfree
        cases hfree
      have hv' : updateOwns (updateOwns s.owns t node false) u node true v (s.link n) = true := hv
      rwa [updateOwns_apply, if_neg fun heq => hne heq.2, updateOwns_apply,
        if_neg fun heq => hne heq.2] at hv'
    · -- only threads in a call have to keep what they own, and `t` is in none
      intro v n hbusy hn
      have hvt : v ≠ t := by
        intro heq
        subst heq
        rw [hidle] at hbusy
        cases hbusy
      show updateOwns (updateOwns s.owns t node false) u node true v n = true
      rw [updateOwns_apply]
      split_ifs
      · rfl
      · rw [updateOwns_of_ne hvt]
        exact hn
  | put t node =>
    simp only [State.step, State.mayUse, Bool.and_eq_true] at hst
    split_ifs at hst with huse
    cases hst
    exact ⟨seen, l, h.quiet rfl (Or.inl (removed_of_idle huse.1)) rfl huse.2⟩
  | take t =>
    simp only [State.step] at hst
    split_ifs at hst with hidle
    cases hst
    exact ⟨seen, l, h.quiet rfl (Or.inl (removed_of_idle hidle)) rfl trivial⟩
  | step t spurious => exact h.advance hst hnodup

theorem Ordered.init {dummy : Ptr} (hdummy : dummy ≠ 0) (payload : δ) :
    Ordered (lockfreeList τ dummy payload).init {combine dummy 0} [] where
  shape := by
    refine ⟨rfl, .of_unowned ?_, .of_null fun _ => pointer_zero, ?_⟩
    · intro n hn
      refine decide_eq_true ?_
      rw [List.mem_singleton.1 hn]
      exact pointer_combine _ _
    · exact decide_eq_false hdummy.symm
  drawn := by
    refine ⟨⟨?_, ?_, ?_, ?_⟩, rfl, rfl, ?_⟩
    · intro w hw _
      exact List.mem_singleton.2 hw
    · intro t w hw
      cases hw
    · intro t w hw
      cases hw
    · intro t u w hw
      cases hw
    · intro w hw
      rw [Set.mem_singleton_iff.1 hw]
      exact decide_eq_true (pointer_combine _ _)
  read _ := trivial

theorem words_sublist (a : Action τ δ) (hst : s.step a = some s') : s.words.Sublist s'.words := by
  have hcas : ∀ expected w t pc, s.words.Sublist ((s.casTail expected w).goto t pc).words := by
    intro expected w t pc
    unfold State.casTail
    split_ifs <;> exact List.Sublist.refl _
  cases a with
  | step t spurious =>
    cases stepped_of_advance hst with
    | draws => exact List.sublist_cons_self _ _
    | swings => exact hcas _ _ _ _
    | _ => exact List.Sublist.refl _
  | _ =>
    simp only [State.step] at hst
    split_ifs at hst
    cases hst
    exact List.Sublist.refl _

/-- **The head never overtakes the tail.** In a run in which no two `combine` calls return the same
word, following `next` from the node of `_head` visits some nodes `l` and comes to the node of
`_tail`; and what a `take` has removed and not returned yet is none of them. -/
theorem head_behind_tail {dummy : Ptr} (hdummy : dummy ≠ 0) {payload : δ} {s : State τ δ}
    (hs : (lockfreeList τ dummy payload).Reachable s) (hwords : s.words.Nodup) :
    ∃ l, Linked s.link (pointer s.tail) (pointer s.head) l ∧
      ∀ t n, (s.pc t).removed = some n → n ≠ pointer s.tail ∧ n ∉ l := by
  have hinv : s.words.Nodup → ∃ seen l, Ordered s seen l := by
    refine hs.invariant (I := fun s => s.words.Nodup → ∃ seen l, Ordered s seen l)
      (fun _ => ⟨_, _, .init hdummy payload⟩) ?_
    intro s a s' ih _ hst hnodup
    obtain ⟨seen, l, h⟩ := ih (hnodup.sublist (words_sublist a hst))
    exact h.step a hst hnodup
  obtain ⟨seen, l, h⟩ := hinv hwords
  refine ⟨l, h.shape.path, fun t n hremoved => ?_⟩
  have hout : n ∉ pointer s.tail :: l :=
    fun hmem => h.shape.notMem_gone h.owned_of_taken hmem ⟨t, hremoved⟩
  exact ⟨fun heq => hout (heq ▸ List.mem_cons_self), fun hmem => hout (List.mem_cons_of_mem _ hmem)⟩

/-- Thread `1` has linked node `2` and not swung `_tail` when thread `2` links node `3`, which
swings it, and thread `3` removes the dummy `1`. -/
theorem head_behind_tail_take :
    ∃ s : State ℕ ℕ, (lockfreeList ℕ 1 0).Reachable s ∧ (s.pc 3).removed = some 1 ∧
      pointer s.head = 2 ∧ pointer s.tail = 3 ∧
      ∃ l, Linked s.link 3 2 l ∧ 1 ∉ l := by
  have hrun := (lockfreeList ℕ 1 0).reach_of_run (fun _ _ => True)
    ([.new 1 2 20, .new 2 3 30, .put 1 2] ++ List.replicate 4 (.step 1 false) ++
      .put 2 3 :: List.replicate 10 (.step 2 false) ++ .take 3 :: List.replicate 7 (.step 3 false))
    rfl
  obtain ⟨l, hpath, hout⟩ := head_behind_tail (by decide) hrun (by decide)
  exact ⟨_, hrun, rfl, by decide, by decide, l, hpath, (hout 3 1 rfl).2⟩

end LockfreeList

end Naesala
