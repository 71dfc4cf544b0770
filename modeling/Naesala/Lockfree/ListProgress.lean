import Mathlib.Data.Set.Card
import Naesala.Library.Potential
import Naesala.Lockfree.ListOrder

/-!
# `LockfreeList` is lock-free

As for the stack, `State.distance s t` is the number of steps until a call of thread `t` takes
effect, if the thread is left alone; but here two things may hold it up. What it has loaded of
`_head`, `_tail` and `next` may be out of date, because of a call that has taken effect. Or `_tail`
lags behind: then the thread swings it, which is no effect, and starts its loop again.

`State.ahead` are the nodes that link on, but that neither the path from `_head` to `_tail` has come
to nor a `take` has removed. Only a `put` that takes effect makes a new one, and every swing of
`_tail` takes one away; so there are no more swings than `put`s, and the number of these nodes pays
for them.

The words have to be unique, as in `head_behind_tail`: this is what makes `_tail` swing along links
only. It also settles a branch of `take`, which goes back to its start when `_head` has not changed
and its node, which is not that of `_tail`, has no next one. That is a loop without an effect; but
a thread never comes there (`head_next_ne_null`).

**Theorem (`put_take_lock_free`).** In every run with such words, the steps that a thread takes are
at most `7`, and `16` for each call that takes effect, by whatever thread, and `7` for each
compare-exchange of the thread that fails spuriously.
-/

namespace Naesala

namespace LockfreeList

variable {τ δ : Type} {s s' : State τ δ} {t u : τ} {l : List Ptr} {pc : Pc δ} {seen : Set Word}

/-- A step of a call of thread `t`. -/
def Action.stepOf [DecidableEq τ] (t : τ) : Action τ δ → Bool
  | .step u _ => u = t
  | _ => false

/-- A step of thread `t` whose compare-exchange, if it is a weak one, fails spuriously. -/
def Action.spuriousOf [DecidableEq τ] (t : τ) : Action τ δ → Bool
  | .step u spurious => u = t && spurious
  | _ => false

/-! ## The potential -/

/-- The steps until a call takes effect or `_tail` is swung, if the thread is left alone. -/
def Pc.distance (s : State τ δ) : Pc δ → ℕ
  | .idle | .takeHead => 7
  | .putTail _ => 4
  | .putNext _ tail => if s.link (pointer tail) = 0 ∨ tail = s.tail then 3 else 7
  | .putAdvance _ tail _ => if tail = s.tail then 2 else 6
  | .putAdvanceCas _ tail _ => if tail = s.tail then 1 else 5
  | .putCombine _ tail tailNext => if s.next (pointer tail) = tailNext then 2 else 6
  | .putLink _ tail tailNext _ => if s.next (pointer tail) = tailNext then 1 else 5
  -- after the effect, the rest of the call and the way to the next one
  | .putSwing _ _ | .takeWrite _ _ => 9
  | .putSwingCas _ _ | .takeReset _ => 8
  | .takeTail head => if head = s.head then 6 else 13
  | .takeNext head tail => if head = s.head ∧ tail = s.tail then 5 else 12
  | .takeCheck head tail _ => if head = s.head ∧ tail = s.tail then 4 else 11
  | .takeAdvance tail _ => if tail = s.tail then 2 else 9
  | .takeAdvanceCas tail _ => if tail = s.tail then 1 else 8
  | .takeCopy head _ => if head = s.head then 3 else 10
  | .takeCombine head _ _ => if head = s.head then 2 else 9
  | .takeCas head _ _ _ => if head = s.head then 1 else 8

def State.distance (s : State τ δ) (t : τ) : ℕ := (s.pc t).distance s

/-- The nodes on the path from `_head` to `_tail`, without the last. -/
def State.onPath (s : State τ δ) : Set Ptr :=
  {n | ∃ l, Linked s.link (pointer s.tail) (pointer s.head) l ∧ n ∈ l}

/-- The nodes that link on, and that neither the path nor a `take` has passed. -/
def State.ahead (s : State τ δ) : Set Ptr := {n | s.link n ≠ 0 ∧ n ∉ s.taken ∧ n ∉ s.onPath}

/-- What a swing of `_tail` costs is paid by a node that is no longer ahead. -/
noncomputable def State.potential (s : State τ δ) (t : τ) : ℤ :=
  s.distance t + 7 * s.ahead.ncard - 16 * s.history.length

/-- The thread will not find that the node of `_head` is neither that of `_tail` nor linked to
another one. -/
def Pc.NotAlone (s : State τ δ) : Pc δ → Prop
  | .takeCheck head tail headNext =>
    s.head = head → pointer head ≠ pointer tail → pointer headNext ≠ 0
  | _ => True

theorem Pc.distance_pos (s : State τ δ) (hpc : pc ≠ .idle) : 1 ≤ pc.distance s := by
  cases pc <;> simp only [Pc.distance] <;> try split_ifs
  all_goals omega

theorem Pc.distance_le_add (s s' : State τ δ) (pc : Pc δ) :
    pc.distance s' ≤ pc.distance s + 7 := by
  cases pc <;> simp only [Pc.distance] <;> try split_ifs
  all_goals omega

instance : Finite Ptr := Finite.of_injective BitVec.toFin fun _ _ => BitVec.eq_of_toFin_eq

theorem mem_onPath (hl : Linked s.link (pointer s.tail) (pointer s.head) l) {n : Ptr} :
    n ∈ s.onPath ↔ n ∈ l := by
  constructor
  · rintro ⟨l', hl', hn⟩
    rwa [hl.unique hl']
  · exact fun hn => ⟨l, hl, hn⟩

/-- A node that is ahead now was so before, if the path and what is removed only grow, and no node
links on that did not. -/
theorem ahead_subset (hlink : ∀ n ∉ s'.taken, s'.link n ≠ 0 → s.link n ≠ 0 ∧ n ∉ s.taken)
    (hpath : ∀ n ∉ s'.taken, n ∈ s.onPath → n ∈ s'.onPath) : s'.ahead ⊆ s.ahead := by
  intro n hn
  obtain ⟨hnull, htaken, hout⟩ := hn
  obtain ⟨hnull', htaken'⟩ := hlink n htaken hnull
  exact ⟨hnull', htaken', fun hmem => hout (hpath n htaken hmem)⟩

/-! ## What a step of a call can do -/

variable [DecidableEq τ]

/-- What the distances depend on. -/
def State.shown (s : State τ δ) :=
  (s.head, s.tail, s.next, s.history, s.pc)

/-- What a step of thread `u` can do: come nearer to an effect, or fail spuriously; swing `_tail`;
have an effect; or reset a node. A word that it puts into `_head` has not been seen. -/
inductive Advanced (s : State τ δ) (seen : Set Word) (u : τ) (spurious : Bool) : State τ δ → Prop
  | quiet {s₁ : State τ δ} {pc : Pc δ} : s₁.shown = s.shown → pc.removed = (s.pc u).removed →
      pc.NotAlone s → pc.distance s + 1 ≤ s.distance u + 7 * spurious.toNat →
      Advanced s seen u spurious (s₁.goto u pc)
  | swing {s₁ : State τ δ} {pc : Pc δ} : s₁.pc = s.pc → s₁.head = s.head →
      s₁.history = s.history → pc.NotAlone s₁ → pc.distance s₁ + 1 ≤ s.distance u + 7 →
      (s₁.goto u pc).ahead.ncard + 1 ≤ s.ahead.ncard → Advanced s seen u spurious (s₁.goto u pc)
  | effect {s₁ : State τ δ} {pc : Pc δ} {e : Event τ δ} : s₁.pc = s.pc →
      (s₁.head = s.head ∨ s₁.head ∉ seen) → s₁.history = s.history ++ [e] → pc.NotAlone s₁ →
      pc.distance s₁ ≤ 9 → 1 ≤ s.distance u →
      (s₁.goto u pc).ahead.ncard ≤ s.ahead.ncard + 1 → Advanced s seen u spurious (s₁.goto u pc)
  | reset {node : Ptr} : s.pc u = .takeReset node →
      Advanced s seen u spurious ((s.setNext node 0).goto u .idle)

/-- A thread that does not remove a node, or that goes on with it. -/
theorem taken_goto_eq (hpc : s'.pc = s.pc) (hremoved : pc.removed = (s.pc u).removed) :
    (s'.goto u pc).taken = s.taken := by
  have hall : ∀ v, ((s'.goto u pc).pc v).removed = (s.pc v).removed := by
    intro v
    by_cases hv : v = u
    · subst hv
      rw [State.goto_pc_self, hremoved]
    · rw [State.goto_pc_ne _ hv, hpc]
  ext n
  constructor
  · rintro ⟨v, hv⟩
    exact ⟨v, (hall v).symm.trans hv⟩
  · rintro ⟨v, hv⟩
    exact ⟨v, (hall v).trans hv⟩

omit [DecidableEq τ] in
theorem ahead_congr (hlink : s'.link = s.link) (hhead : s'.head = s.head) (htail : s'.tail = s.tail)
    (htaken : s'.taken = s.taken) : s'.ahead = s.ahead := by
  have hpath : s'.onPath = s.onPath := by rw [State.onPath, State.onPath, hlink, hhead, htail]
  rw [State.ahead, State.ahead, hlink, hpath, htaken]

omit [DecidableEq τ] in
theorem link_congr (hnext : s'.next = s.next) : s'.link = s.link := by
  funext n
  rw [State.link, State.link, hnext]

theorem ahead_quiet (hshown : s'.shown = s.shown) (hremoved : pc.removed = (s.pc u).removed) :
    (s'.goto u pc).ahead = s.ahead := by
  simp only [State.shown, Prod.mk.injEq] at hshown
  obtain ⟨hhead, htail, hnext, -, hpc⟩ := hshown
  exact ahead_congr (link_congr hnext) hhead htail (taken_goto_eq hpc hremoved)

/-- The node of `_tail` was ahead, and is on the path now. -/
theorem ahead_swing {w : Word} (h : Ordered s seen l) (hremoved : pc.removed = (s.pc u).removed)
    (hlink : s.link (pointer s.tail) = pointer w) (hw : pointer w ≠ 0) :
    (({ s with tail := w } : State τ δ).goto u pc).ahead.ncard + 1 ≤ s.ahead.ncard := by
  have hpath := h.shape.path
  have hpath' := (h.shape.swing h.owned_of_taken hlink hw).path
  have htaken : (({ s with tail := w } : State τ δ).goto u pc).taken = s.taken :=
    taken_goto_eq rfl hremoved
  have hsub : (({ s with tail := w } : State τ δ).goto u pc).ahead ⊆ s.ahead := by
    refine ahead_subset (fun n hn hnull => ⟨hnull, htaken ▸ hn⟩) fun n _ hn => ?_
    exact (mem_onPath hpath').2 (List.mem_append_left _ ((mem_onPath hpath).1 hn))
  refine Set.ncard_lt_ncard ((Set.ssubset_iff_of_subset hsub).2 ⟨pointer s.tail, ⟨?_, ?_, ?_⟩, ?_⟩)
    (Set.toFinite _)
  · rwa [hlink]
  · exact h.shape.notMem_gone h.owned_of_taken List.mem_cons_self
  · exact fun hmem => hpath.ne_null ((mem_onPath hpath).1 hmem) rfl
  · exact fun hmem => hmem.2.2 ((mem_onPath hpath').2 (by simp))

/-- The node that a `put` links behind is the only one that can be ahead and was not. -/
theorem ahead_link {tail newNext : Word} {node : Ptr} {e : Event τ δ} (h : Ordered s seen l)
    (hremoved : pc.removed = (s.pc u).removed) (hlast : s.link (pointer tail) = 0) :
    ((((s.setNext (pointer tail) newNext).record e).setOwns u node false).goto u pc).ahead.ncard ≤
      s.ahead.ncard + 1 := by
  set s' := (((s.setNext (pointer tail) newNext).record e).setOwns u node false).goto u pc with hs'
  have hlink : s'.link = Function.update s.link (pointer tail) (pointer newNext) :=
    link_setNext s (pointer tail) newNext
  have htaken : s'.taken = s.taken := taken_goto_eq rfl hremoved
  have hpath : Linked s'.link (pointer s'.tail) (pointer s'.head) l := by
    rw [hlink]
    exact h.shape.path.update_of_notMem fun hmem => h.shape.link_ne_null hmem hlast
  have hsub : s'.ahead ⊆ insert (pointer tail) s.ahead := by
    intro n hn
    by_cases hnt : n = pointer tail
    · exact Or.inl hnt
    · refine Or.inr ⟨?_, htaken ▸ hn.2.1, fun hmem => hn.2.2 ?_⟩
      · have hnull := hn.1
        rwa [hlink, Function.update_of_ne hnt] at hnull
      · exact (mem_onPath hpath).2 ((mem_onPath h.shape.path).1 hmem)
  exact (Set.ncard_le_ncard hsub (Set.toFinite _)).trans (Set.ncard_insert_le _ _)

/-- What leaves the path has been removed. -/
theorem ahead_claim {w : Word} {bytes : δ} {e : Event τ δ} (h : Ordered s seen l)
    (hremoved : (s.pc u).removed = none) (hbehind : pointer s.tail ≠ pointer s.head)
    (hlink : s.link (pointer s.head) = pointer w) :
    ((({ s with head := w }.record e).setOwns u (pointer s.head) true).goto u
      (.takeWrite (pointer s.head) bytes)).ahead ⊆ s.ahead := by
  set s' := (({ s with head := w }.record e).setOwns u (pointer s.head) true).goto u
    (.takeWrite (pointer s.head) bytes) with hs'
  have htaken : s.taken ⊆ s'.taken := taken_goto_of_none rfl hremoved
  obtain ⟨r, rfl, hr⟩ := h.shape.path.exists_cons hbehind.symm
  have hpath : Linked s'.link (pointer s'.tail) (pointer s'.head) r := by
    rw [hlink] at hr
    exact hr
  refine ahead_subset (fun n hn hnull => ⟨hnull, fun hmem => hn (htaken hmem)⟩) fun n hn hmem => ?_
  rcases List.mem_cons.1 ((mem_onPath h.shape.path).1 hmem) with rfl | hmem
  · exact absurd ⟨u, by rw [hs', State.goto_pc_self]; rfl⟩ hn
  · exact (mem_onPath hpath).2 hmem

/-- A node that is reset was removed, and links to nothing now. -/
theorem ahead_reset {node : Ptr} (h : Ordered s seen l) (hpc : s.pc u = .takeReset node) :
    ((s.setNext node 0).goto u .idle).ahead ⊆ s.ahead := by
  have ho : s.owns u node = true := by
    have hread := h.read u
    rw [hpc] at hread
    exact hread.1
  have hlink : ((s.setNext node 0).goto u .idle).link = Function.update s.link node 0 :=
    link_setNext s node 0
  have hpath := (h.shape.reset ho).path
  refine ahead_subset (fun n hn hnull => ?_) fun n _ hmem =>
    (mem_onPath hpath).2 ((mem_onPath h.shape.path).1 hmem)
  have hne : n ≠ node := by
    intro heq
    subst heq
    rw [hlink, Function.update_self] at hnull
    exact hnull rfl
  rw [hlink, Function.update_of_ne hne] at hnull
  refine ⟨hnull, fun ⟨v, hv⟩ => hn ⟨v, ?_⟩⟩
  have hvu : v ≠ u := by
    intro heq
    subst heq
    rw [hpc] at hv
    exact hne (Option.some.inj hv).symm
  rw [State.goto_pc_ne _ hvu]
  exact hv

theorem advanced_casTail {tail w : Word} {spurious : Bool} (h : Ordered s seen l)
    (hremoved : pc.removed = (s.pc u).removed) (hafter : s.AfterTail tail (pointer w))
    (hfree : ∀ s' : State τ δ, pc.NotAlone s') (hle : ∀ s' : State τ δ, pc.distance s' ≤ 7)
    (hpos : 1 ≤ s.distance u) (hfail : tail ≠ s.tail → pc.distance s + 1 ≤ s.distance u) :
    Advanced s seen u spurious ((s.casTail tail w).goto u pc) := by
  by_cases heq : s.tail = tail
  · subst heq
    rw [State.casTail, if_pos rfl]
    have hle' := hle { s with tail := w }
    exact .swing rfl rfl rfl (hfree _) (by omega) (ahead_swing h hremoved (hafter.2 rfl) hafter.1)
  · rw [State.casTail, if_neg heq]
    have hfail' := hfail fun h => heq h.symm
    exact .quiet rfl hremoved (hfree s) (by omega)

omit [DecidableEq τ] in
/-- A load, a test or a copy comes nearer to the effect. -/
theorem Reads.distance_lt {spurious : Bool} {pc' : Pc δ} (hr : Reads s spurious pc pc')
    (hfree : pc.NotAlone s) : pc'.distance s + 1 ≤ pc.distance s + 7 * spurious.toNat := by
  cases hr with
  | tail | head => simp [Pc.distance]
  | @lags node tail hnull =>
    have hnull' : s.link (pointer tail) ≠ 0 := hnull
    simp only [Pc.distance, hnull', false_or]
    split_ifs <;> omega
  | @last node tail hnull =>
    have hnull' : s.link (pointer tail) = 0 := hnull
    simp [Pc.distance, hnull']
  | linkFails hfails =>
    rcases hfails with hne | rfl
    · simp [Pc.distance, hne]
    · simp only [Pc.distance, Bool.toNat_true]
      split_ifs <;> omega
  | headTail =>
    simp only [Pc.distance, and_true]
    split_ifs <;> omega
  | headNext | copy =>
    simp only [Pc.distance]
    split_ifs <;> omega
  | moved hne =>
    simp only [Pc.distance, hne, false_and, if_false]
    omega
  | behind heq | filled heq =>
    simp only [Pc.distance, heq, true_and, if_true]
    split_ifs <;> omega
  | alone heq hne hnull => exact absurd hnull (hfree heq.symm hne)
  | claimFails hfails =>
    rcases hfails with hne | rfl
    · simp [Pc.distance, hne.symm]
    · simp only [Pc.distance, Bool.toNat_true]
      split_ifs <;> omega

omit [DecidableEq τ] in
theorem Draws.distance_lt {p : Ptr} {next : Word → Pc δ} (hd : Draws pc p next) (w : Word) :
    (next w).distance s + 1 ≤ pc.distance s := by
  cases hd with
  | swing => exact le_rfl
  | _ =>
    simp only [Pc.distance]
    split_ifs <;> omega

omit [DecidableEq τ] in
/-- After a swing the thread starts its loop again, or ends its call. -/
theorem Swings.distance_le {pc' : Pc δ} {tail newTail : Word} (hs : Swings pc tail newTail pc') :
    pc'.distance s ≤ 7 ∧ 1 ≤ pc.distance s := by
  refine ⟨?_, Pc.distance_pos s ?_⟩
  · cases hs <;> simp [Pc.distance]
  · cases hs <;> simp

omit [DecidableEq τ] in
/-- A swing that fails is one that `_tail` has had already. -/
theorem Swings.distance_lt {pc' : Pc δ} {tail newTail : Word} (hs : Swings pc tail newTail pc')
    (hne : tail ≠ s.tail) : pc'.distance s + 1 ≤ pc.distance s := by
  cases hs <;> simp [Pc.distance, hne]

omit [DecidableEq τ] in
/-- The node of `_head` is before the end of the path, so it links to another one. -/
theorem Reads.notAlone {spurious : Bool} {pc' : Pc δ} (h : Ordered s seen l)
    (hr : Reads s spurious pc pc') (hread : pc.HasRead s seen u) : pc'.NotAlone s := by
  cases hr with
  | @headNext head tail =>
    intro heq hne
    have hbehind : pointer s.tail ≠ pointer head := hread.2.2 hne heq
    subst heq
    refine h.shape.link_ne_null ?_
    exact (List.mem_cons.1 h.shape.mem_head).resolve_left hbehind.symm
  | _ => trivial

omit [DecidableEq τ] in
theorem Draws.notAlone {p : Ptr} {next : Word → Pc δ} (hd : Draws pc p next) (w : Word) :
    (next w).NotAlone s := by
  cases hd <;> trivial

omit [DecidableEq τ] in
theorem Swings.notAlone {pc' : Pc δ} {tail newTail : Word} (hs : Swings pc tail newTail pc') :
    pc'.NotAlone s := by
  cases hs <;> trivial

/-- An empty list is found: no node is ahead that was not. -/
theorem ahead_empty {e : Event τ δ} (hremoved : (s.pc u).removed = none) :
    ((s.record e).goto u .idle).ahead ⊆ s.ahead := by
  have htaken : s.taken ⊆ ((s.record e).goto u .idle).taken := taken_goto_of_none rfl hremoved
  exact ahead_subset (fun n hn hnull => ⟨hnull, fun hmem => hn (htaken hmem)⟩) fun _ _ hmem => hmem

theorem advanced {spurious : Bool} (h : Ordered s seen l) (hfree : (s.pc u).NotAlone s)
    (hst : s.advance u spurious = some s') : Advanced s seen u spurious s' := by
  have hread := h.read u
  cases stepped_of_advance hst with
  | reads hr =>
    exact .quiet rfl (hr.removed.2.trans hr.removed.1.symm) (hr.notAlone h hread)
      (hr.distance_lt hfree)
  | draws hd =>
    exact .quiet rfl ((hd.removed _).2.trans (hd.removed 0).1.symm) (hd.notAlone _)
      ((hd.distance_lt _).trans (Nat.le_add_right _ _))
  | swings hs =>
    exact advanced_casTail h (hs.removed.2.trans hs.removed.1.symm) (hs.afterTail hread)
      (fun _ => hs.notAlone) (fun _ => hs.distance_le.1) (hs.distance_le (s := s)).2 hs.distance_lt
  | @links node tail tailNext newNext hpc hcas =>
    rw [hpc] at hread
    have hlast : s.link (pointer tail) = 0 := by rw [State.link, hcas, hread.2.2.1]
    refine .effect rfl (.inl rfl) rfl trivial ?_ ?_ (ahead_link h (by rw [hpc]; rfl) hlast)
    · simp [Pc.distance]
    · exact Pc.distance_pos s (by simp [hpc])
  | empty hpc =>
    refine .effect rfl (.inl rfl) rfl trivial ?_ ?_ ?_
    · simp [Pc.distance]
    · exact Pc.distance_pos s (by simp [hpc])
    · have hsub := ahead_empty (e := .empty u) (by rw [hpc]; rfl)
      exact (Set.ncard_le_ncard hsub (Set.toFinite _)).trans (Nat.le_succ _)
  | claims hpc hcas =>
    subst hcas
    rw [hpc] at hread
    refine .effect rfl (.inr ?_) rfl trivial ?_ ?_ ?_
    · exact h.drawn.fresh.pending_not_seen u _ (by rw [hpc]; rfl) trivial
    · simp [Pc.distance]
    · exact Pc.distance_pos s (by simp [hpc])
    · refine (Set.ncard_le_ncard ?_ (Set.toFinite _)).trans (Nat.le_succ _)
      exact ahead_claim h (by rw [hpc]; rfl) (hread.2.1 rfl) (hread.2.2.2 rfl)
  | writes hpc =>
    refine .quiet rfl (by rw [hpc]; rfl) trivial ?_
    simp [State.distance, hpc, Pc.distance]
  | resets hpc => exact .reset hpc

/-! ## The step lemma -/

omit [DecidableEq τ] in
/-- A word that has been seen and is in `_head` after the step was there before it. -/
theorem NotAlone.frame {t : τ} (hread : pc.HasRead s seen t) (h : pc.NotAlone s)
    (hhead : s'.head = s.head ∨ s'.head ∉ seen) : pc.NotAlone s' := by
  cases pc with
  | takeCheck head tail headNext =>
    intro heq
    rcases hhead with hsame | hnew
    · exact h (hsame.symm.trans heq)
    · exact absurd (heq ▸ hread.1) hnew
  | _ => trivial

theorem NotAlone.goto (h : Ordered s seen l) (hfree : ∀ t, (s.pc t).NotAlone s)
    (hpc : s'.pc = s.pc) (hhead : s'.head = s.head ∨ s'.head ∉ seen) (hself : pc.NotAlone s') :
    ∀ t, ((s'.goto u pc).pc t).NotAlone (s'.goto u pc) := by
  have hsame : ∀ pc' : Pc δ, pc'.NotAlone s' → pc'.NotAlone (s'.goto u pc) := by
    intro pc' hpc'
    cases pc' <;> exact hpc'
  intro t
  by_cases htu : t = u
  · subst htu
    rw [State.goto_pc_self]
    exact hsame _ hself
  · rw [State.goto_pc_ne _ htu, hpc]
    exact hsame _ (NotAlone.frame (h.read t) (hfree t) hhead)

theorem NotAlone.step (h : Ordered s seen l) (hfree : ∀ t, (s.pc t).NotAlone s) (a : Action τ δ)
    (hst : s.step a = some s') : ∀ t, (s'.pc t).NotAlone s' := by
  cases a with
  | step u spurious =>
    cases advanced h (hfree u) hst with
    | @quiet s₁ pc hshown hremoved hself hle =>
      simp only [State.shown, Prod.mk.injEq] at hshown
      refine NotAlone.goto h hfree hshown.2.2.2.2 (Or.inl hshown.1) ?_
      cases pc with
      | takeCheck head tail headNext => exact fun heq => hself (hshown.1.symm.trans heq)
      | _ => trivial
    | swing hpc hhead hhistory hself hle hless =>
      exact NotAlone.goto h hfree hpc (Or.inl hhead) hself
    | effect hpc hhead hhistory hself hle hpos hmore =>
      exact NotAlone.goto h hfree hpc hhead hself
    | reset hpc => exact NotAlone.goto h hfree rfl (Or.inl rfl) trivial
  | put u node =>
    simp only [State.step] at hst
    split_ifs at hst
    cases hst
    exact NotAlone.goto h hfree rfl (Or.inl rfl) trivial
  | take u =>
    simp only [State.step] at hst
    split_ifs at hst
    cases hst
    exact NotAlone.goto h hfree rfl (Or.inl rfl) trivial
  | _ =>
    simp only [State.step] at hst
    split_ifs at hst
    cases hst
    exact fun t => NotAlone.frame (h.read t) (hfree t) (Or.inl rfl)

/-- What holds in every state of a run with unique words. -/
def Progressing (s : State τ δ) : Prop :=
  (∃ seen l, Ordered s seen l) ∧ ∀ t, (s.pc t).NotAlone s

omit [DecidableEq τ] in
/-- A node that links to nothing any more, and that a thread has not seen so, makes no way longer.
-/
theorem Pc.distance_of_reset {pc : Pc δ} {node : Ptr} (hread : pc.HasRead s seen t)
    (hhead : s'.head = s.head) (htail : s'.tail = s.tail)
    (hnext : s'.next = Function.update s.next node 0)
    (hnode : ∀ w ∈ seen, pointer w = node → s.link node ≠ 0) : pc.distance s' ≤ pc.distance s := by
  have hsame : ∀ w ∈ seen, ∀ v, pointer v = 0 → s.next (pointer w) = v →
      s'.next (pointer w) = v := by
    intro w hw v hv heq
    have hne : pointer w ≠ node := by
      intro hwn
      refine hnode w hw hwn ?_
      rw [State.link, ← hwn, heq, hv]
    rw [hnext, Function.update_of_ne hne, heq]
  cases pc with
  | putNext _ tail =>
    simp only [Pc.distance, htail]
    by_cases hnull : s'.link (pointer tail) = 0
    · rw [if_pos (Or.inl hnull)]
      split_ifs <;> omega
    · have hne : pointer tail ≠ node := by
        intro heq
        rw [State.link, hnext, heq, Function.update_self] at hnull
        exact hnull pointer_zero
      have hlink : s'.link (pointer tail) = s.link (pointer tail) := by
        rw [State.link, hnext, Function.update_of_ne hne, State.link]
      rw [hlink]
  | putCombine node tail tailNext =>
    simp only [Pc.distance]
    by_cases heq : s.next (pointer tail) = tailNext
    · rw [if_pos heq, if_pos (hsame tail hread.2.1 tailNext hread.2.2 heq)]
    · rw [if_neg heq]
      split_ifs <;> omega
  | putLink node tail tailNext newNext =>
    simp only [Pc.distance]
    by_cases heq : s.next (pointer tail) = tailNext
    · rw [if_pos heq, if_pos (hsame tail hread.2.1 tailNext hread.2.2.1 heq)]
    · rw [if_neg heq]
      split_ifs <;> omega
  | _ => simp only [Pc.distance, hhead, htail, le_refl]

omit [DecidableEq τ] in
theorem Pc.distance_congr (hhead : s'.head = s.head) (htail : s'.tail = s.tail)
    (hnext : s'.next = s.next) (pc : Pc δ) : pc.distance s' = pc.distance s := by
  cases pc <;> simp only [Pc.distance, hhead, htail, hnext, link_congr hnext]

theorem State.distance_goto_self (s : State τ δ) (u : τ) (pc : Pc δ) :
    (s.goto u pc).distance u = pc.distance s := by
  rw [State.distance, State.goto_pc_self]
  exact Pc.distance_congr rfl rfl rfl pc

theorem State.distance_goto_ne (s : State τ δ) (htu : t ≠ u) (pc : Pc δ) :
    (s.goto u pc).distance t = (s.pc t).distance s := by
  rw [State.distance, State.goto_pc_ne _ htu]
  exact Pc.distance_congr rfl rfl rfl (s.pc t)

/-- What a step of its own costs a thread, and what it pays with. -/
theorem potential_self {spurious : Bool} (h : Ordered s seen l)
    (hadv : Advanced s seen u spurious s') :
    s'.potential u + 1 ≤ s.potential u + 7 * spurious.toNat := by
  cases hadv with
  | @quiet s₁ pc hshown hremoved hself hle =>
    have hahead := ahead_quiet (u := u) hshown hremoved
    simp only [State.shown, Prod.mk.injEq] at hshown
    obtain ⟨hhead, htail, hnext, hhistory, hpc⟩ := hshown
    have hhistory' : (s₁.goto u pc).history = s.history := hhistory
    rw [State.potential, State.potential, hahead, hhistory', State.distance_goto_self,
      Pc.distance_congr hhead htail hnext]
    omega
  | @swing s₁ pc hpc hhead hhistory hself hle hless =>
    have hhistory' : (s₁.goto u pc).history = s.history := hhistory
    rw [State.potential, State.potential, hhistory', State.distance_goto_self]
    omega
  | @effect s₁ pc e hpc hhead hhistory hself hle hpos hmore =>
    have hhistory' : (s₁.goto u pc).history = s.history ++ [e] := hhistory
    rw [State.potential, State.potential, hhistory', State.distance_goto_self, List.length_append,
      List.length_singleton]
    omega
  | @reset node hpc =>
    have hless := Set.ncard_le_ncard (ahead_reset h hpc) (Set.toFinite _)
    have hhistory : ((s.setNext node 0).goto u .idle).history = s.history := rfl
    have hd : s.distance u = 8 := by rw [State.distance, hpc, Pc.distance]
    rw [State.potential, State.potential, hhistory, State.distance_goto_self, Pc.distance, hd]
    omega

/-- What a step of another thread costs is paid by that thread's effect or swing. -/
theorem potential_other {spurious : Bool} (h : Ordered s seen l)
    (hadv : Advanced s seen u spurious s') (htu : t ≠ u) : s'.potential t ≤ s.potential t := by
  cases hadv with
  | @quiet s₁ pc hshown hremoved hself hle =>
    have hahead := ahead_quiet (u := u) hshown hremoved
    simp only [State.shown, Prod.mk.injEq] at hshown
    obtain ⟨hhead, htail, hnext, hhistory, hpc⟩ := hshown
    have hhistory' : (s₁.goto u pc).history = s.history := hhistory
    rw [State.potential, State.potential, hahead, hhistory', State.distance_goto_ne _ htu, hpc,
      Pc.distance_congr hhead htail hnext]
    rfl
  | @swing s₁ pc hpc hhead hhistory hself hle hless =>
    have hhistory' : (s₁.goto u pc).history = s.history := hhistory
    have hmore := Pc.distance_le_add s s₁ (s.pc t)
    rw [State.potential, State.potential, hhistory', State.distance_goto_ne _ htu, hpc,
      State.distance]
    omega
  | @effect s₁ pc e hpc hhead hhistory hself hle hpos hmore =>
    have hhistory' : (s₁.goto u pc).history = s.history ++ [e] := hhistory
    have hmore := Pc.distance_le_add s s₁ (s.pc t)
    rw [State.potential, State.potential, hhistory', State.distance_goto_ne _ htu, hpc,
      State.distance, List.length_append, List.length_singleton]
    omega
  | @reset node hpc =>
    have hless := Set.ncard_le_ncard (ahead_reset h hpc) (Set.toFinite _)
    have hhistory : ((s.setNext node 0).goto u .idle).history = s.history := rfl
    have hnull : s.link node ≠ 0 := by
      have hread := h.read u
      rw [hpc] at hread
      exact hread.2
    have hmore : (s.pc t).distance (s.setNext node 0) ≤ (s.pc t).distance s :=
      Pc.distance_of_reset (h.read t) rfl rfl rfl fun _ _ _ => hnull
    have hpc' : (s.setNext node 0).pc = s.pc := rfl
    rw [State.potential, State.potential, hhistory, State.distance_goto_ne _ htu, hpc',
      State.distance]
    omega

theorem potential_begin (t : τ) (pc : Pc δ) (hidle : (s.pc u).isIdle = true)
    (hremoved : pc.removed = none)
    (hle : pc.distance s ≤ 7) : (s.goto u pc).potential t ≤ s.potential t := by
  have hahead : (s.goto u pc).ahead = s.ahead :=
    ahead_quiet rfl (hremoved.trans (removed_of_idle hidle).symm)
  have hhistory : (s.goto u pc).history = s.history := rfl
  rw [State.potential, State.potential, hahead, hhistory]
  by_cases htu : t = u
  · subst htu
    have hd : s.distance t = 7 := by
      rw [State.distance]
      cases hpc : s.pc t with
      | idle => rfl
      | _ =>
        rw [hpc] at hidle
        cases hidle
    rw [State.distance_goto_self, hd]
    omega
  · rw [State.distance_goto_ne _ htu]
    rfl

/-- **A step pays.** What thread `t` takes of it comes out of the potential. -/
theorem potential_step (t : τ) (h : Ordered s seen l) (hfree : ∀ t, (s.pc t).NotAlone s)
    (a : Action τ δ) (hst : s.step a = some s') :
    s'.potential t + (a.stepOf t).toNat ≤ s.potential t + 7 * (a.spuriousOf t).toNat := by
  cases a with
  | step u spurious =>
    have hadv := advanced h (hfree u) hst
    by_cases htu : t = u
    · subst htu
      simp only [Action.stepOf, Action.spuriousOf, decide_true, Bool.true_and, Bool.toNat_true]
      exact potential_self h hadv
    · have hut : u ≠ t := fun heq => htu heq.symm
      simp only [Action.stepOf, Action.spuriousOf, hut, decide_false, Bool.false_and,
        Bool.toNat_false]
      have hother := potential_other h hadv htu
      omega
  | new u node payload =>
    simp only [State.step] at hst
    split_ifs at hst with hnew
    cases hst
    obtain ⟨-, -, halloc⟩ := hnew
    set s' := ((({ s with allocated := Function.update s.allocated node true }.setNext node
      0).setData node payload).setOwns u node true) with hs'
    have hlink : s'.link = s.link := by
      show (s.setNext node 0).link = s.link
      rw [link_setNext, pointer_zero, ← h.shape.entries.unused node halloc, Function.update_eq_self]
    have hahead : s'.ahead = s.ahead := ahead_congr hlink rfl rfl rfl
    -- a node that is not in use is none that a word points to
    have hless : (s.pc t).distance s' ≤ (s.pc t).distance s := by
      refine Pc.distance_of_reset (h.read t) rfl rfl rfl fun w hw heq => ?_
      have hmem := h.drawn.allocated w hw
      rw [heq, halloc] at hmem
      cases hmem
    rw [State.potential, State.potential, hahead]
    show ((s.pc t).distance s' : ℤ) + _ - 16 * s.history.length + 0 ≤
      (s.pc t).distance s + _ - 16 * s.history.length + 0
    omega
  | write u node payload =>
    simp only [State.step] at hst
    split_ifs at hst
    cases hst
    exact le_rfl
  | give u v node =>
    simp only [State.step] at hst
    split_ifs at hst
    cases hst
    exact le_rfl
  | put u node =>
    simp only [State.step, State.mayUse, Bool.and_eq_true] at hst
    split_ifs at hst with huse
    cases hst
    simpa [Action.stepOf, Action.spuriousOf] using
      potential_begin t (.putTail node) huse.1 rfl (by simp [Pc.distance])
  | take u =>
    simp only [State.step] at hst
    split_ifs at hst with hidle
    cases hst
    simpa [Action.stepOf, Action.spuriousOf] using
      potential_begin t .takeHead hidle rfl (by simp [Pc.distance])

/-! ## Every run -/

theorem Progressing.step (h : Progressing s) (a : Action τ δ) (hst : s.step a = some s')
    (hnodup : s'.words.Nodup) : Progressing s' := by
  obtain ⟨⟨seen, l, hordered⟩, hfree⟩ := h
  exact ⟨hordered.step a hst hnodup, NotAlone.step hordered hfree a hst⟩

theorem Progressing.init {dummy : Ptr} (hdummy : dummy ≠ 0) (payload : δ) :
    Progressing (lockfreeList τ dummy payload).init :=
  ⟨⟨_, _, .init hdummy payload⟩, fun _ => trivial⟩

theorem potential_init {dummy : Ptr} (payload : δ) (t : τ) :
    (lockfreeList τ dummy payload).init.potential t = 7 := by
  have hahead : (lockfreeList τ dummy payload).init.ahead = ∅ := by
    refine Set.eq_empty_iff_forall_notMem.2 fun n hn => hn.1 ?_
    exact pointer_zero
  rw [State.potential, hahead, Set.ncard_empty]
  rfl

/-- **A `take` never waits for a link.** In a run in which no two `combine` calls return the same
word, a thread that finds `_head` unchanged, and its node not that of `_tail`, has read that its
node is linked to another one: it does not take the branch that goes back to the start. -/
theorem head_next_ne_null {dummy : Ptr} (hdummy : dummy ≠ 0) {payload : δ} {s : State τ δ}
    (hs : (lockfreeList τ dummy payload).Reachable s) (hwords : s.words.Nodup) {t : τ}
    {head tail headNext : Word} (hpc : s.pc t = .takeCheck head tail headNext)
    (hhead : s.head = head) (hne : pointer head ≠ pointer tail) : pointer headNext ≠ 0 := by
  have hinv : s.words.Nodup → Progressing s := by
    refine hs.invariant (I := fun s => s.words.Nodup → Progressing s)
      (fun _ => .init hdummy payload) ?_
    intro s a s' ih _ hst hnodup
    exact (ih (hnodup.sublist (words_sublist a hst))).step a hst hnodup
  have hfree := (hinv hwords).2 t
  rw [hpc] at hfree
  exact hfree hhead hne

/-- Thread `2` takes the node that thread `1` has put, up to the tests. -/
theorem head_next_ne_null_take :
    ∃ s : State ℕ ℕ, (lockfreeList ℕ 1 0).Reachable s ∧ s.head = combine 1 0 ∧
      s.pc 2 = .takeCheck (combine 1 0) (combine 2 2) (combine 2 1) ∧
        pointer (combine 2 1) ≠ 0 := by
  have hrun := (lockfreeList ℕ 1 0).reach_of_run (fun _ _ => True)
    (.new 1 2 20 :: .put 1 2 :: List.replicate 6 (.step 1 false) ++
      .take 2 :: List.replicate 3 (.step 2 false)) rfl
  exact ⟨_, hrun, rfl, rfl,
    head_next_ne_null (t := 2) (by decide) hrun (by decide) rfl rfl (by decide)⟩

/-- **The list is lock-free.** In every run in which no two `combine` calls return the same word,
the steps that a thread takes are at most seven, and sixteen for each call of any thread that takes
effect, and seven for each compare-exchange of the thread that fails spuriously. -/
theorem put_take_lock_free {dummy : Ptr} (hdummy : dummy ≠ 0) {payload : δ} {as : List (Action τ δ)}
    {s : State τ δ} (hrun : as.foldlM (lockfreeList τ dummy payload).step
      (lockfreeList τ dummy payload).init = some s) (hwords : s.words.Nodup) (t : τ) :
    as.countP (Action.stepOf t) ≤
      7 + 16 * s.history.length + 7 * as.countP (Action.spuriousOf t) := by
  have hpay := Machine.total_le (I := Progressing) (J := fun s => s.words.Nodup)
    (c := fun _ a => 1 * (a.stepOf t).toNat) (d := fun _ a => 7 * (a.spuriousOf t).toNat)
    (Φ := fun s => s.potential t) (fun s a s' hst h => h.sublist (words_sublist a hst))
    (fun s a s' hI hJ hst => ⟨hI.step a hst hJ, by
      obtain ⟨⟨seen, l, hordered⟩, hfree⟩ := hI
      have hstep := potential_step t hordered hfree a hst
      omega⟩) hrun (.init hdummy payload) hwords
  rw [Machine.total_eq_countP (fun _ _ => rfl) hrun, Machine.total_eq_countP (fun _ _ => rfl) hrun,
    potential_init] at hpay
  have hlow : -16 * (s.history.length : ℤ) ≤ s.potential t := by
    rw [State.potential]
    omega
  push_cast at hpay
  omega

/-- Thread `1` has loaded `_tail` for its `put` when thread `2` puts a node, and thread `3` takes.
-/
def delayed : List (Action ℕ ℕ) :=
  [.new 1 2 20, .new 2 3 30, .put 1 2, .step 1 false] ++
    .put 2 3 :: List.replicate 6 (.step 2 false) ++ .take 3 :: List.replicate 9 (.step 3 false) ++
    List.replicate 5 (.step 1 false)

/-- Thread `1` then links its node behind the dummy that has been removed. -/
theorem put_take_lock_free_delayed :
    ∃ s, delayed.foldlM (lockfreeList ℕ 1 0).step (lockfreeList ℕ 1 0).init = some s ∧
      s.history = [.link 2 30, .claim 3 30, .link 1 20] ∧
      delayed.countP (Action.stepOf 1) ≤
        7 + 16 * s.history.length + 7 * delayed.countP (Action.spuriousOf 1) := by
  have hrun : delayed.foldlM (lockfreeList ℕ 1 0).step (lockfreeList ℕ 1 0).init = some _ := rfl
  exact ⟨_, hrun, rfl, put_take_lock_free (by decide) hrun (by decide) 1⟩

end LockfreeList

end Naesala
