import Naesala.Library.Fresh
import Naesala.Library.Linked
import Naesala.Lockfree.StackSteps

/-!
# What `LockfreeStack` guarantees, and when

`pop` reads `next` of a node that it does not own and installs it with a compare-exchange that
looks at `_top` only. This is right when the value read is still the node's `next`
(`State.current`), and the version in the word is what should make it so.

* `intact_of_current` — in a run whose successful pops all install the current `next`, the chain
  from `_top` is exactly what was pushed and not popped, nobody owns a node on it, and no node
  has two owners.
* `not_intact_of_tags` — the versions do not give this: `push` and `pop` draw them from two
  counters, so a pop can reinstall a word that a push has installed.
* `linearizable_of_unique` — when no two words are equal, every successful pop is current, and
  the compare-exchanges in their order are a history of a sequential stack.

The invariant has a part about memory (`Shared`), a part about each thread (`Local`), and for
the last theorem a part about words (`Tagged`).
-/

namespace Naesala

namespace LockfreeStack

variable {τ : Type} {s s' : State τ} {l : List Ptr} {t : τ}

/-! ## The sequential stack -/

/-- The event on a sequential stack, if it is a legal one there. -/
def Event.apply (l : List Ptr) : Event τ → Option (List Ptr)
  | .push _ node => some (node :: l)
  | .pop _ node => if l.head? = some node then some l.tail else none
  | .popNull _ => if l = [] then some [] else none

/-- The contents after a history of a sequential stack, if it is one. -/
def replay (history : List (Event τ)) : Option (List Ptr) := history.foldlM Event.apply []

theorem replay_concat (history : List (Event τ)) (e : Event τ) :
    replay (history ++ [e]) = (replay history).bind fun l => e.apply l := by
  simp [replay]

/-- The node that the event pushes. -/
def Event.pushed? : Event τ → Option Ptr
  | .push _ node => some node
  | _ => none

/-- The node that the event pops. -/
def Event.popped? : Event τ → Option Ptr
  | .pop _ node => some node
  | _ => none

/-- The nodes pushed, in order. -/
def pushes (history : List (Event τ)) : List Ptr := history.filterMap Event.pushed?

/-- The nodes popped, in order. -/
def pops (history : List (Event τ)) : List Ptr := history.filterMap Event.popped?

/-- What a sequential stack holds is what was pushed and not popped. -/
theorem count_of_foldlM {history : List (Event τ)} {l l' : List Ptr}
    (h : history.foldlM Event.apply l = some l') (n : Ptr) :
    (pushes history).count n + l.count n = (pops history).count n + l'.count n := by
  induction history generalizing l with
  | nil =>
    cases h
    rfl
  | cons e history ih =>
    rw [List.foldlM_cons] at h
    obtain ⟨l₁, hl₁, h⟩ := Option.bind_eq_some_iff.1 h
    have hrest := ih h
    cases e with
    | push t node =>
      cases hl₁
      simp only [pushes, pops, List.filterMap_cons, Event.pushed?, Event.popped?,
        List.count_cons] at hrest ⊢
      omega
    | pop t node =>
      simp only [Event.apply] at hl₁
      split_ifs at hl₁ with hhead
      cases hl₁
      obtain ⟨r, rfl⟩ := List.head?_eq_some_iff.1 hhead
      simp only [pushes, pops, List.filterMap_cons, Event.pushed?, Event.popped?,
        List.count_cons, List.tail_cons] at hrest ⊢
      omega
    | popNull t =>
      simp only [Event.apply] at hl₁
      split_ifs at hl₁ with hnil
      cases hl₁
      rw [hnil]
      exact hrest

/-! ## The property and the condition -/

/-- The chain from `_top` is `l`: what was pushed and not popped, each once, owned by nobody. -/
structure Holds (s : State τ) (l : List Ptr) : Prop where
  chain : Linked s.next 0 (pointer s.top) l
  nodup : l.Nodup
  balance : ∀ n, (pushes s.history).count n = (pops s.history).count n + l.count n
  unowned : ∀ n ∈ l, ∀ t, s.owns t n = false
  exclusive : ∀ t u n, s.owns t n = true → s.owns u n = true → t = u

/-- No node is lost, and none is in the stack, or returned by `pop`, while another thread owns
it. -/
def Intact (s : State τ) : Prop := ∃ l, Holds s l

/-- If the step is a successful compare-exchange of `pop`, the word it installs points to what
`top->next` is now. -/
def State.current (s : State τ) : Action τ → Bool
  | .step t spurious =>
    match s.pc t with
    | .popCas topCombine newTopCombine =>
      !(s.top = topCombine && !spurious) || pointer newTopCombine = s.next (pointer topCombine)
    | _ => true
  | _ => true

/-! ## The invariant -/

/-- Memory: the chain, its history, and who owns what. -/
structure Shared (s : State τ) (l : List Ptr) : Prop where
  chain : Linked s.next 0 (pointer s.top) l
  replay : replay s.history = some l
  owned : Ownership 0 s.owns s.allocated l

/-- One thread: it owns what it is pushing, and what it has read of `_top` is not null. -/
def Local (s : State τ) (t : τ) : Pc → Prop
  | .idle | .popLoad => True
  | .pushCombine node => s.owns t node = true
  | .pushLoad node w | .pushNext node w _ => s.owns t node = true ∧ pointer w = node
  | .pushCas node w last => s.owns t node = true ∧ pointer w = node ∧ s.next node = pointer last
  | .popNext top | .popCombine top _ | .popCas top _ => pointer top ≠ 0

/-- The invariant of a stack whose chain is `l`. -/
structure Inv (s : State τ) (l : List Ptr) : Prop where
  shared : Shared s l
  locals : ∀ t, Local s t (s.pc t)

theorem Inv.holds (h : Inv s l) : Holds s l where
  chain := h.shared.chain
  nodup := h.shared.chain.nodup
  balance n := by
    have hcount := count_of_foldlM h.shared.replay n
    simpa using hcount
  unowned := h.shared.owned.unowned
  exclusive := h.shared.owned.exclusive

/-- What one thread knows survives, as long as what it owns does. -/
theorem Local.frame {pc : Pc} (h : Local s t pc)
    (hkeep : ∀ n, s.owns t n = true → s'.owns t n = true ∧ s'.next n = s.next n) :
    Local s' t pc := by
  cases pc with
  | idle | popLoad => trivial
  | pushCombine node => exact (hkeep node h).1
  | pushLoad node w | pushNext node w last => exact ⟨(hkeep node h.1).1, h.2⟩
  | pushCas node w last =>
    obtain ⟨ho, hw, hn⟩ := h
    obtain ⟨ho', hn'⟩ := hkeep node ho
    exact ⟨ho', hw, by rw [hn', hn]⟩
  | popNext top | popCombine top next | popCas top w => exact h

/-! ## What the steps do to memory -/

theorem Shared.setNext (h : Shared s l) {node : Ptr} (ho : s.owns t node = true) (v : Ptr) :
    Shared (s.setNext node v) l :=
  ⟨h.chain.update_of_notMem (h.owned.notMem ho), h.replay, h.owned⟩

variable [DecidableEq τ]

theorem Shared.push (h : Shared s l) {node : Ptr} {w : Word} (ho : s.owns t node = true)
    (hw : pointer w = node) (hnext : s.next node = pointer s.top) :
    Shared (({ s with top := w }.record (.push t node)).setOwns t node false) (node :: l) := by
  refine ⟨?_, ?_, h.owned.insert ho fun n hn => List.mem_cons.1 hn⟩
  · show Linked s.next 0 (pointer w) (node :: l)
    rw [hw]
    exact Linked.push (by rw [hnext]; exact h.chain) (h.owned.ne_null t node ho)
  · show LockfreeStack.replay (s.history ++ [.push t node]) = _
    rw [replay_concat, h.replay]
    rfl

theorem Shared.pop (h : Shared s l) {w : Word} (htop : pointer s.top ≠ 0)
    (hw : pointer w = s.next (pointer s.top)) :
    ∃ r, Shared (({ s with top := w }.record (.pop t (pointer s.top))).setOwns t
      (pointer s.top) true) r := by
  obtain ⟨r, rfl, hr⟩ := h.chain.exists_cons htop
  have hnodup := List.nodup_cons.1 h.chain.nodup
  refine ⟨r, ?_, ?_,
    h.owned.remove List.mem_cons_self htop hnodup.1 (List.subset_cons_self _ _) t⟩
  · show Linked s.next 0 (pointer w) r
    rw [hw]
    exact hr
  · show LockfreeStack.replay (s.history ++ [.pop t (pointer s.top)]) = _
    rw [replay_concat, h.replay]
    exact if_pos rfl

omit [DecidableEq τ] in
theorem Shared.popNull (h : Shared s l) (htop : pointer s.top = 0) :
    Shared (s.record (.popNull t)) l := by
  have hnil : l = [] := by
    cases l with
    | nil => rfl
    | cons a r => exact absurd (h.chain.head_eq.symm.trans htop) h.chain.2.1
  refine { h with replay := ?_ }
  show LockfreeStack.replay (s.history ++ [.popNull t]) = _
  rw [replay_concat, h.replay, hnil]
  rfl

/-! ## The step lemma -/

/-- Only thread `t` moves; what the others own, and link to, stays. -/
theorem Inv.goto {l' : List Ptr} {pc : Pc} (h : Inv s l) (hpc : s'.pc = s.pc) (hS : Shared s' l')
    (hkeep : ∀ u, u ≠ t → ∀ n, s.owns u n = true → s'.owns u n = true ∧ s'.next n = s.next n)
    (hloc : Local s' t pc) : Inv (s'.goto t pc) l' := by
  refine ⟨⟨hS.chain, hS.replay, hS.owned⟩, ?_⟩
  intro u
  by_cases hu : u = t
  · subst hu
    rw [State.goto_pc_self]
    exact hloc.frame fun n hn => ⟨hn, rfl⟩
  · rw [State.goto_pc_ne _ hu, hpc]
    exact (h.locals u).frame (hkeep u hu)

theorem Inv.quiet {l' : List Ptr} {pc : Pc} (h : Inv s l) (hpc : s'.pc = s.pc) (hS : Shared s' l')
    (howns : s'.owns = s.owns) (hnext : s'.next = s.next) (hloc : Local s' t pc) :
    Inv (s'.goto t pc) l' := by
  refine h.goto hpc hS ?_ hloc
  intro u _ n hn
  rw [howns, hnext]
  exact ⟨hn, rfl⟩

/-- A thread between calls changes memory; what the others own, and link to, stays. -/
theorem Inv.use {l' : List Ptr} (h : Inv s l) (hidle : s.pc t = .idle) (hpc : s'.pc = s.pc)
    (hS : Shared s' l')
    (hkeep : ∀ u, u ≠ t → ∀ n, s.owns u n = true → s'.owns u n = true ∧ s'.next n = s.next n) :
    Inv s' l' := by
  have hgoto : Inv (s'.goto t .idle) l' := h.goto hpc hS hkeep trivial
  have hsame : s'.goto t .idle = s' := by
    have hupdate : Function.update s'.pc t .idle = s'.pc :=
      Function.update_eq_self_iff.2 (by rw [hpc, hidle])
    rw [State.goto, hupdate]
  rwa [hsame] at hgoto

omit [DecidableEq τ] in
/-- What one owner writes to is not what another owns. -/
theorem Shared.keep_of_owner (h : Shared s l) {node : Ptr} (ho : s.owns t node = true) (v : Ptr)
    {u : τ} (hu : u ≠ t) {n : Ptr} (hn : s.owns u n = true) :
    (s.setNext node v).owns u n = true ∧ (s.setNext node v).next n = s.next n :=
  ⟨hn, State.setNext_next_ne s (h.owned.ne_of_ne ho hu hn) v⟩

omit [DecidableEq τ] in
theorem Local.of_reads {spurious : Bool} {old pc : Pc} (h : Local s t old)
    (hreads : Reads s spurious old pc) : Local s t pc := by
  cases hreads with
  | pushTop => exact h
  | pushFails => exact ⟨h.1, h.2.1⟩
  | popTop hnull => exact hnull
  | next => exact h
  | popFails => trivial

theorem Inv.advance {l : List Ptr} (h : Inv s l) {spurious : Bool}
    (hcur : s.current (.step t spurious) = true) (hst : s.advance t spurious = some s') :
    ∃ l', Inv s' l' := by
  have hloc := h.locals t
  cases stepped_of_advance hst with
  | reads hreads => exact ⟨l, h.quiet rfl h.shared rfl rfl (hloc.of_reads hreads)⟩
  | drawsPush hpc hw =>
    rw [hpc] at hloc
    exact ⟨l, h.quiet rfl ⟨h.shared.chain, h.shared.replay, h.shared.owned⟩ rfl rfl
      ⟨hloc, hw ▸ pointer_combine _ _⟩⟩
  | drawsPop hpc =>
    rw [hpc] at hloc
    exact ⟨l, h.quiet rfl ⟨h.shared.chain, h.shared.replay, h.shared.owned⟩ rfl rfl hloc⟩
  | @writes node w last hpc =>
    rw [hpc] at hloc
    exact ⟨l, h.goto rfl (h.shared.setNext hloc.1 _)
      (fun u hu n hn => h.shared.keep_of_owner hloc.1 _ hu hn)
      ⟨hloc.1, hloc.2, State.setNext_next_self s node _⟩⟩
  | @pushes node w hpc =>
    rw [hpc] at hloc
    obtain ⟨ho, hw, hnext⟩ := hloc
    exact ⟨node :: l, h.goto rfl (h.shared.push ho hw hnext)
      (fun u hu n hn => ⟨(updateOwns_of_ne hu _).trans hn, rfl⟩) trivial⟩
  | @pops w hpc hnot =>
    rw [hpc] at hloc
    -- what is installed is the current `next`, by `hcur`
    have hcurrent : pointer w = s.next (pointer s.top) := by
      simpa [State.current, hpc, hnot] using hcur
    obtain ⟨r, hr⟩ := h.shared.pop (t := t) (w := w) hloc hcurrent
    exact ⟨r, h.goto rfl hr (fun u hu n hn => ⟨(updateOwns_of_ne hu _).trans hn, rfl⟩) trivial⟩
  | popsNull hpc htop => exact ⟨l, h.quiet rfl (h.shared.popNull htop) rfl rfl trivial⟩

/-- **The step lemma**: a step that installs no outdated `next` keeps the invariant. -/
theorem Inv.step {l : List Ptr} (h : Inv s l) (a : Action τ) (hcur : s.current a = true)
    (hst : s.step a = some s') : ∃ l', Inv s' l' := by
  cases a with
  | new t node =>
    simp only [State.step] at hst
    split_ifs at hst with hnew
    cases hst
    obtain ⟨hidle, hnull, halloc⟩ := hnew
    exact ⟨l, h.use hidle rfl
      ⟨h.shared.chain, h.shared.replay, h.shared.owned.allocate hnull halloc t⟩
      fun u hu n hn => ⟨(updateOwns_of_ne hu _).trans hn, rfl⟩⟩
  | write t node next =>
    simp only [State.step, State.mayUse, Bool.and_eq_true, decide_eq_true_eq] at hst
    split_ifs at hst with huse
    cases hst
    exact ⟨l, h.use huse.1 rfl (h.shared.setNext huse.2 next)
      fun u hu n hn => h.shared.keep_of_owner huse.2 next hu hn⟩
  | give t u node =>
    simp only [State.step, State.mayUse, Bool.and_eq_true, decide_eq_true_eq] at hst
    split_ifs at hst with huse
    cases hst
    refine ⟨l, h.use huse.1 rfl
      ⟨h.shared.chain, h.shared.replay, h.shared.owned.give huse.2 u⟩
      fun v hv n hn => ⟨?_, rfl⟩⟩
    show updateOwns (updateOwns s.owns t node false) u node true v n = true
    rw [updateOwns_apply, updateOwns_of_ne hv, hn, ite_self]
  | push t node =>
    simp only [State.step, State.mayUse, Bool.and_eq_true, decide_eq_true_eq] at hst
    split_ifs at hst with huse
    cases hst
    exact ⟨l, h.quiet rfl h.shared rfl rfl huse.2⟩
  | pop t =>
    simp only [State.step] at hst
    split_ifs at hst
    cases hst
    exact ⟨l, h.quiet rfl h.shared rfl rfl trivial⟩
  | step t spurious => exact h.advance hcur hst

theorem Inv.init : Inv (lockfreeStack τ).init [] where
  shared := ⟨pointer_zero, rfl, .of_unowned fun _ hn => absurd hn List.not_mem_nil⟩
  locals _ := trivial

/-- **The stack loses and doubles nothing, as long as every pop installs the current `next`**,
for any number of threads and any order of their steps. -/
theorem intact_of_current {s : State τ}
    (hs : (lockfreeStack τ).Reach (fun s a => s.current a = true) s) : Intact s := by
  obtain ⟨l, h⟩ := hs.invariant (I := fun s => ∃ l, Inv s l) ⟨[], .init⟩
    fun _ a _ ⟨_, h⟩ hcur hst => h.step a hcur hst
  exact ⟨l, h.holds⟩

/-! ## Two version counters -/

/-- A thread that pushes `node`, undisturbed. -/
def pushing (t : τ) (node : Ptr) : List (Action τ) :=
  .push t node :: List.replicate 4 (.step t false)

/-- A thread that pops, undisturbed. -/
def popping (t : τ) : List (Action τ) := .pop t :: List.replicate 4 (.step t false)

/-- Nodes `1` to `4` are pushed. Thread `false` pops and stops before its compare-exchange, to
replace node `4`, version `3`, by node `3`. Thread `true` pops both, pushes both, and pops node
`3`, which installs node `4` with version `3` of the other counter. -/
def tagClash : List (Action Bool) :=
  [.new true 1, .new true 2, .new true 3, .new true 4] ++
    pushing true 1 ++ pushing true 2 ++ pushing true 3 ++ pushing true 4 ++
    [.pop false, .step false false, .step false false, .step false false] ++
    popping true ++ popping true ++ pushing true 4 ++ pushing true 3 ++ popping true ++
    [.step false false]

/-- **The versions do not rule this out**: node `3` is on the chain from `_top` while thread
`true` owns it. -/
theorem not_intact_of_tags :
    ∃ s : State Bool, (lockfreeStack Bool).Reachable s ∧ ¬ Intact s ∧ pointer s.top = 3 ∧
      s.owns true 3 = true := by
  have hrun := (lockfreeStack Bool).reach_of_run (fun _ _ => True) tagClash rfl
  refine ⟨_, hrun, ?_, by decide, by decide⟩
  intro hp
  obtain ⟨l, h⟩ := hp
  obtain ⟨r, rfl, -⟩ := h.chain.exists_cons (by decide)
  exact absurd (h.unowned _ List.mem_cons_self true) (by decide)

/-- The condition of `intact_of_current` holds of a push and a pop. -/
theorem intact_of_current_pop :
    ∃ s : State Bool, (lockfreeStack Bool).Reach (fun s a => s.current a = true) s ∧ Intact s ∧
      s.history = [.push true 1, .pop true 1] := by
  have hrun := (lockfreeStack Bool).reach_of_run (fun s a => s.current a = true)
    ([.new true 1] ++ pushing true 1 ++ popping true) rfl
  exact ⟨_, hrun, intact_of_current hrun, rfl⟩

/-! ## Unique words -/

/-- The word that a thread at `pc` may install. -/
def Pc.pending : Pc → Option Word
  | .pushLoad _ w | .pushNext _ w _ | .pushCas _ w _ | .popCas _ w => some w
  | _ => none

/-- The word that a `pop` at `pc` has loaded. -/
def Pc.loaded : Pc → Option Word
  | .popNext top | .popCombine top _ | .popCas top _ => some top
  | _ => none

/-- The word that a `pop` at `pc` has loaded, and the `next` it has read there. -/
def Pc.read : Pc → Option (Word × Ptr)
  | .popCombine top next => some (top, next)
  | .popCas top w => some (top, pointer w)
  | _ => none

/-- What a thread may install has never been `_top`; what it has loaded has been; and where it has
read below the present `_top`, it has read what is there now. -/
structure Tagged (s : State τ) (seen : Set Word) : Prop where
  fresh : Fresh (fun w => pointer w ≠ 0) s.words seen fun t => (s.pc t).pending
  top_seen : s.top ∈ seen
  loaded_seen : ∀ t w, (s.pc t).loaded = some w → w ∈ seen
  current : ∀ t next, (s.pc t).read = some (s.top, next) → s.next (pointer s.top) = next

theorem Pc.loaded_of_read {pc : Pc} {w : Word} {next : Ptr} (h : pc.read = some (w, next)) :
    pc.loaded = some w := by
  cases pc with
  | popCombine top next' | popCas top w' =>
    obtain ⟨rfl, -⟩ := Prod.mk.inj (Option.some.inj h)
    rfl
  | _ => exact absurd h (by simp [Pc.read])

/-- Thread `t` moves; the words are still used once, and below `_top` the others have read what is
there. -/
theorem Tagged.of_goto {seen seen' : Set Word} {pc : Pc} (h : Tagged s seen) (hpc : s'.pc = s.pc)
    (hsub : seen ⊆ seen') (htop : s'.top ∈ seen')
    (hfresh : Fresh (fun w => pointer w ≠ 0) s'.words seen'
      fun u => ((s'.goto t pc).pc u).pending)
    (hloaded : ∀ w, pc.loaded = some w → w ∈ seen')
    (hread : ∀ next, pc.read = some (s'.top, next) → s'.next (pointer s'.top) = next)
    (hothers : ∀ u next, (s.pc u).read = some (s'.top, next) →
      s'.next (pointer s'.top) = next) : Tagged (s'.goto t pc) seen' := by
  refine ⟨hfresh, htop, fun u w hw => ?_, fun u next hu => ?_⟩
  · by_cases hut : u = t
    · subst hut
      rw [State.goto_pc_self] at hw
      exact hloaded w hw
    · rw [State.goto_pc_ne _ hut, hpc] at hw
      exact hsub (h.loaded_seen u w hw)
  · by_cases hut : u = t
    · subst hut
      rw [State.goto_pc_self] at hu
      exact hread next hu
    · rw [State.goto_pc_ne _ hut, hpc] at hu
      exact hothers u next hu

theorem Tagged.quiet {seen : Set Word} {pc : Pc} (h : Tagged s seen) (hpc : s'.pc = s.pc)
    (htop : s'.top = s.top) (hwords : s'.words = s.words)
    (hnext : ∀ u next, (s.pc u).read = some (s.top, next) →
      s'.next (pointer s.top) = s.next (pointer s.top))
    (hpending : pc.pending = none ∨ pc.pending = (s.pc t).pending)
    (hloaded : ∀ w, pc.loaded = some w → w ∈ seen)
    (hread : ∀ next, pc.read = some (s.top, next) → s'.next (pointer s.top) = next) :
    Tagged (s'.goto t pc) seen := by
  refine h.of_goto hpc subset_rfl ?_ ?_ hloaded ?_ fun u next hu => ?_
  · rw [htop]
    exact h.top_seen
  · rw [hwords]
    refine h.fresh.mono ?_
    intro u w hw
    by_cases hut : u = t
    · subst hut
      rw [State.goto_pc_self] at hw
      rcases hpending with hnone | hsame
      · rw [hnone] at hw
        exact absurd hw (by simp)
      · rwa [← hsame]
    · rwa [State.goto_pc_ne _ hut, hpc] at hw
  · rw [htop]
    exact hread
  · rw [htop] at hu ⊢
    rw [hnext u next hu]
    exact h.current u next hu

theorem Tagged.leave {seen : Set Word} {pc : Pc} (h : Tagged s seen) (hpc : s'.pc = s.pc)
    (htop : s'.top = s.top) (hwords : s'.words = s.words)
    (hnext : ∀ u next, (s.pc u).read = some (s.top, next) →
      s'.next (pointer s.top) = s.next (pointer s.top))
    (hpending : pc.pending = none ∨ pc.pending = (s.pc t).pending) (hloaded : pc.loaded = none) :
    Tagged (s'.goto t pc) seen := by
  refine h.quiet hpc htop hwords hnext hpending (fun w hw => ?_) fun next hn => ?_
  · rw [hloaded] at hw
    exact absurd hw (by simp)
  · rw [Pc.loaded_of_read hn] at hloaded
    exact absurd hloaded (by simp)

theorem Tagged.draw {seen : Set Word} {pc : Pc} {p : Ptr} {w : Word} (h : Tagged s seen)
    (hpc : s'.pc = s.pc) (htop : s'.top = s.top) (hnext : s'.next = s.next)
    (hwords : s'.words = if p ≠ 0 then w :: s.words else s.words) (hw : pointer w = p)
    (hnodup : s'.words.Nodup) (hpending : pc.pending = some w)
    (hloaded : ∀ v, pc.loaded = some v → v ∈ seen)
    (hread : ∀ next, pc.read = some (s.top, next) → s.next (pointer s.top) = next) :
    Tagged (s'.goto t pc) seen := by
  have hself : ((s'.goto t pc).pc t).pending = some w := by rw [State.goto_pc_self, hpending]
  have hother : ∀ u, u ≠ t → ((s'.goto t pc).pc u).pending = (s.pc u).pending := by
    intro u hu
    rw [State.goto_pc_ne _ hu, hpc]
  rw [hwords] at hnodup
  refine h.of_goto hpc subset_rfl (by rw [htop]; exact h.top_seen) ?_ hloaded
    (by rw [htop, hnext]; exact hread) (by rw [htop, hnext]; exact h.current)
  rw [hwords]
  by_cases hp : p = 0
  · rw [if_neg (not_not.2 hp)] at hnodup ⊢
    exact h.fresh.issue (List.Subset.refl _) (fun hlive => absurd (hw.trans hp) hlive) hother hself
  · rw [if_pos hp] at hnodup ⊢
    exact h.fresh.issue (List.subset_cons_self _ _)
      (fun _ => ⟨List.mem_cons_self, (List.nodup_cons.1 hnodup).1⟩) hother hself

theorem Tagged.put {seen : Set Word} {w : Word} (h : Tagged s seen) (hpc : s'.pc = s.pc)
    (htop : s'.top = w) (hwords : s'.words = s.words) (hpending : (s.pc t).pending = some w)
    (hnull : ∀ u v, (s.pc u).loaded = some v → pointer v ≠ 0) :
    Tagged (s'.goto t .idle) (insert w seen) := by
  refine h.of_goto hpc (Set.subset_insert _ _) (by rw [htop]; exact Set.mem_insert _ _) ?_
    (fun v hv => absurd hv (by simp [Pc.loaded])) (fun next hn => absurd hn (by simp [Pc.read]))
    fun u next hu => ?_
  · rw [hwords]
    refine h.fresh.install hpending (fun u hu => ?_) ?_
    · rw [State.goto_pc_ne _ hu, hpc]
    · rw [State.goto_pc_self]
      rfl
  · rw [htop] at hu
    have hl := Pc.loaded_of_read hu
    exact absurd rfl (h.fresh.ne hpending (hnull u w hl) (h.loaded_seen u w hl))

omit [DecidableEq τ] in
theorem Inv.loaded_ne_null {l : List Ptr} (h : Inv s l) {w : Word}
    (hw : (s.pc t).loaded = some w) : pointer w ≠ 0 := by
  have hloc := h.locals t
  cases hpc : s.pc t with
  | popNext top | popCombine top next | popCas top w' =>
    rw [hpc] at hw hloc
    cases hw
    exact hloc
  | _ =>
    rw [hpc] at hw
    exact absurd hw (by simp [Pc.loaded])

omit [DecidableEq τ] in
/-- Where a thread has read below `_top`, no owner writes. -/
theorem Inv.next_of_read {l : List Ptr} (h : Inv s l) {u : τ} {next node : Ptr}
    (hread : (s.pc u).read = some (s.top, next)) (ho : s.owns t node = true) (v : Ptr) :
    (s.setNext node v).next (pointer s.top) = s.next (pointer s.top) := by
  refine State.setNext_next_ne s (fun heq => ?_) v
  obtain ⟨r, rfl, -⟩ :=
    h.shared.chain.exists_cons (h.loaded_ne_null (Pc.loaded_of_read hread))
  rw [← heq, h.shared.owned.unowned _ List.mem_cons_self t] at ho
  exact absurd ho (by simp)

/-- What a thread loads is `_top` as it is now, or `next` of that node. -/
theorem Tagged.reads {seen : Set Word} (hT : Tagged s seen) {spurious : Bool} {pc : Pc}
    (hreads : Reads s spurious (s.pc t) pc) : Tagged (s.goto t pc) seen := by
  have hloaded := hT.loaded_seen t
  generalize hold : s.pc t = old at hreads
  rw [hold] at hloaded
  cases hreads with
  | pushTop | pushFails =>
    exact hT.leave rfl rfl rfl (fun _ _ _ => rfl) (Or.inr (by rw [hold]; rfl)) rfl
  | popFails => exact hT.leave rfl rfl rfl (fun _ _ _ => rfl) (Or.inl rfl) rfl
  | popTop =>
    refine hT.quiet rfl rfl rfl (fun _ _ _ => rfl) (Or.inl rfl) (fun v hv => ?_)
      fun n hn => absurd hn (by simp [Pc.read])
    cases hv
    exact hT.top_seen
  | next =>
    refine hT.quiet rfl rfl rfl (fun _ _ _ => rfl) (Or.inl rfl) hloaded fun n hn => ?_
    obtain ⟨rfl, rfl⟩ := Prod.mk.inj (Option.some.inj hn)
    rfl

theorem Tagged.advance {l : List Ptr} {seen : Set Word} (hT : Tagged s seen) (h : Inv s l)
    {spurious : Bool} (hst : s.advance t spurious = some s') (hnodup : s'.words.Nodup) :
    ∃ seen', Tagged s' seen' := by
  have hloc := h.locals t
  have hloaded := hT.loaded_seen t
  have hread := hT.current t
  have hnull : ∀ u v, (s.pc u).loaded = some v → pointer v ≠ 0 := fun u v => h.loaded_ne_null
  cases stepped_of_advance hst with
  | reads hreads => exact ⟨seen, hT.reads hreads⟩
  | drawsPush hpc hw =>
    exact ⟨seen, hT.draw rfl rfl rfl rfl (hw ▸ pointer_combine _ _) hnodup rfl
      (fun v hv => absurd hv (by simp [Pc.loaded])) fun n hn => absurd hn (by simp [Pc.read])⟩
  | @drawsPop top w next hpc hw =>
    rw [hpc] at hloaded hread
    refine ⟨seen, hT.draw rfl rfl rfl rfl (hw ▸ pointer_combine _ _) hnodup rfl hloaded ?_⟩
    intro n hn
    obtain ⟨rfl, rfl⟩ := Prod.mk.inj (Option.some.inj hn)
    rw [hw, pointer_combine]
    exact hread next rfl
  | writes hpc =>
    rw [hpc] at hloc
    -- the thread writes to its own node, which nobody has read `next` of
    exact ⟨seen, hT.leave rfl rfl rfl (fun u n hn => h.next_of_read hn hloc.1 _)
      (Or.inr (by rw [hpc]; rfl)) rfl⟩
  | @pushes node w hpc => exact ⟨_, hT.put (w := w) rfl rfl rfl (by rw [hpc]; rfl) hnull⟩
  | @pops w hpc => exact ⟨_, hT.put (w := w) rfl rfl rfl (by rw [hpc]; rfl) hnull⟩
  | popsNull => exact ⟨seen, hT.leave rfl rfl rfl (fun _ _ _ => rfl) (Or.inl rfl) rfl⟩

omit [DecidableEq τ] in
/-- With words used once, a successful `pop` installs the current `next`. -/
theorem Tagged.current_eq {seen : Set Word} (hT : Tagged s seen) (a : Action τ) :
    s.current a = true := by
  cases a with
  | step t spurious =>
    unfold State.current
    cases hpc : s.pc t with
    | popCas top w =>
      by_cases htop : s.top = top
      · subst htop
        have hnext := hT.current t (pointer w) (by rw [hpc]; rfl)
        simp [hpc, hnext]
      · simp [hpc, htop]
    | _ => simp [hpc]
  | _ => rfl

omit [DecidableEq τ] in
/-- A thread between calls changes neither words nor what is below `_top`. -/
theorem Tagged.use {seen : Set Word} (h : Tagged s seen) (hpc : s'.pc = s.pc)
    (htop : s'.top = s.top) (hwords : s'.words = s.words)
    (hnext : ∀ u next, (s.pc u).read = some (s.top, next) →
      s'.next (pointer s.top) = s.next (pointer s.top)) : Tagged s' seen := by
  refine ⟨?_, by rw [htop]; exact h.top_seen, by rw [hpc]; exact h.loaded_seen,
    fun u next hu => ?_⟩
  · rw [hwords, hpc]
    exact h.fresh
  · rw [hpc, htop] at hu
    rw [htop, hnext u next hu]
    exact h.current u next hu

omit [DecidableEq τ] in
theorem Tagged.of_idle (hpc : ∀ t, s.pc t = .idle) (htop : pointer s.top = 0) :
    Tagged s {s.top} := by
  have hnone : ∀ t, (s.pc t).pending = none ∧ (s.pc t).loaded = none ∧ (s.pc t).read = none := by
    intro t
    rw [hpc]
    exact ⟨rfl, rfl, rfl⟩
  refine ⟨⟨fun w hw hlive => ?_, fun t w hw => ?_, fun t w hw => ?_, fun t u w hw => ?_⟩,
    Set.mem_singleton _, fun t w hw => ?_, fun t next hn => ?_⟩
  · rw [Set.mem_singleton_iff.1 hw] at hlive
    exact absurd htop hlive
  · simp [hnone t] at hw
  · simp [hnone t] at hw
  · simp [hnone t] at hw
  · simp [hnone t] at hw
  · simp [hnone t] at hn

theorem Tagged.step {l : List Ptr} {seen : Set Word} (hT : Tagged s seen) (h : Inv s l)
    (a : Action τ) (hst : s.step a = some s') (hnodup : s'.words.Nodup) :
    ∃ seen', Tagged s' seen' := by
  cases a with
  | new t node =>
    simp only [State.step] at hst
    split_ifs at hst
    cases hst
    exact ⟨seen, hT.use rfl rfl rfl fun _ _ _ => rfl⟩
  | write t node next =>
    simp only [State.step, State.mayUse, Bool.and_eq_true, decide_eq_true_eq] at hst
    split_ifs at hst with huse
    cases hst
    exact ⟨seen, hT.use rfl rfl rfl fun u n hn => h.next_of_read hn huse.2 next⟩
  | give t u node =>
    simp only [State.step] at hst
    split_ifs at hst
    cases hst
    exact ⟨seen, hT.use rfl rfl rfl fun _ _ _ => rfl⟩
  | push t node =>
    simp only [State.step] at hst
    split_ifs at hst
    cases hst
    exact ⟨seen, hT.leave rfl rfl rfl (fun _ _ _ => rfl) (Or.inl rfl) rfl⟩
  | pop t =>
    simp only [State.step] at hst
    split_ifs at hst
    cases hst
    exact ⟨seen, hT.leave rfl rfl rfl (fun _ _ _ => rfl) (Or.inl rfl) rfl⟩
  | step t spurious => exact hT.advance h hst hnodup

theorem words_sublist (a : Action τ) (hst : s.step a = some s') : s.words.Sublist s'.words := by
  have hissue : ∀ (s₁ : State τ) (p : Ptr) (w : Word), s₁.words.Sublist (s₁.issue p w).words := by
    intro s₁ p w
    unfold State.issue
    split_ifs
    · exact List.sublist_cons_self _ _
    · exact List.Sublist.refl _
  cases a with
  | step t spurious =>
    simp only [State.step, State.advance] at hst
    split at hst <;> try split_ifs at hst
    all_goals cases hst
    all_goals first | exact List.Sublist.refl _ | exact hissue _ _ _
  | _ =>
    simp only [State.step] at hst
    split_ifs at hst
    cases hst
    exact List.Sublist.refl _

/-- **Linearizability when words are unique.** In a run in which no two `combine` calls on
pointers other than null return the same word, the successful compare-exchanges, and the loads
of a null `_top`, are in their order a history of a sequential stack, and the chain from `_top`
is what that stack holds. -/
theorem linearizable_of_unique {s : State τ} (hs : (lockfreeStack τ).Reachable s)
    (hwords : s.words.Nodup) :
    ∃ l, replay s.history = some l ∧ Linked s.next 0 (pointer s.top) l := by
  have hinv : s.words.Nodup → ∃ l seen, Inv s l ∧ Tagged s seen := by
    refine hs.invariant (I := fun s => s.words.Nodup → ∃ l seen, Inv s l ∧ Tagged s seen)
      (fun _ => ⟨[], _, .init, .of_idle (fun _ => rfl) pointer_zero⟩)
      fun s a s' ih _ hst hnodup => ?_
    obtain ⟨l, seen, h, hT⟩ := ih (hnodup.sublist (words_sublist a hst))
    obtain ⟨l', h'⟩ := h.step a (hT.current_eq a) hst
    obtain ⟨seen', hT'⟩ := hT.step h a hst hnodup
    exact ⟨l', seen', h', hT'⟩
  obtain ⟨l, -, h, -⟩ := hinv hwords
  exact ⟨l, h.shared.replay, h.shared.chain⟩

/-- The words of three pushes and a pop are unique. -/
theorem linearizable_of_unique_pop :
    ∃ s : State Bool, (lockfreeStack Bool).Reachable s ∧ s.words.Nodup ∧
      s.history = [.push true 1, .push false 2, .push true 3, .pop false 3] ∧
      ∃ l, replay s.history = some l ∧ Linked s.next 0 (pointer s.top) l := by
  have hrun := (lockfreeStack Bool).reach_of_run (fun _ _ => True)
    ([.new true 1, .new false 2, .new true 3] ++ pushing true 1 ++ pushing false 2 ++
      pushing true 3 ++ popping false) rfl
  exact ⟨_, hrun, by decide, rfl, linearizable_of_unique hrun (by decide)⟩

end LockfreeStack

end Naesala
