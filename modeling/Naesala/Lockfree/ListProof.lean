import Naesala.Library.Linked
import Naesala.Lockfree.ListSteps

/-!
# What `LockfreeList` loses

A `put` that has read `tail` and a null `tail->next` may be overtaken by a `put` and a `take` that
link a node there and remove the old tail. `take` then resets `next` of what it has removed to a
plain `0`, so the delayed compare-exchange succeeds, and links its node to one that is no longer
in the list.

* `not_conserved_of_stale_link` — a run of three threads that loses a payload so.
* `conserved_of_sound` — in a run whose links all land on a node of the list, and whose head
  compare-exchanges all have an up-to-date snapshot (`State.Sound`), the payloads linked are
  those claimed and those in the list, in this order: nothing is lost, doubled, or overtaken.

As for the stack, the invariant has a part about memory (`Shared`) and one about each thread
(`Local`). Nothing about `_tail` is needed.
-/

namespace Naesala

namespace LockfreeList

variable {τ δ : Type} {s s' : State τ δ} {t : τ} {d : Ptr} {l : List Ptr}

/-! ## The property and the condition -/

def Event.linked? : Event τ δ → Option δ
  | .link _ payload => some payload
  | _ => none

def Event.claimed? : Event τ δ → Option δ
  | .claim _ payload => some payload
  | _ => none

/-- The payloads of the nodes that have been linked, in order. -/
def linked (history : List (Event τ δ)) : List δ := history.filterMap Event.linked?

/-- The payloads claimed by successful head compare-exchanges, in order. -/
def claimed (history : List (Event τ δ)) : List δ := history.filterMap Event.claimed?

theorem linked_concat (history : List (Event τ δ)) (e : Event τ δ) :
    linked (history ++ [e]) = linked history ++ e.linked?.toList := by
  cases e <;> simp [linked, Event.linked?]

theorem claimed_concat (history : List (Event τ δ)) (e : Event τ δ) :
    claimed (history ++ [e]) = claimed history ++ e.claimed?.toList := by
  cases e <;> simp [claimed, Event.claimed?]

/-- `node->next`, as a pointer. -/
def State.link (s : State τ δ) (node : Ptr) : Ptr := pointer (s.next node)

/-- The chain from `_head` is a dummy and some nodes, and what has been linked is what has been
claimed and then what these nodes carry. -/
def Conserved (s : State τ δ) : Prop :=
  ∃ d l, Linked s.link 0 (pointer s.head) (d :: l) ∧
    linked s.history = claimed s.history ++ l.map s.data

/-- If the step links a node, it links it to a node in the list; if it moves `_head`, what it has
read of the first two nodes is still so. -/
def State.Sound (s : State τ δ) : Action τ δ → Prop
  | .step t spurious =>
    match s.pc t with
    | .putLink _ tailCombine tailNextCombine _ =>
      s.next (pointer tailCombine) = tailNextCombine → spurious = false →
        Linked.Reaches s.link 0 (pointer s.head) (pointer tailCombine)
    | .takeCas headCombine headNextCombine bytes _ =>
      s.head = headCombine → spurious = false →
        s.link (pointer headCombine) = pointer headNextCombine ∧
          s.data (pointer headNextCombine) = bytes
    | _ => True
  | _ => True

/-! ## The invariant -/

/-- Memory: the chain, its payloads, and who owns what. -/
structure Shared (s : State τ δ) (d : Ptr) (l : List Ptr) : Prop where
  chain : Linked s.link 0 (pointer s.head) (d :: l)
  conserved : linked s.history = claimed s.history ++ l.map s.data
  owned : Ownership 0 s.owns s.allocated (d :: l)

/-- The node that a `take` at `pc` has removed and not reset yet. -/
def Pc.removed : Pc δ → Option Ptr
  | .takeWrite head _ | .takeReset head => some head
  | _ => none

/-- What a thread knows at `pc`. -/
def Pc.Knows (s : State τ δ) (t : τ) : Pc δ → Prop
  | .putTail node | .putNext node _ | .putAdvance node _ _ | .putAdvanceCas node _ _ =>
    s.owns t node = true
  | .putCombine node _ tailNext => s.owns t node = true ∧ pointer tailNext = 0
  | .putLink node _ tailNext newNext =>
    s.owns t node = true ∧ pointer tailNext = 0 ∧ pointer newNext = node
  | .takeCopy _ headNext | .takeCombine _ headNext _ => pointer headNext ≠ 0
  | .takeCas _ headNext _ newHead => pointer headNext ≠ 0 ∧ pointer newHead = pointer headNext
  | .takeWrite head _ | .takeReset head => s.owns t head = true
  | _ => True

/-- One thread: what it knows, and `next` of what it owns is null once it is reset. -/
structure Local (s : State τ δ) (t : τ) (pc : Pc δ) : Prop where
  knows : pc.Knows s t
  reset : ∀ n, s.owns t n = true → pc.removed = some n ∨ s.link n = 0

/-- The invariant of a list whose chain is the dummy `d` and `l`. -/
structure Inv (s : State τ δ) (d : Ptr) (l : List Ptr) : Prop where
  shared : Shared s d l
  locals : ∀ t, Local s t (s.pc t)

theorem Pc.Knows.frame {pc : Pc δ} (h : pc.Knows s t)
    (hkeep : ∀ n, s.owns t n = true → s'.owns t n = true) : pc.Knows s' t := by
  cases pc with
  | putTail node | putNext node _ | putAdvance node _ _ | putAdvanceCas node _ _ =>
    exact hkeep node h
  | putCombine node _ _ | putLink node _ _ _ => exact ⟨hkeep node h.1, h.2⟩
  | takeCopy _ _ | takeCombine _ _ _ | takeCas _ _ _ _ => exact h
  | takeWrite head _ | takeReset head => exact hkeep head h
  | _ => trivial

/-- What one thread knows survives, as long as what it owns does. -/
theorem Local.frame {pc : Pc δ} (h : Local s t pc)
    (hkeep : ∀ n, s.owns t n = true → s'.owns t n = true)
    (hreset : ∀ n, s'.owns t n = true → s.owns t n = true ∧ s'.link n = s.link n ∨ s'.link n = 0) :
    Local s' t pc := by
  refine ⟨h.knows.frame hkeep, ?_⟩
  intro n hn
  rcases hreset n hn with ⟨hold, hlink⟩ | hlink
  · rw [hlink]
    exact h.reset n hold
  · exact Or.inr hlink

/-! ## What the steps do to memory -/

theorem link_setNext (s : State τ δ) (node : Ptr) (w : Word) :
    (s.setNext node w).link = Function.update s.link node (pointer w) := by
  funext n
  by_cases hn : n = node
  · subst hn
    simp [State.link, State.setNext]
  · simp [State.link, State.setNext, hn]

theorem map_setData {node : Ptr} (hnode : node ∉ l) (payload : δ) :
    l.map (s.setData node payload).data = l.map s.data := by
  refine List.map_congr_left ?_
  intro n hn
  have hne : n ≠ node := fun heq => hnode (heq ▸ hn)
  simp [State.setData, hne]

theorem Shared.setNext (h : Shared s d l) {node : Ptr} (ho : s.owns t node = true) (w : Word) :
    Shared (s.setNext node w) d l := by
  refine ⟨?_, h.conserved, h.owned⟩
  rw [link_setNext]
  exact h.chain.update_of_notMem (h.owned.notMem ho)

theorem Shared.setData (h : Shared s d l) {node : Ptr} (ho : s.owns t node = true) (payload : δ) :
    Shared (s.setData node payload) d l := by
  refine ⟨h.chain, ?_, h.owned⟩
  have hnode : node ∉ l := fun hn => h.owned.notMem ho (List.mem_cons_of_mem _ hn)
  rw [map_setData hnode]
  exact h.conserved

theorem Shared.combined (h : Shared s d l) (p : Ptr) : Shared (s.combined p).1 d l :=
  ⟨h.chain, h.conserved, h.owned⟩

theorem Shared.casTail (h : Shared s d l) (expected w : Word) :
    Shared (s.casTail expected w) d l := by
  unfold State.casTail
  split_ifs
  · exact ⟨h.chain, h.conserved, h.owned⟩
  · exact h

theorem Shared.recordEmpty (h : Shared s d l) (t : τ) : Shared (s.record (.empty t)) d l := by
  refine ⟨h.chain, ?_, h.owned⟩
  show linked (s.history ++ [.empty t]) = claimed (s.history ++ [.empty t]) ++ l.map s.data
  rw [linked_concat, claimed_concat, h.conserved]
  simp [Event.linked?, Event.claimed?]

variable [DecidableEq τ]

/-- A node linked to a node in the list that links to nothing: the list has it at its end. -/
theorem Shared.append (h : Shared s d l) {node tail : Ptr} {w : Word} (ho : s.owns t node = true)
    (hnode : s.link node = 0) (hw : pointer w = node)
    (htail : Linked.Reaches s.link 0 (pointer s.head) tail) (hlast : s.link tail = 0) :
    tail ∈ d :: l ∧ Shared (((s.setNext tail w).record (.link t (s.data node))).setOwns t node
      false) d (l ++ [node]) := by
  have hmem := h.chain.mem_of_reaches htail
  obtain ⟨r, hr⟩ := h.chain.eq_concat hmem hlast
  have hout := h.owned.notMem ho
  refine ⟨hmem, ?_, ?_, h.owned.insert ho fun n hn => ?_⟩
  · show Linked (s.setNext tail w).link 0 (pointer s.head) (d :: (l ++ [node]))
    rw [link_setNext, hw, ← List.cons_append, hr, List.append_assoc]
    have hchain := h.chain
    rw [hr] at hchain hout
    exact hchain.snoc hout (h.owned.ne_null t node ho) hnode
  · show linked (s.history ++ [.link t (s.data node)]) =
      claimed (s.history ++ [.link t (s.data node)]) ++ (l ++ [node]).map s.data
    rw [linked_concat, claimed_concat, h.conserved, List.map_append]
    simp [Event.linked?, Event.claimed?]
  · rw [← List.cons_append, List.mem_append, List.mem_singleton] at hn
    exact hn.symm

/-- `_head` moves to the second node, whose payload is claimed. -/
theorem Shared.remove (h : Shared s d l) {headNext : Ptr} {w : Word}
    (hnext : s.link (pointer s.head) = headNext) (hnull : headNext ≠ 0)
    (hw : pointer w = headNext) :
    ∃ r, Shared ((({ s with head := w }).record (.claim t (s.data headNext))).setOwns t
      (pointer s.head) true) headNext r := by
  have hhead := h.chain.head_eq
  have hrest := h.chain.tail
  rw [← hhead, hnext] at hrest
  obtain ⟨r, rfl, hr⟩ := hrest.exists_cons hnull
  have hnodup := List.nodup_cons.1 h.chain.nodup
  refine ⟨r, ?_, ?_, ?_⟩
  · show Linked s.link 0 (pointer w) (headNext :: r)
    rw [hw]
    exact hr.push hnull
  · show linked (s.history ++ [.claim t (s.data headNext)]) =
      claimed (s.history ++ [.claim t (s.data headNext)]) ++ r.map s.data
    rw [linked_concat, claimed_concat, h.conserved, List.map_cons]
    simp [Event.linked?, Event.claimed?]
  · rw [hhead]
    exact h.owned.remove List.mem_cons_self (h.chain.ne_null List.mem_cons_self) hnodup.1
      (List.subset_cons_self _ _) t

/-! ## The step lemma -/

/-- Only thread `t` moves; what the others own, and whether it is reset, stays. -/
theorem Inv.goto {d' : Ptr} {l' : List Ptr} {pc : Pc δ} (h : Inv s d l) (hpc : s'.pc = s.pc)
    (hS : Shared s' d' l') (howns : ∀ u, u ≠ t → ∀ n, s'.owns u n = s.owns u n)
    (hlink : ∀ u, u ≠ t → ∀ n, s.owns u n = true → s'.link n = s.link n)
    (hloc : Local s' t pc) : Inv (s'.goto t pc) d' l' := by
  refine ⟨⟨hS.chain, hS.conserved, hS.owned⟩, ?_⟩
  intro u
  by_cases hu : u = t
  · subst hu
    rw [State.goto_pc_self]
    exact ⟨hloc.knows.frame fun n hn => hn, hloc.reset⟩
  · rw [State.goto_pc_ne _ hu, hpc]
    refine (h.locals u).frame (fun n hn => (howns u hu n).trans hn) ?_
    intro n hn
    rw [State.goto, howns u hu n] at hn
    exact Or.inl ⟨hn, hlink u hu n hn⟩

theorem Inv.quiet {pc : Pc δ} (h : Inv s d l) (hpc : s'.pc = s.pc) (hS : Shared s' d l)
    (howns : s'.owns = s.owns) (hnext : s'.next = s.next) (hremoved : (s.pc t).removed = none)
    (hknows : pc.Knows s t) : Inv (s'.goto t pc) d l := by
  have hlink : s'.link = s.link := by
    funext n
    rw [State.link, State.link, hnext]
  refine h.goto hpc hS (fun u _ n => by rw [howns]) (fun u _ n _ => by rw [hlink])
    ⟨hknows.frame fun n hn => by rw [howns]; exact hn, fun n hn => ?_⟩
  rw [howns] at hn
  rcases (h.locals t).reset n hn with hold | hold
  · rw [hremoved] at hold
    exact absurd hold (by simp)
  · exact Or.inr (by rw [hlink, hold])

omit [DecidableEq τ] in
theorem Reads.knows {spurious : Bool} {pc pc' : Pc δ} (hr : Reads s spurious pc pc')
    (hk : pc.Knows s t) : pc'.Knows s t := by
  cases hr with
  | tail | lags | headTail | copy => exact hk
  | last hnull => exact ⟨hk, hnull⟩
  | linkFails => exact hk.1
  | filled _ _ hnull => exact hnull
  | head | headNext | moved | behind | alone | claimFails => trivial

omit [DecidableEq τ] in
theorem Draws.knows {pc : Pc δ} {p : Ptr} {next : Word → Pc δ} (hd : Draws pc p next)
    (hk : pc.Knows s t) (version : BitVec 16) : (next (combine p version)).Knows s t := by
  cases hd with
  | lags => exact hk
  | link => exact ⟨hk.1, hk.2, pointer_combine _ _⟩
  | claim => exact ⟨hk, pointer_combine _ _⟩
  | swing | behind => trivial

omit [DecidableEq τ] in
theorem Swings.knows {pc pc' : Pc δ} {tail newTail : Word} (hs : Swings pc tail newTail pc')
    (hk : pc.Knows s t) : pc'.Knows s t := by
  cases hs with
  | lags => exact hk
  | linked | behind => trivial

omit [DecidableEq τ] in
theorem Reads.removed {spurious : Bool} {pc pc' : Pc δ} (hr : Reads s spurious pc pc') :
    pc.removed = none ∧ pc'.removed = none := by
  cases hr <;> exact ⟨rfl, rfl⟩

theorem Draws.removed {pc : Pc δ} {p : Ptr} {next : Word → Pc δ} (hd : Draws pc p next) (w : Word) :
    pc.removed = none ∧ (next w).removed = none := by
  cases hd <;> exact ⟨rfl, rfl⟩

theorem Swings.removed {pc pc' : Pc δ} {tail newTail : Word} (hs : Swings pc tail newTail pc') :
    pc.removed = none ∧ pc'.removed = none := by
  cases hs <;> exact ⟨rfl, rfl⟩

theorem Inv.links {tail tailNext newNext : Word} {node : Ptr} (h : Inv s d l)
    (hpc : s.pc t = .putLink node tail tailNext newNext) (hcas : s.next (pointer tail) = tailNext)
    (hok : Linked.Reaches s.link 0 (pointer s.head) (pointer tail)) :
    Inv ((((s.setNext (pointer tail) newNext).record (.link t (s.data node))).setOwns t node
      false).goto t (.putSwing node tail)) d (l ++ [node]) := by
  have hk := (h.locals t).knows
  have hreset := (h.locals t).reset
  rw [hpc] at hk hreset
  obtain ⟨ho, hnull, hw⟩ := hk
  subst hcas
  have hnode : s.link node = 0 := (hreset node ho).resolve_left (by simp [Pc.removed])
  obtain ⟨hmem, hS'⟩ := h.shared.append ho hnode hw hok hnull
  have hother : ∀ {u n}, s.owns u n = true →
      (s.setNext (pointer tail) newNext).link n = s.link n := by
    intro u n hn
    have hne : n ≠ pointer tail := by
      intro heq
      rw [heq] at hn
      exact h.shared.owned.notMem hn hmem
    rw [link_setNext, Function.update_of_ne hne]
  refine h.goto rfl hS' (fun u hu n => updateOwns_of_ne hu _) (fun u _ n hn => hother hn)
    ⟨trivial, fun n hn => Or.inr ?_⟩
  have hold : s.owns t n = true := by
    have hn' : updateOwns s.owns t node false t n = true := hn
    rw [updateOwns_apply] at hn'
    split_ifs at hn'
    exact hn'
  exact (hother hold).trans ((hreset n hold).resolve_left (by simp [Pc.removed]))

theorem Inv.claims {headNext newHead : Word} (h : Inv s d l)
    (hpc : s.pc t = .takeCas s.head headNext (s.data (pointer headNext)) newHead)
    (hnext : s.link (pointer s.head) = pointer headNext) :
    ∃ r, Inv ((({ s with head := newHead }.record (.claim t (s.data (pointer headNext)))).setOwns t
      (pointer s.head) true).goto t (.takeWrite (pointer s.head) (s.data (pointer headNext))))
      (pointer headNext) r := by
  have hk := (h.locals t).knows
  have hreset := (h.locals t).reset
  rw [hpc] at hk hreset
  obtain ⟨r, hS'⟩ := h.shared.remove (t := t) hnext hk.1 hk.2
  refine ⟨r, h.goto rfl hS' (fun u hu n => updateOwns_of_ne hu _) (fun _ _ _ _ => rfl)
    ⟨?_, fun n hn => ?_⟩⟩
  · show updateOwns s.owns t (pointer s.head) true t (pointer s.head) = true
    simp [updateOwns_apply]
  · by_cases hnh : n = pointer s.head
    · exact Or.inl (by rw [hnh]; rfl)
    · have hold : updateOwns s.owns t (pointer s.head) true t n = true := hn
      rw [updateOwns_apply, if_neg fun heq => hnh heq.2] at hold
      exact Or.inr ((hreset n hold).resolve_left (by simp [Pc.removed]))

theorem Inv.resets {head : Ptr} (h : Inv s d l) (hpc : s.pc t = .takeReset head) :
    Inv ((s.setNext head 0).goto t .idle) d l := by
  have hk := (h.locals t).knows
  have hreset := (h.locals t).reset
  rw [hpc] at hk hreset
  refine h.goto rfl (h.shared.setNext hk 0) (fun _ _ _ => rfl) (fun u hu n hn => ?_)
    ⟨trivial, fun n hn => Or.inr ?_⟩
  · rw [link_setNext, Function.update_of_ne (h.shared.owned.ne_of_ne hk hu hn)]
  · rw [link_setNext]
    by_cases hnh : n = head
    · rw [hnh, Function.update_self, pointer_zero]
    · rw [Function.update_of_ne hnh]
      exact (hreset n hn).resolve_left (by simpa [Pc.removed] using fun heq => hnh heq.symm)

theorem Inv.advance (h : Inv s d l) {spurious : Bool} (hok : s.Sound (.step t spurious))
    (hst : s.advance t spurious = some s') : ∃ d' l', Inv s' d' l' := by
  have hk := (h.locals t).knows
  have hS := h.shared
  unfold State.Sound at hok
  cases stepped_of_advance hst with
  | reads hr => exact ⟨d, l, h.quiet rfl hS rfl rfl hr.removed.1 (hr.knows hk)⟩
  | draws hd =>
    exact ⟨d, l, h.quiet rfl (hS.combined _) rfl rfl (hd.removed 0).1 (hd.knows hk _)⟩
  | swings hs =>
    exact ⟨d, l, h.quiet (by simp) (hS.casTail _ _) (by simp) (by simp) hs.removed.1 (hs.knows hk)⟩
  | links hpc hcas hspurious =>
    simp only [hpc] at hok
    exact ⟨d, _, h.links hpc hcas (hok hcas hspurious)⟩
  | empty hpc =>
    exact ⟨d, l, h.quiet rfl (hS.recordEmpty t) rfl rfl (by rw [hpc]; rfl) trivial⟩
  | claims hpc hcas hspurious =>
    simp only [hpc] at hok
    obtain ⟨hnext, rfl⟩ := hok hcas hspurious
    subst hcas
    obtain ⟨r, h'⟩ := h.claims hpc hnext
    exact ⟨_, r, h'⟩
  | writes hpc =>
    have hreset := (h.locals t).reset
    rw [hpc] at hk hreset
    exact ⟨d, l, h.goto rfl (hS.setData hk _) (fun _ _ _ => rfl) (fun _ _ _ _ => rfl) ⟨hk, hreset⟩⟩
  | resets hpc => exact ⟨d, l, h.resets hpc⟩

omit [DecidableEq τ] in
/-- A thread between calls changes memory; what the others own, and whether it is reset, stays. -/
theorem Inv.use (h : Inv s d l) (hidle : (s.pc t).isIdle = true) (hpc : s'.pc = s.pc)
    (hS : Shared s' d l) (hkeep : ∀ u, u ≠ t → ∀ n, s.owns u n = true → s'.owns u n = true)
    (hreset : ∀ u n, s'.owns u n = true →
      s.owns u n = true ∧ s'.link n = s.link n ∨ s'.link n = 0) : Inv s' d l := by
  refine ⟨hS, ?_⟩
  intro u
  rw [hpc]
  by_cases hu : u = t
  · subst hu
    have hloc := h.locals u
    cases hpcu : s.pc u with
    | idle =>
      rw [hpcu] at hloc
      refine ⟨trivial, ?_⟩
      intro n hn
      rcases hreset u n hn with ⟨hold, hlink⟩ | hlink
      · rw [hlink]
        exact hloc.reset n hold
      · exact Or.inr hlink
    | _ =>
      rw [hpcu] at hidle
      exact absurd hidle (by simp [Pc.isIdle])
  · exact (h.locals u).frame (hkeep u hu) (hreset u)

omit [DecidableEq τ] in
/-- A thread between calls has reset all that it owns. -/
theorem Inv.link_of_idle (h : Inv s d l) (hidle : (s.pc t).isIdle = true) {n : Ptr}
    (ho : s.owns t n = true) : s.link n = 0 := by
  refine ((h.locals t).reset n ho).resolve_left ?_
  intro hremoved
  cases hpc : s.pc t with
  | idle =>
    rw [hpc] at hremoved
    exact absurd hremoved (by simp [Pc.removed])
  | _ =>
    rw [hpc] at hidle
    exact absurd hidle (by simp [Pc.isIdle])

/-- **The step lemma**: a sound step keeps the invariant. -/
theorem Inv.step (h : Inv s d l) (a : Action τ δ) (hok : s.Sound a) (hst : s.step a = some s') :
    ∃ d' l', Inv s' d' l' := by
  have hS := h.shared
  cases a with
  | new t node payload =>
    simp only [State.step] at hst
    split_ifs at hst with hnew
    cases hst
    obtain ⟨hidle, hnull, halloc⟩ := hnew
    -- a node that is not in use is not in the list, so its fields may be written
    have hmem : node ∉ d :: l := fun hn => by simp [hS.owned.mem_allocated node hn] at halloc
    have hout : node ∉ l := fun hn => hmem (List.mem_cons_of_mem _ hn)
    refine ⟨d, l, h.use hidle rfl ⟨?_, ?_, hS.owned.allocate hnull halloc t⟩
      (fun u hu n hn => (updateOwns_of_ne hu _).trans hn) fun u n hn => ?_⟩
    · show Linked (s.setNext node 0).link 0 (pointer s.head) (d :: l)
      rw [link_setNext]
      exact hS.chain.update_of_notMem hmem
    · show linked s.history = claimed s.history ++ l.map (s.setData node payload).data
      rw [map_setData hout]
      exact hS.conserved
    · show s.owns u n = true ∧ (s.setNext node 0).link n = s.link n ∨ (s.setNext node 0).link n = 0
      rw [link_setNext]
      by_cases hnn : n = node
      · exact Or.inr (by rw [hnn, Function.update_self, pointer_zero])
      · have hold : updateOwns s.owns t node true u n = true := hn
        rw [updateOwns_apply, if_neg fun heq => hnn heq.2] at hold
        exact Or.inl ⟨hold, Function.update_of_ne hnn _ _⟩
  | write t node payload =>
    simp only [State.step, State.mayUse, Bool.and_eq_true] at hst
    split_ifs at hst with huse
    cases hst
    exact ⟨d, l, h.use huse.1 rfl (hS.setData huse.2 payload) (fun _ _ _ hn => hn)
      fun u n hn => Or.inl ⟨hn, rfl⟩⟩
  | give t u node =>
    simp only [State.step, State.mayUse, Bool.and_eq_true] at hst
    split_ifs at hst with huse
    cases hst
    -- between calls a thread has reset what it owns: the next owner gets it like that
    have hnode := h.link_of_idle huse.1 huse.2
    refine ⟨d, l, h.use huse.1 rfl ⟨hS.chain, hS.conserved, hS.owned.give huse.2 u⟩
      (fun v hv n hn => ?_) fun v n hn => ?_⟩
    · show updateOwns (updateOwns s.owns t node false) u node true v n = true
      rw [updateOwns_apply, updateOwns_of_ne hv, hn, ite_self]
    · show s.owns v n = true ∧ s.link n = s.link n ∨ s.link n = 0
      by_cases hnn : n = node
      · exact Or.inr (by rw [hnn, hnode])
      · have hold : updateOwns (updateOwns s.owns t node false) u node true v n = true := hn
        rw [updateOwns_apply, if_neg fun heq => hnn heq.2, updateOwns_apply,
          if_neg fun heq => hnn heq.2] at hold
        exact Or.inl ⟨hold, rfl⟩
  | put t node =>
    simp only [State.step, State.mayUse, Bool.and_eq_true] at hst
    split_ifs at hst with huse
    cases hst
    exact ⟨d, l, h.goto rfl hS (fun _ _ _ => rfl) (fun _ _ _ _ => rfl)
      ⟨huse.2, fun n hn => Or.inr (h.link_of_idle huse.1 hn)⟩⟩
  | take t =>
    simp only [State.step] at hst
    split_ifs at hst with hidle
    cases hst
    exact ⟨d, l, h.goto rfl hS (fun _ _ _ => rfl) (fun _ _ _ _ => rfl)
      ⟨trivial, fun n hn => Or.inr (h.link_of_idle hidle hn)⟩⟩
  | step t spurious => exact h.advance hok hst

theorem Inv.init {dummy : Ptr} (hdummy : dummy ≠ 0) (payload : δ) :
    Inv (lockfreeList τ dummy payload).init dummy [] where
  shared := ⟨⟨pointer_combine _ _, hdummy, pointer_zero⟩, rfl,
    .of_unowned fun _ hn => decide_eq_true (List.mem_singleton.1 hn)⟩
  locals _ := ⟨trivial, fun _ hn => absurd hn Bool.false_ne_true⟩

/-- **The list loses and doubles nothing, as long as every step is sound**, for any number of
threads and any order of their steps. -/
theorem conserved_of_sound {dummy : Ptr} (hdummy : dummy ≠ 0) {payload : δ} {s : State τ δ}
    (hs : (lockfreeList τ dummy payload).Reach State.Sound s) : Conserved s := by
  obtain ⟨d, l, h⟩ := hs.invariant (I := fun s => ∃ d l, Inv s d l)
    ⟨dummy, [], .init hdummy payload⟩ fun _ a _ ⟨_, _, h⟩ hok hst => h.step a hok hst
  exact ⟨d, l, h.shared.chain, h.shared.conserved⟩

/-- A check that is enough for `State.Sound`: a node is linked to the first or the second one. -/
def State.checked [DecidableEq δ] (s : State τ δ) : Action τ δ → Bool
  | .step t _ =>
    match s.pc t with
    | .putLink _ tailCombine _ _ =>
      let first := pointer s.head
      first ≠ 0 && (pointer tailCombine = first ||
        s.link first ≠ 0 && pointer tailCombine = s.link first)
    | .takeCas headCombine headNextCombine bytes _ =>
      s.link (pointer headCombine) = pointer headNextCombine &&
        s.data (pointer headNextCombine) = bytes
    | _ => true
  | _ => true

omit [DecidableEq τ] in
theorem State.sound_of_checked [DecidableEq δ] (a : Action τ δ) (h : s.checked a = true) :
    s.Sound a := by
  cases a with
  | step t spurious =>
    unfold State.checked at h
    unfold State.Sound
    cases hpc : s.pc t with
    | putLink node tailCombine tailNextCombine newNext =>
      simp only [hpc, Bool.and_eq_true, Bool.or_eq_true, decide_eq_true_eq] at h ⊢
      intro _ _
      obtain ⟨hfirst, heq | hsecond⟩ := h
      · rw [heq]
        exact .refl hfirst
      · rw [hsecond.2]
        exact .step hfirst (.refl hsecond.1)
    | takeCas headCombine headNextCombine bytes newHead =>
      simp only [hpc, Bool.and_eq_true, decide_eq_true_eq] at h ⊢
      exact fun _ _ => h
    | _ => simp only [hpc]
  | _ => trivial

/-- Thread `1` has read the first two nodes for its `take`, and thread `2` puts another node before
it goes on. -/
def takeBesidePut : List (Action ℕ ℕ) :=
  [.new 2 2 20, .put 2 2] ++ List.replicate 6 (.step 2 false) ++
    .take 1 :: List.replicate 5 (.step 1 false) ++
    [.new 2 3 30, .put 2 3] ++ List.replicate 4 (.step 2 false) ++ List.replicate 4 (.step 1 false)

/-- The snapshot of the `take` is still so, and both links land on a node of the list. -/
theorem conserved_of_sound_take :
    ∃ s : State ℕ ℕ, (lockfreeList ℕ 1 0).Reach State.Sound s ∧ Conserved s ∧
      s.history = [.link 2 20, .link 2 30, .claim 1 20] := by
  have hrun := (lockfreeList ℕ 1 0).reach_of_run (fun s a => s.checked a = true) takeBesidePut rfl
  have hsound := hrun.mono fun s a => s.sound_of_checked a
  exact ⟨_, hsound, conserved_of_sound (by decide) hsound, rfl⟩

/-- Thread `1` is about to link node `3` to the dummy `1`. Thread `2` links node `2` there, and
thread `3` takes it, which removes node `1` and resets its `next`. Then thread `1` goes on. -/
def staleLink : List (Action ℕ ℕ) :=
  [.new 1 3 30, .new 2 2 20, .put 1 3] ++ List.replicate 3 (.step 1 false) ++
    .put 2 2 :: List.replicate 6 (.step 2 false) ++
    .take 3 :: List.replicate 9 (.step 3 false) ++ [.step 1 false]

/-- **A delayed link lands on a node that is no longer in the list**: payload `30` has been linked,
nobody has claimed it, and it is not in the list. -/
theorem not_conserved_of_stale_link :
    ∃ s : State ℕ ℕ, (lockfreeList ℕ 1 0).Reachable s ∧ ¬ Conserved s ∧
      s.history = [.link 2 20, .claim 3 20, .link 1 30] := by
  have hrun := (lockfreeList ℕ 1 0).reach_of_run (fun _ _ => True) staleLink rfl
  refine ⟨_, hrun, ?_, rfl⟩
  intro hp
  obtain ⟨d, l, ⟨rfl, -, hl⟩, heq⟩ := hp
  cases l with
  | nil => exact absurd heq (by decide)
  | cons a l => exact hl.2.1 (hl.1.symm.trans (by decide))

end LockfreeList

end Naesala
