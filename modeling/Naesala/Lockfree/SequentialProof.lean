import Naesala.Library.Linked
import Naesala.Lockfree.ListProof
import Naesala.Lockfree.Sequential

/-!
# `LockfreeList` in one thread is a FIFO queue

Nobody comes between the steps of a call, so each load reads what the call began with: `InPut` and
`InTake` list the states within a call, which are the state before it but for the versions drawn,
and after the link or the removal. Between calls the list is `Quiet`: the chain from `_head` is a
dummy and the queued nodes, it ends at the node of `_tail`, and the nodes of the client are not on
it and have a null `next`.

**Theorem (`fifo_of_calls`).** After any calls of a client that puts only nodes it holds, the
outcomes are those of a FIFO queue, its payloads are those of the chain behind the dummy, and the
dummy, the queued nodes and the held ones are distinct; every call ends once its compare-exchanges
stop to fail spuriously, and the destructor deletes the nodes of the chain, each once.
-/

namespace Naesala

namespace LockfreeList

variable {δ : Type} {s s' s₀ : State Unit δ} {d a node n : Ptr} {l : List Ptr} {w w' : Word}
variable {c : Bool} {v : BitVec 16} {ws : List Word}

/-! ## Between calls -/

/-- Between calls, the chain is the dummy `d` and `l`. -/
structure Quiet (s : State Unit δ) (d : Ptr) (l : List Ptr) : Prop where
  idle : s.pc () = .idle
  chain : Linked s.link 0 (pointer s.head) (d :: l)
  tail : ∃ r, d :: l = r ++ [pointer s.tail]
  owned : Ownership 0 s.owns s.allocated (d :: l)
  reset : ∀ n, s.owns () n = true → s.next n = 0

theorem Quiet.tail_mem (h : Quiet s d l) : pointer s.tail ∈ d :: l := by
  obtain ⟨r, hr⟩ := h.tail
  rw [hr]
  exact List.mem_append_right _ List.mem_cons_self

theorem Quiet.link_tail (h : Quiet s d l) : s.link (pointer s.tail) = 0 := by
  obtain ⟨r, hr⟩ := h.tail
  have hchain := h.chain
  rw [hr] at hchain
  exact hchain.suffix.tail

/-- `_head` and `_tail` have the same node exactly if nothing is queued. -/
theorem Quiet.head_eq_tail_iff (h : Quiet s d l) : pointer s.head = pointer s.tail ↔ l = [] := by
  obtain ⟨r, hr⟩ := h.tail
  rw [h.chain.head_eq]
  constructor
  · intro heq
    have hnodup := h.chain.nodup
    cases r with
    | nil => exact (List.cons.inj hr).2
    | cons b r =>
      obtain ⟨rfl, hl⟩ := List.cons.inj hr
      rw [hl, heq] at hnodup
      exact absurd (List.mem_append_right r List.mem_cons_self) (List.nodup_cons.1 hnodup).1
  · intro hnil
    subst hnil
    cases r with
    | nil => exact (List.cons.inj hr).1
    | cons b r => exact absurd (List.cons.inj hr).2 (by simp)

theorem Quiet.link_head (h : Quiet s d l) : s.link d = l.headD 0 := by
  have hrest := h.chain.tail
  cases l with
  | nil => exact hrest
  | cons a l => exact hrest.head_eq

/-! ## The states within a call -/

/-- The state `s₀` with the thread at `pc` and other versions drawn. -/
def State.during (s₀ : State Unit δ) (v : BitVec 16) (ws : List Word) (pc : Pc δ) : State Unit δ :=
  { s₀ with version := v, words := ws, pc := fun _ => pc }

/-- `put` has linked its node with the word `w`. -/
def State.linkedTo (s₀ : State Unit δ) (node : Ptr) (w : Word) : State Unit δ :=
  ((s₀.setNext (pointer s₀.tail) w).record (.link () (s₀.data node))).setOwns () node false

/-- `take` has moved `_head` to the word `w`, which claims `payload`. -/
def State.claimedBy (s₀ : State Unit δ) (w : Word) (payload : δ) : State Unit δ :=
  ({ s₀ with head := w }.record (.claim () payload)).setOwns () (pointer s₀.head) true

/-- The states within a `put` of `node` that began in `s₀`. -/
inductive InPut (s₀ : State Unit δ) (node : Ptr) : State Unit δ → Prop
  | tail (v : BitVec 16) (ws : List Word) : InPut s₀ node (s₀.during v ws (.putTail node))
  | next (v : BitVec 16) (ws : List Word) : InPut s₀ node (s₀.during v ws (.putNext node s₀.tail))
  | combine (v : BitVec 16) (ws : List Word) :
      InPut s₀ node (s₀.during v ws (.putCombine node s₀.tail (s₀.next (pointer s₀.tail))))
  | link (v : BitVec 16) (ws : List Word) {w : Word} : pointer w = node →
      InPut s₀ node (s₀.during v ws (.putLink node s₀.tail (s₀.next (pointer s₀.tail)) w))
  | swing (v : BitVec 16) (ws : List Word) {w : Word} : pointer w = node →
      InPut s₀ node ((s₀.linkedTo node w).during v ws (.putSwing node s₀.tail))
  | swingCas (v : BitVec 16) (ws : List Word) {w w' : Word} : pointer w = node →
      pointer w' = node →
      InPut s₀ node ((s₀.linkedTo node w).during v ws (.putSwingCas s₀.tail w'))

/-- The states in which a `put` of `node` that began in `s₀` returns. -/
def PutDone (s₀ : State Unit δ) (node : Ptr) (s : State Unit δ) (r : Ptr) : Prop :=
  r = 0 ∧ ∃ v ws w w', pointer w = node ∧ pointer w' = node ∧
    s = { s₀.linkedTo node w with tail := w' }.during v ws .idle

/-- The states within a `take` that began in `s₀`, where `a` is the node behind the dummy. -/
inductive InTake (s₀ : State Unit δ) (a : Ptr) : State Unit δ → Prop
  | head (v : BitVec 16) (ws : List Word) : InTake s₀ a (s₀.during v ws .takeHead)
  | tail (v : BitVec 16) (ws : List Word) : InTake s₀ a (s₀.during v ws (.takeTail s₀.head))
  | next (v : BitVec 16) (ws : List Word) :
      InTake s₀ a (s₀.during v ws (.takeNext s₀.head s₀.tail))
  | check (v : BitVec 16) (ws : List Word) :
      InTake s₀ a (s₀.during v ws (.takeCheck s₀.head s₀.tail (s₀.next (pointer s₀.head))))
  | copy (v : BitVec 16) (ws : List Word) : a ≠ 0 →
      InTake s₀ a (s₀.during v ws (.takeCopy s₀.head (s₀.next (pointer s₀.head))))
  | combine (v : BitVec 16) (ws : List Word) : a ≠ 0 →
      InTake s₀ a (s₀.during v ws
        (.takeCombine s₀.head (s₀.next (pointer s₀.head)) (s₀.data a)))
  | cas (v : BitVec 16) (ws : List Word) {w : Word} : a ≠ 0 → pointer w = a →
      InTake s₀ a (s₀.during v ws (.takeCas s₀.head (s₀.next (pointer s₀.head)) (s₀.data a) w))
  | write (v : BitVec 16) (ws : List Word) {w : Word} : a ≠ 0 → pointer w = a →
      InTake s₀ a ((s₀.claimedBy w (s₀.data a)).during v ws
        (.takeWrite (pointer s₀.head) (s₀.data a)))
  | reset (v : BitVec 16) (ws : List Word) {w : Word} : a ≠ 0 → pointer w = a →
      InTake s₀ a (((s₀.claimedBy w (s₀.data a)).setData (pointer s₀.head) (s₀.data a)).during v ws
        (.takeReset (pointer s₀.head)))

/-- The states in which a `take` that began in `s₀` returns `r`. -/
def TakeDone (s₀ : State Unit δ) (a : Ptr) (s : State Unit δ) (r : Ptr) : Prop :=
  (a = 0 ∧ r = 0 ∧ ∃ v ws, s = (s₀.record (.empty ())).during v ws .idle) ∨
  a ≠ 0 ∧ r = pointer s₀.head ∧ ∃ v ws w, pointer w = a ∧
    s = (((s₀.claimedBy w (s₀.data a)).setData (pointer s₀.head) (s₀.data a)).setNext
      (pointer s₀.head) 0).during v ws .idle

/-- How many steps are left, if no compare-exchange fails. -/
def Pc.left : Pc δ → ℕ
  | .takeHead => 8
  | .takeTail _ => 7
  | .takeNext _ _ => 6
  | .putTail _ | .takeCheck _ _ _ => 5
  | .putNext _ _ | .takeCopy _ _ => 4
  | .putCombine _ _ _ | .takeCombine _ _ _ => 3
  | .putLink _ _ _ _ | .takeCas _ _ _ _ => 2
  | .putSwing _ _ | .takeWrite _ _ => 1
  | _ => 0

/-- The thread goes on within its call. -/
theorem alone_of_continue {pc : Pc δ} (hst : s.advance () c = some (s₀.during v ws pc))
    (hidle : pc.isIdle = false) : s.alone c = some (s₀.during v ws pc, none) := by
  simp [State.alone, hst, State.during, hidle]

theorem alone_of_return (hst : s.advance () c = some (s₀.during v ws .idle)) :
    s.alone c = some (s₀.during v ws .idle, some (s.pc ()).result) := by
  simp [State.alone, hst, State.during, Pc.isIdle]

/-- The steps left of the call. -/
def State.left (s : State Unit δ) : ℕ := (s.pc ()).left

theorem left_lt (s : State Unit δ) : s.left < 9 := by
  unfold State.left
  cases s.pc () <;> exact Nat.lt_of_le_of_lt (by simp [Pc.left]) (Nat.lt_succ_self 8)

/-- **Within `put`.** -/
theorem InPut.proceeds (h : Quiet s₀ d l) (node : Ptr) :
    Proceeds State.alone false State.left (InPut s₀ node) (PutDone s₀ node) := by
  intro s c hs
  have hnull : pointer (s₀.next (pointer s₀.tail)) = 0 := h.link_tail
  cases hs with
  | tail v ws =>
    exact Or.inl ⟨_, alone_of_continue rfl rfl, .next v ws, fun _ => Nat.lt_succ_self 4⟩
  | next v ws =>
    refine Or.inl ⟨_, alone_of_continue (if_neg fun hne => hne hnull) rfl, .combine v ws,
      fun _ => Nat.lt_succ_self 3⟩
  | combine v ws =>
    exact Or.inl ⟨_, alone_of_continue rfl rfl, .link _ _ (pointer_combine _ _),
      fun _ => Nat.lt_succ_self 2⟩
  | link v ws hw =>
    cases c with
    | false =>
      exact Or.inl ⟨_, alone_of_continue (if_pos ⟨rfl, rfl⟩) rfl, .swing v ws hw,
        fun _ => Nat.lt_succ_self 1⟩
    | true =>
      exact Or.inl ⟨_, alone_of_continue (if_neg fun hcas => by cases hcas.2) rfl, .tail v ws,
        fun hc => by cases hc⟩
  | swing v ws hw =>
    exact Or.inl ⟨_, alone_of_continue rfl rfl, .swingCas _ _ hw (pointer_combine _ _),
      fun _ => Nat.lt_succ_self 0⟩
  | @swingCas v ws w w' hw hw' =>
    have hcas : ((s₀.linkedTo node w).during v ws (.putSwingCas s₀.tail w')).casTail s₀.tail w' =
        { s₀.linkedTo node w with tail := w' }.during v ws (.putSwingCas s₀.tail w') := if_pos rfl
    have hst : ((s₀.linkedTo node w).during v ws (.putSwingCas s₀.tail w')).advance () c =
        some ({ s₀.linkedTo node w with tail := w' }.during v ws .idle) := by
      show some ((State.casTail _ s₀.tail w').goto () .idle) = _
      rw [hcas]
      rfl
    exact Or.inr ⟨_, _, alone_of_return hst, rfl, v, ws, w, w', hw, hw', rfl⟩

/-- The tests of `take` on a list without queued nodes, and on one with some. -/
theorem advance_check_of_empty (hsame : pointer s₀.head = pointer s₀.tail)
    (hnull : pointer (s₀.next (pointer s₀.head)) = 0) (v : BitVec 16) (ws : List Word) (c : Bool) :
    (s₀.during v ws (.takeCheck s₀.head s₀.tail (s₀.next (pointer s₀.head)))).advance () c =
      some ((s₀.record (.empty ())).during v ws .idle) := by
  simp only [State.advance, State.during, hsame] at hnull ⊢
  simp only [hnull, ne_eq, not_true_eq_false, if_false, if_true]
  rfl

theorem advance_check_of_queued (hne : pointer s₀.head ≠ pointer s₀.tail)
    (hnext : pointer (s₀.next (pointer s₀.head)) ≠ 0) (v : BitVec 16) (ws : List Word) (c : Bool) :
    (s₀.during v ws (.takeCheck s₀.head s₀.tail (s₀.next (pointer s₀.head)))).advance () c =
      some (s₀.during v ws (.takeCopy s₀.head (s₀.next (pointer s₀.head)))) := by
  simp only [State.advance, State.during, hne, hnext, ne_eq, not_true_eq_false, if_false]
  rfl

/-- **Within `take`.** -/
theorem InTake.proceeds (h : Quiet s₀ d l) :
    Proceeds State.alone false State.left (InTake s₀ (l.headD 0)) (TakeDone s₀ (l.headD 0)) := by
  intro s c hs
  have hnext : pointer (s₀.next (pointer s₀.head)) = l.headD 0 := by
    rw [← h.link_head, ← h.chain.head_eq]
    rfl
  have hzero : pointer s₀.head = pointer s₀.tail ↔ l.headD 0 = 0 := by
    rw [h.head_eq_tail_iff]
    cases l with
    | nil => exact ⟨fun _ => rfl, fun _ => rfl⟩
    | cons b l => exact ⟨fun hnil => absurd hnil (by simp), fun h0 => absurd h0
        (h.chain.ne_null (List.mem_cons_of_mem _ List.mem_cons_self))⟩
  generalize l.headD 0 = a at hs hnext hzero ⊢
  cases hs with
  | head v ws =>
    exact Or.inl ⟨_, alone_of_continue rfl rfl, .tail v ws, fun _ => Nat.lt_succ_self 7⟩
  | tail v ws =>
    exact Or.inl ⟨_, alone_of_continue rfl rfl, .next v ws, fun _ => Nat.lt_succ_self 6⟩
  | next v ws =>
    exact Or.inl ⟨_, alone_of_continue rfl rfl, .check v ws, fun _ => Nat.lt_succ_self 5⟩
  | check v ws =>
    by_cases ha : a = 0
    · have hst := advance_check_of_empty (hzero.2 ha) (hnext.trans ha) v ws c
      exact Or.inr ⟨_, _, alone_of_return hst, Or.inl ⟨ha, rfl, v, ws, rfl⟩⟩
    · have hst := advance_check_of_queued (fun heq => ha (hzero.1 heq)) (hnext ▸ ha) v ws c
      exact Or.inl ⟨_, alone_of_continue hst rfl, .copy v ws ha, fun _ => Nat.lt_succ_self 4⟩
  | copy v ws ha =>
    subst hnext
    exact Or.inl ⟨_, alone_of_continue rfl rfl, .combine v ws ha, fun _ => Nat.lt_succ_self 3⟩
  | combine v ws ha =>
    subst hnext
    exact Or.inl ⟨_, alone_of_continue rfl rfl, .cas _ _ ha (pointer_combine _ _),
      fun _ => Nat.lt_succ_self 2⟩
  | cas v ws ha hw =>
    cases c with
    | false =>
      exact Or.inl ⟨_, alone_of_continue (if_pos ⟨rfl, rfl⟩) rfl, .write v ws ha hw,
        fun _ => Nat.lt_succ_self 1⟩
    | true =>
      exact Or.inl ⟨_, alone_of_continue (if_neg fun hcas => by cases hcas.2) rfl, .head v ws,
        fun hc => by cases hc⟩
  | write v ws ha hw =>
    exact Or.inl ⟨_, alone_of_continue rfl rfl, .reset v ws ha hw, fun _ => Nat.lt_succ_self 0⟩
  | @reset v ws w ha hw =>
    exact Or.inr ⟨_, _, alone_of_return rfl, Or.inr ⟨ha, rfl, v, ws, w, hw, rfl⟩⟩

/-! ## Whole calls -/

/-- **After `put`**, the node is at the end of the chain, and no longer the client's. -/
theorem PutDone.quiet {r : Ptr} (hdone : PutDone s₀ node s r) (h : Quiet s₀ d l)
    (ho : s₀.owns () node = true) :
    Quiet s d (l ++ [node]) ∧ s.data = s₀.data ∧
      ∀ n, s.owns () n = true ↔ n ≠ node ∧ s₀.owns () n = true := by
  obtain ⟨-, v, ws, w, w', hw, hw', rfl⟩ := hdone
  have howns : ∀ n, (s₀.linkedTo node w).owns () n = true ↔ n ≠ node ∧ s₀.owns () n = true := by
    intro n
    show updateOwns s₀.owns () node false () n = true ↔ _
    rw [updateOwns_apply]
    split_ifs with hn
    · simp [hn.2]
    · simpa using fun _ heq => hn ⟨rfl, heq⟩
  have hout := h.owned.notMem ho
  refine ⟨⟨rfl, ?_, ⟨d :: l, ?_⟩, ?_, fun n hn => ?_⟩, rfl, howns⟩
  · obtain ⟨r, hr⟩ := h.tail
    show Linked (s₀.setNext (pointer s₀.tail) w).link 0 (pointer s₀.head) (d :: (l ++ [node]))
    have hchain := h.chain
    have hnode : s₀.link node = 0 := by
      rw [State.link, h.reset node ho, pointer_zero]
    rw [link_setNext, hw, ← List.cons_append, hr, List.append_assoc]
    rw [hr] at hchain hout
    exact hchain.snoc hout (h.owned.ne_null () node ho) hnode
  · show d :: (l ++ [node]) = (d :: l) ++ [pointer w']
    rw [hw']
    rfl
  · refine h.owned.insert ho fun n hn => ?_
    rw [← List.cons_append, List.mem_append, List.mem_singleton] at hn
    exact hn.symm
  · have hold := (howns n).1 hn
    have hne : n ≠ pointer s₀.tail := by
      intro heq
      exact h.owned.notMem hold.2 (heq ▸ h.tail_mem)
    show Function.update s₀.next (pointer s₀.tail) w n = 0
    rw [Function.update_of_ne hne]
    exact h.reset n hold.2

/-- **After `take`**, the old dummy is the client's, with the payload of the first queued node,
which is the new dummy. -/
theorem TakeDone.quiet {r : Ptr} (hdone : TakeDone s₀ (l.headD 0) s r) (h : Quiet s₀ d l) :
    (l = [] ∧ r = 0 ∧ Quiet s d [] ∧ s.owns = s₀.owns) ∨
    ∃ b l', l = b :: l' ∧ r = d ∧ d ≠ 0 ∧ Quiet s b l' ∧ (∀ n ∈ l, s.data n = s₀.data n) ∧
      s.data d = s₀.data b ∧ ∀ n, s.owns () n = true ↔ n = d ∨ s₀.owns () n = true := by
  have hd := h.chain.head_eq
  have hd0 := h.chain.ne_null List.mem_cons_self
  rcases hdone with ⟨h0, rfl, v, ws, rfl⟩ | ⟨h0, rfl, v, ws, w, hw, rfl⟩
  · cases l with
    | nil => exact Or.inl ⟨rfl, rfl, ⟨rfl, h.chain, h.tail, h.owned, h.reset⟩, rfl⟩
    | cons b l => exact absurd h0 (h.chain.ne_null (List.mem_cons_of_mem _ List.mem_cons_self))
  · cases l with
    | nil => exact absurd rfl h0
    | cons b l =>
      have hw : pointer w = b := hw
      have hb : b ≠ 0 := h0
      obtain ⟨hdb, hnodup⟩ := List.nodup_cons.1 h.chain.nodup
      subst hd
      have howns : ∀ n, updateOwns s₀.owns () (pointer s₀.head) true () n = true ↔
          n = pointer s₀.head ∨ s₀.owns () n = true := by
        intro n
        rw [updateOwns_apply]
        split_ifs with hn
        · simp [hn.2]
        · exact ⟨Or.inr, fun hor => hor.resolve_left fun heq => hn ⟨rfl, heq⟩⟩
      refine Or.inr ⟨b, l, rfl, rfl, hd0, ⟨rfl, ?_, ?_, ?_, fun n hn => ?_⟩, fun n hn => ?_, ?_,
        howns⟩
      · show Linked (s₀.setNext (pointer s₀.head) 0).link 0 (pointer w) (b :: l)
        rw [link_setNext, hw]
        have hrest := h.chain.tail
        rw [hrest.head_eq] at hrest
        exact hrest.update_of_notMem hdb
      · obtain ⟨r, hr⟩ := h.tail
        cases r with
        | nil => exact absurd (List.cons.inj hr).2 (by simp)
        | cons c r => exact ⟨r, (List.cons.inj hr).2⟩
      · exact h.owned.remove List.mem_cons_self hd0 hdb (List.subset_cons_self _ _) ()
      · show Function.update s₀.next (pointer s₀.head) 0 n = 0
        by_cases hnd : n = pointer s₀.head
        · rw [hnd, Function.update_self]
        · rw [Function.update_of_ne hnd]
          exact h.reset n (((howns n).1 hn).resolve_left hnd)
      · have hne : n ≠ pointer s₀.head := by
          intro heq
          rw [heq] at hn
          exact hdb hn
        exact Function.update_of_ne hne _ _
      · exact Function.update_self _ _ _

theorem Quiet.step_put (h : Quiet s d l) (ho : s.owns () node = true) :
    s.step (.put () node) = some (s.during s.version s.words (.putTail node)) := by
  simp only [State.step, State.mayUse, h.idle, ho, Pc.isIdle, Bool.and_self, if_true]
  rfl

theorem Quiet.step_take (h : Quiet s d l) :
    s.step (.take ()) = some (s.during s.version s.words .takeHead) := by
  simp only [State.step, h.idle, Pc.isIdle, if_true]
  rfl

theorem Quiet.new (h : Quiet s d l) {payload : δ}
    (hst : s.step (.new () node payload) = some s') :
    s.owns () node = false ∧ Quiet s' d l ∧ l.map s'.data = l.map s.data ∧
      ∀ n, s'.owns () n = true ↔ n = node ∨ s.owns () n = true := by
  simp only [State.step] at hst
  split_ifs at hst with hnew
  cases hst
  obtain ⟨-, hnull, halloc⟩ := hnew
  have hmem : node ∉ d :: l := fun hn => by simp [h.owned.mem_allocated node hn] at halloc
  have howns : ∀ n, updateOwns s.owns () node true () n = true ↔
      n = node ∨ s.owns () n = true := by
    intro n
    rw [updateOwns_apply]
    split_ifs with hn
    · simp [hn.2]
    · exact ⟨Or.inr, fun hor => hor.resolve_left fun heq => hn ⟨rfl, heq⟩⟩
  refine ⟨?_, ⟨h.idle, ?_, h.tail, h.owned.allocate hnull halloc (), fun n hn => ?_⟩,
    map_setData (fun hn => hmem (List.mem_cons_of_mem _ hn)) payload, howns⟩
  · rw [Bool.eq_false_iff]
    exact fun ho => by simp [h.owned.owns_allocated () node ho] at halloc
  · show Linked (s.setNext node 0).link 0 (pointer s.head) (d :: l)
    rw [link_setNext]
    exact h.chain.update_of_notMem hmem
  · show Function.update s.next node 0 n = 0
    by_cases hnn : n = node
    · rw [hnn, Function.update_self]
    · rw [Function.update_of_ne hnn]
      exact h.reset n (((howns n).1 hn).resolve_left hnn)

/-- **What a `put` does.** -/
theorem Quiet.put (h : Quiet s d l) (ho : s.owns () node = true) {choices : List Bool}
    (hput : s.put node choices = some s') :
    Quiet s' d (l ++ [node]) ∧ s'.data = s.data ∧
      ∀ n, s'.owns () n = true ↔ n ≠ node ∧ s.owns () n = true := by
  rw [State.put, h.step_put ho, Option.bind_some, Option.map_eq_some_iff] at hput
  obtain ⟨⟨s₁, r⟩, hattempt, rfl⟩ := hput
  exact (attempt_rule (InPut.proceeds h node) (.tail _ _) hattempt).quiet h ho

theorem Quiet.put_isSome (h : Quiet s d l) (ho : s.owns () node = true) (choices : List Bool) :
    (s.put node (choices ++ List.replicate 9 false)).isSome := by
  rw [State.put, h.step_put ho, Option.bind_some, Option.isSome_map]
  exact attempt_isSome (InPut.proceeds h node) left_lt (.tail _ _) choices

/-- **What a `take` does.** -/
theorem Quiet.take (h : Quiet s d l) {choices : List Bool} {r : Ptr}
    (htake : s.take choices = some (s', r)) :
    (l = [] ∧ r = 0 ∧ Quiet s' d [] ∧ s'.owns = s.owns) ∨
    ∃ b l', l = b :: l' ∧ r = d ∧ d ≠ 0 ∧ Quiet s' b l' ∧ (∀ n ∈ l, s'.data n = s.data n) ∧
      s'.data d = s.data b ∧ ∀ n, s'.owns () n = true ↔ n = d ∨ s.owns () n = true := by
  rw [State.take, h.step_take, Option.bind_some] at htake
  exact (attempt_rule (InTake.proceeds h) (.head _ _) htake).quiet h

theorem Quiet.take_isSome (h : Quiet s d l) (choices : List Bool) :
    (s.take (choices ++ List.replicate 9 false)).isSome := by
  rw [State.take, h.step_take, Option.bind_some]
  exact attempt_isSome (InTake.proceeds h) left_lt (.head _ _) choices

/-- **The destructor** deletes the dummy and the queued nodes. -/
theorem Quiet.destruct_eq (h : Quiet s d l) {choices : List (List Bool)} {deleted : List Ptr}
    (hdestruct : State.destruct choices s = some deleted) : deleted = d :: l := by
  induction choices generalizing s d l deleted with
  | nil => cases hdestruct
  | cons cs choices ih =>
    rw [State.destruct, Option.bind_eq_some_iff] at hdestruct
    obtain ⟨⟨s', r⟩, htake, hrest⟩ := hdestruct
    rcases h.take htake with ⟨rfl, rfl, h', -⟩ | ⟨b, l', rfl, rfl, hd, h', -⟩
    · obtain ⟨r, hr⟩ := h'.tail
      have hlast : pointer s'.tail = d := by
        cases r with
        | nil => exact (List.cons.inj hr).1.symm
        | cons c r => exact absurd (List.cons.inj hr).2 (by simp)
      simp only [ne_eq, not_true_eq_false, if_false, hlast] at hrest
      exact (Option.some.inj hrest).symm
    · simp only [ne_eq, hd, not_false_eq_true, if_true, Option.map_eq_some_iff] at hrest
      obtain ⟨rest, hrest, rfl⟩ := hrest
      rw [ih h' hrest]

theorem Quiet.destruct_isSome (h : Quiet s d l) {choices : List (List Bool)}
    (hlen : l.length < choices.length) :
    (State.destruct (choices.map fun cs => cs ++ List.replicate 9 false) s).isSome := by
  induction choices generalizing s d l with
  | nil => exact absurd hlen (Nat.not_lt_zero _)
  | cons cs choices ih =>
    obtain ⟨⟨s', r⟩, htake⟩ := Option.isSome_iff_exists.1 (h.take_isSome cs)
    rw [List.map_cons, State.destruct, htake, Option.bind_some]
    rcases h.take htake with ⟨rfl, rfl, -⟩ | ⟨b, l', rfl, rfl, hd, h', -⟩
    · rfl
    · simp only [ne_eq, hd, not_false_eq_true, if_true, Option.isSome_map]
      exact ih h' (Nat.lt_of_succ_lt_succ hlen)

/-! ## The client -/

/-- The list is quiet, its payloads are what the outcomes leave, and the client holds what its
thread owns. -/
structure Client.Inv (o : Client δ) (d : Ptr) (l : List Ptr) : Prop where
  quiet : Quiet o.list d l
  fifo : Fifo o.log (l.map o.list.data)
  mem_held : ∀ n, n ∈ o.held ↔ o.list.owns () n = true
  nodup : o.held.Nodup

variable {o o' : Client δ}

theorem Client.Inv.call (h : o.Inv d l) {a : Call δ} (ha : o.Allowed a)
    (hcall : o.call a = some o') : ∃ d' l', o'.Inv d' l' := by
  have hq := h.quiet
  cases a with
  | new node payload =>
    rw [Client.call, Option.map_eq_some_iff] at hcall
    obtain ⟨s', hst, rfl⟩ := hcall
    obtain ⟨hfree, hq', hdata, howns⟩ := hq.new hst
    refine ⟨d, l, hq', ?_, fun n => ?_,
      List.nodup_cons.2 ⟨fun hn => by simp [(h.mem_held node).1 hn] at hfree, h.nodup⟩⟩
    · show Fifo o.log (l.map s'.data)
      rw [hdata]
      exact h.fifo
    · show n ∈ node :: o.held ↔ s'.owns () n = true
      rw [List.mem_cons, h.mem_held, howns]
  | write node payload =>
    have ho := (h.mem_held node).1 ha
    rw [Client.call, Option.map_eq_some_iff] at hcall
    obtain ⟨s', hst, rfl⟩ := hcall
    simp only [State.step] at hst
    split_ifs at hst
    cases hst
    refine ⟨d, l, ⟨hq.idle, hq.chain, hq.tail, hq.owned, hq.reset⟩, ?_, h.mem_held, h.nodup⟩
    show Fifo o.log (l.map (o.list.setData node payload).data)
    rw [map_setData fun hn => hq.owned.notMem ho (List.mem_cons_of_mem _ hn)]
    exact h.fifo
  | put node choices =>
    have ho := (h.mem_held node).1 ha
    rw [Client.call, Option.map_eq_some_iff] at hcall
    obtain ⟨s', hput, rfl⟩ := hcall
    obtain ⟨hq', hdata, howns⟩ := hq.put ho hput
    refine ⟨d, l ++ [node], hq', ?_, fun n => ?_, h.nodup.erase node⟩
    · show Fifo (.put (o.list.data node) :: o.log) ((l ++ [node]).map s'.data)
      rw [hdata, List.map_append]
      exact h.fifo.put _
    · show n ∈ o.held.erase node ↔ s'.owns () n = true
      rw [h.nodup.mem_erase_iff, h.mem_held, howns]
  | take choices =>
    rw [Client.call, Option.map_eq_some_iff] at hcall
    obtain ⟨⟨s', r⟩, htake, rfl⟩ := hcall
    have hfifo := h.fifo
    rcases hq.take htake with ⟨rfl, rfl, hq', howns⟩ |
      ⟨b, l', rfl, rfl, hd, hq', hdata, hpay, howns⟩
    · refine ⟨d, [], hq', hfifo.takeNull, fun n => ?_, h.nodup⟩
      show n ∈ o.held ↔ s'.owns () n = true
      rw [howns]
      exact h.mem_held n
    · simp only [ne_eq, hd, not_false_eq_true, if_true]
      -- the node returned is the old dummy, which was in the list
      have hnot : r ∉ o.held := by
        intro hin
        exact hq.owned.notMem ((h.mem_held r).1 hin) List.mem_cons_self
      refine ⟨b, l', hq', ?_, fun n => ?_, List.nodup_cons.2 ⟨hnot, h.nodup⟩⟩
      · show Fifo (.take (some (s'.data r)) :: o.log) (l'.map s'.data)
        rw [List.map_cons] at hfifo
        rw [hpay, List.map_congr_left fun n hn => hdata n (List.mem_cons_of_mem _ hn)]
        exact hfifo.take
      · show n ∈ r :: o.held ↔ s'.owns () n = true
        rw [List.mem_cons, h.mem_held, howns]

theorem Client.Inv.init {dummy : Ptr} (hdummy : dummy ≠ 0) (payload : δ) :
    (sequentialList dummy payload).init.Inv dummy [] where
  quiet := ⟨rfl, ⟨pointer_combine _ _, hdummy, pointer_zero⟩, ⟨[], by
    show [dummy] = [] ++ [pointer (combine dummy 0)]
    rw [pointer_combine]
    rfl⟩, .of_unowned fun _ hn => decide_eq_true (List.mem_singleton.1 hn),
    fun _ hn => absurd hn Bool.false_ne_true⟩
  fifo := .nil
  mem_held _ := ⟨fun hn => absurd hn List.not_mem_nil, fun hn => absurd hn Bool.false_ne_true⟩
  nodup := List.nodup_nil

theorem Client.Inv.reach {dummy : Ptr} (hdummy : dummy ≠ 0) {payload : δ}
    (ho : (sequentialList dummy payload).Reach Client.Allowed o) : ∃ d l, o.Inv d l :=
  ho.invariant (I := fun o => ∃ d l, o.Inv d l) ⟨dummy, [], .init hdummy payload⟩
    fun _ _ _ ⟨_, _, h⟩ ha hst => h.call ha hst

/-- **In one thread, `LockfreeList` is a FIFO queue of payloads.** After any calls of a client that
puts only nodes it holds, with any spurious failures, the outcomes are those of a FIFO queue; what
they leave in it are the payloads of the nodes behind the dummy; the dummy, these nodes and the
nodes that the client holds are distinct, and the held ones have a null `next`. A `put` of a held
node and a `take` return whatever the choices, as soon as nine steps after them do not fail; and the
destructor, which comes to its end in the same way, deletes the dummy and the nodes behind it, each
once. -/
theorem fifo_of_calls {dummy : Ptr} (hdummy : dummy ≠ 0) {payload : δ}
    (ho : (sequentialList dummy payload).Reach Client.Allowed o) :
    ∃ d l, Linked o.list.link 0 (pointer o.list.head) (d :: l) ∧
      Fifo o.log (l.map o.list.data) ∧
      (d :: l ++ o.held).Nodup ∧ (∀ n ∈ o.held, n ≠ 0 ∧ o.list.next n = 0) ∧
      (∀ node ∈ o.held, ∀ choices,
        (o.call (.put node (choices ++ List.replicate 9 false))).isSome) ∧
      (∀ choices, (o.call (.take (choices ++ List.replicate 9 false))).isSome) ∧
      (∀ choices deleted, State.destruct choices o.list = some deleted → deleted = d :: l) ∧
      ∀ choices : List (List Bool), l.length < choices.length →
        (State.destruct (choices.map fun cs => cs ++ List.replicate 9 false) o.list).isSome := by
  obtain ⟨d, l, h⟩ := Client.Inv.reach hdummy ho
  have hq := h.quiet
  refine ⟨d, l, hq.chain, h.fifo, ?_, fun n hn => ?_, fun node hnode choices => ?_,
    fun choices => ?_, fun choices deleted => hq.destruct_eq, fun choices => hq.destruct_isSome⟩
  · refine List.nodup_append.2 ⟨hq.chain.nodup, h.nodup, fun a ha b hb heq => ?_⟩
    rw [heq] at ha
    exact hq.owned.notMem ((h.mem_held b).1 hb) ha
  · have hown := (h.mem_held n).1 hn
    exact ⟨hq.owned.ne_null () n hown, hq.reset n hown⟩
  · rw [Client.call, Option.isSome_map]
    exact hq.put_isSome ((h.mem_held node).1 hnode) choices
  · rw [Client.call, Option.isSome_map]
    exact hq.take_isSome choices

/-- Two payloads are put, the first is taken with the node of the constructor, and that node is put
again; one weak compare-exchange fails. -/
theorem fifo_of_calls_three :
    ∃ o : Client ℕ, (sequentialList 1 0).Reach Client.Allowed o ∧
      o.log = [.put 10, .take (some 10), .put 20, .put 10] ∧ o.held = [] ∧
      ∃ d l, Fifo o.log (l.map o.list.data) ∧ (d :: l ++ o.held).Nodup := by
  have hrun := (sequentialList 1 0).reach_of_run Client.Allowed
    [.new 2 10, .put 2 (List.replicate 6 false), .new 3 20,
      .put 3 ([false, false, false, true] ++ List.replicate 6 false),
      .take (List.replicate 9 false), .put 1 (List.replicate 6 false)] rfl
  obtain ⟨d, l, -, hfifo, hnodup, -⟩ := fifo_of_calls (by decide) hrun
  exact ⟨_, hrun, rfl, rfl, d, l, hfifo, hnodup⟩

end LockfreeList

end Naesala
