import Naesala.Lockfree.StackProof
import Naesala.LockfreePool.OnStack
import Naesala.LockfreePool.Recycling

/-!
# No block is handed out twice

`LockfreeSlabPool` counts on `get` and `back` being one step each on a set of free blocks, and
`LockfreeStack` on a thread pushing only what it owns. Here the two meet. `Coupled` is the invariant
of either machine beside that of the other, with the free blocks being what the history of the stack
leaves in it, and with what ties them: a block that is made is free, in use (then `none` owns it),
or in a call of `push`, whose thread is in `decr_ref` of it or alone has it.

A call of the stack takes effect in one step, and that step is the one of `get` or `back`; all other
steps leave the free blocks as they are.

**Theorem (`handed_out_once`).** With disciplined owners, and words that are used once, every block
that was made is at any time in exactly one place: on the stack, with the thread that `get` returned
it to, referenced, or on its way back.
-/

namespace Naesala

/-! ## What a step of the stack can do -/

namespace LockfreeStack

variable {τ : Type} [DecidableEq τ] {s s' : State τ} {t u : τ} {l l' : List Ptr}

/-- What a thread is doing. -/
inductive Task where
  | none
  | push (node : Ptr)
  | pop
  deriving DecidableEq

def Pc.task : Pc → Task
  | .idle => .none
  | .pushCombine node | .pushLoad node _ | .pushNext node _ _ | .pushCas node _ _ => .push node
  | .popLoad | .popNext _ | .popCombine _ _ | .popCas _ _ => .pop

theorem Pc.task_eq_none {pc : Pc} : pc.task = .none ↔ pc = .idle := by
  cases pc <;> simp [Pc.task]

/-- What a step of a call of thread `u` can do: go on with the call, or return with an effect. -/
inductive Moved (s : State τ) (u : τ) : State τ → Prop
  | within {s' : State τ} : (s'.pc u).task = (s.pc u).task → s'.pc u ≠ .idle →
      s'.history = s.history → s'.owns = s.owns → Moved s u s'
  | pushed {s' : State τ} {node : Ptr} : (s.pc u).task = .push node → s'.pc u = .idle →
      s'.history = s.history ++ [.push u node] → s'.owns = updateOwns s.owns u node false →
      Moved s u s'
  | popped {s' : State τ} {node : Ptr} : (s.pc u).task = .pop → s'.pc u = .idle →
      s'.history = s.history ++ [.pop u node] → s'.owns = updateOwns s.owns u node true →
      Moved s u s'
  | poppedNull {s' : State τ} : (s.pc u).task = .pop → s'.pc u = .idle →
      s'.history = s.history ++ [.popNull u] → s'.owns = s.owns → Moved s u s'

omit [DecidableEq τ] in
theorem Reads.task {spurious : Bool} {old pc : Pc} (h : Reads s spurious old pc) :
    pc.task = old.task ∧ pc ≠ .idle := by
  cases h <;> exact ⟨rfl, nofun⟩

theorem moved {spurious : Bool} (h : s.advance u spurious = some s') : Moved s u s' := by
  have hwithin : ∀ {s₁ : State τ} {pc : Pc}, pc.task = (s.pc u).task → pc ≠ .idle →
      s₁.history = s.history → s₁.owns = s.owns → Moved s u (s₁.goto u pc) := by
    intro s₁ pc htask hne hhistory howns
    have hpc : (s₁.goto u pc).pc u = pc := s₁.goto_pc_self u pc
    exact .within (by rw [hpc, htask]) (by rwa [hpc]) hhistory howns
  cases stepped_of_advance h with
  | reads hreads => exact hwithin hreads.task.1 hreads.task.2 rfl rfl
  | drawsPush hpc | drawsPop hpc | writes hpc =>
    exact hwithin (by rw [hpc]; rfl) (by simp) rfl rfl
  | pushes hpc => exact .pushed (by rw [hpc]; rfl) (State.goto_pc_self _ _ _) rfl rfl
  | pops hpc => exact .popped (by rw [hpc]; rfl) (State.goto_pc_self _ _ _) rfl rfl
  | popsNull hpc => exact .poppedNull (by rw [hpc]; rfl) (State.goto_pc_self _ _ _) rfl rfl

/-- Whatever a step does, the other threads stay where they are. -/
theorem advance_frame {spurious : Bool} (h : s.advance u spurious = some s') :
    s'.allocated = s.allocated ∧ ∀ v, v ≠ u → s'.pc v = s.pc v := by
  have hgoto : ∀ (s₁ : State τ) (pc : Pc), s₁.pc = s.pc → s₁.allocated = s.allocated →
      (s₁.goto u pc).allocated = s.allocated ∧ ∀ v, v ≠ u → (s₁.goto u pc).pc v = s.pc v :=
    fun s₁ pc hpc hallocated => ⟨hallocated, fun v hv => by rw [s₁.goto_pc_ne hv, hpc]⟩
  cases stepped_of_advance h <;> exact hgoto _ _ rfl rfl

/-! ## The invariant of a stack with unique words -/

/-- What holds of a stack whose chain is `l`, as long as words are used once. -/
def Sound (s : State τ) (l : List Ptr) : Prop := Inv s l ∧ ∃ seen, Tagged s seen

/-- **A step of the stack**, whose history says what the chain is. -/
theorem Sound.step {a : Action τ} (h : Sound s l) (hst : s.step a = some s')
    (hwords : s'.words.Nodup) : ∃ l', Sound s' l' ∧ replay s'.history = some l' := by
  obtain ⟨hinv, seen, htagged⟩ := h
  obtain ⟨l', hinv'⟩ := hinv.step a (htagged.current_eq a) hst
  exact ⟨l', ⟨hinv', htagged.step hinv a hst hwords⟩, hinv'.shared.replay⟩

theorem Sound.step_same {a : Action τ} (h : Sound s l) (hst : s.step a = some s')
    (hwords : s'.words.Nodup) (hhistory : s'.history = s.history) : Sound s' l := by
  obtain ⟨l', h', hreplay⟩ := h.step hst hwords
  rw [hhistory, h.1.shared.replay, Option.some_inj] at hreplay
  rwa [hreplay]

theorem Sound.step_event {a : Action τ} {e : Event τ} (h : Sound s l) (hst : s.step a = some s')
    (hwords : s'.words.Nodup) (hhistory : s'.history = s.history ++ [e]) :
    ∃ l', Sound s' l' ∧ e.apply l = some l' := by
  obtain ⟨l', h', hreplay⟩ := h.step hst hwords
  rw [hhistory, replay_concat, h.1.shared.replay] at hreplay
  exact ⟨l', h', hreplay⟩

end LockfreeStack

/-! ## What a step of the counts can do -/

namespace LockfreeSlabPool

variable {τ β : Type} [DecidableEq τ] [DecidableEq β] {s s' : State τ β} {t u : τ} {b : β}

/-- But for `back`, a step of a call leaves the free blocks as they are. -/
theorem advance_frame {spurious : Bool} (h : s.advance t spurious = some s')
    (hback : ∀ b, s.pc t ≠ .decrBack b) :
    s'.pool = s.pool ∧ s'.allocated = s.allocated ∧ ∀ u, u ≠ t → s'.pc u = s.pc u := by
  have hgoto : ∀ (s₁ : State τ β) (pc : Pc β), s₁.pc = s.pc → s₁.pool = s.pool →
      s₁.allocated = s.allocated → (s₁.goto t pc).pool = s.pool ∧
        (s₁.goto t pc).allocated = s.allocated ∧ ∀ u, u ≠ t → (s₁.goto t pc).pc u = s.pc u :=
    fun s₁ pc hpc hpool hallocated =>
      ⟨hpool, hallocated, fun u hu => (Function.update_of_ne hu _ _).trans (congrFun hpc u)⟩
  cases stepped_of_advance h with
  | backs hpc => exact absurd hpc (hback _)
  | reads | resets | acquires | falls | releases => exact hgoto _ _ rfl rfl rfl

variable [Fintype τ]

/-- A block that another thread has just obtained stays with it. -/
theorem Owned.got_advance {spurious : Bool} (h : Owned s) (hcounted : Counted s)
    (hs : s.advance t spurious = some s') (hu : u ≠ t) (hgot : s.got b = some u) :
    s'.got b = some u := by
  cases stepped_of_advance hs with
  | @acquires c last hpc =>
    have hne : b ≠ c := by
      intro heq
      subst heq
      -- thread `t` has the block itself, or a reference of it
      have howner := (h.owners t).got_or (b := b) (by rw [hpc]; exact decide_eq_true rfl)
      rcases howner with hgot' | hheld
      · rw [hgot, Option.some_inj] at hgot'
        exact hu hgot'
      · exact h.of_got hgot ((hcounted.accounts b).decrs_le_begun.trans_lt hheld)
    exact (Function.update_of_ne hne _ _).trans hgot
  | reads | resets | falls | backs | releases => exact hgot

/-- A block on its way back to the pool is nowhere else. -/
theorem Owned.of_returning (h : Owned s) (hpc : s.pc t = .decrBack b) :
    s.allocated b = true ∧ b ∉ s.pool ∧ s.got b = none ∧ ∀ u, s.pc u = .decrBack b → u = t := by
  have hreturning : ∀ {u}, s.pc u = .decrBack b → ((s.pc u).returning b).toNat = 1 := by
    intro u hu
    rw [hu]
    exact congrArg Bool.toNat (decide_eq_true rfl)
  have hplaced := h.placed b
  have hone := Bool.toNat_le (s.allocated b)
  have hpos := toNat_le_population (p := Pc.returning b) (f := s.pc) t
  rw [hreturning hpc] at hpos
  have hplaces : s.places b = 0 := by omega
  refine ⟨?_, fun hmem => ?_, ?_, fun u hu => ?_⟩
  · rw [← Bool.not_eq_false]
    intro hnot
    rw [hnot, Bool.toNat_false] at hplaced
    omega
  · have hcount := List.count_pos_iff.2 hmem
    simp only [State.places] at hplaces
    omega
  · cases hgot : s.got b with
    | none => rfl
    | some u => simp [State.places, hgot] at hplaces
  · by_contra hne
    have hpop := population_update (p := Pc.returning b) (f := s.pc) t .idle
    have hother := toNat_le_population (p := Pc.returning b) (f := Function.update s.pc t .idle) u
    rw [Function.update_of_ne hne, hreturning hu] at hother
    rw [hreturning hpc] at hpop
    have hidle : ((Pc.idle : Pc β).returning b).toNat = 0 := rfl
    omega

omit [DecidableEq τ] in
/-- A block that `get` has returned is nowhere else. -/
theorem Owned.of_got_place (h : Owned s) (hgot : s.got b = some t) :
    s.allocated b = true ∧ b ∉ s.pool ∧ ∀ u, s.pc u ≠ .decrBack b := by
  have hplaced := h.placed b
  have hone := Bool.toNat_le (s.allocated b)
  simp only [State.places, hgot, Option.isSome_some, Bool.toNat_true] at hplaced
  refine ⟨?_, fun hmem => ?_, fun u hu => ?_⟩
  · rw [← Bool.not_eq_false]
    intro hnot
    rw [hnot, Bool.toNat_false] at hplaced
    omega
  · have hcount := List.count_pos_iff.2 hmem
    omega
  · have hother := toNat_le_population (p := Pc.returning b) (f := s.pc) u
    have htrue : ((s.pc u).returning b).toNat = 1 := by
      rw [hu]
      exact congrArg Bool.toNat (decide_eq_true rfl)
    omega

end LockfreeSlabPool

/-! ## What the pool does to the counts -/

namespace PooledStack

open LockfreeSlabPool LockfreeStack

section Counts

variable {τ : Type} [Fintype τ] {s : LockfreeSlabPool.State τ Ptr} {t u : τ} {b : Ptr}

theorem counted_create (h : Counted s) (hnew : s.allocated b = false) (t : τ) :
    Counted (create s t b) := by
  -- `get` makes a block where none is free
  have hempty : Counted { s with pool := [] } := ⟨h.accounts, h.locals⟩
  have hget : LockfreeSlabPool.State.get { s with pool := [] } t b =
      some { create s t b with pool := [] } := by
    rw [LockfreeSlabPool.State.get, if_neg List.not_mem_nil, if_pos ⟨rfl, hnew⟩]
    rfl
  have hcounted := hempty.get hget
  exact ⟨hcounted.accounts, hcounted.locals⟩

theorem owned_create (h : Owned s) (hcounted : Counted s) (hnew : s.allocated b = false) (t : τ) :
    Owned (create s t b) := by
  have hplaced := h.placed b
  rw [hnew, Bool.toNat_false] at hplaced
  have hgot : s.got b = none := by
    cases hgot : s.got b with
    | none => rfl
    | some u => simp [LockfreeSlabPool.State.places, hgot] at hplaced
  have hnot : ¬ s.decrs b < s.incrs b := by
    intro hlt
    simp [LockfreeSlabPool.State.places, hlt] at hplaced
  refine ⟨fun c => ?_, h.owners_get hcounted hgot hnot rfl rfl rfl fun c hc => ?_⟩
  · show s.pool.count c + (Function.update s.got b (some t) c).isSome.toNat +
      (decide (s.decrs c < s.incrs c)).toNat + population (Pc.returning c) s.pc =
        (Function.update s.allocated b true c).toNat
    by_cases hc : c = b
    · subst hc
      rw [Function.update_self, Function.update_self, Option.isSome_some, Bool.toNat_true]
      simp only [LockfreeSlabPool.State.places, hgot, Option.isSome_none,
        Bool.toNat_false] at hplaced
      omega
    · rw [Function.update_of_ne hc, Function.update_of_ne hc]
      exact h.placed c
  · by_cases hcb : c = b
    · exact hcb ▸ Function.update_self _ _ _
    · exact (Function.update_of_ne hcb _ _).trans hc

theorem owned_giveUp (h : Owned s) (hgot : s.got b = some t) (hidle : s.pc t = .idle) :
    Owned (giveUp s b) := by
  refine ⟨fun c => ?_, fun u => ?_⟩
  · have hplaced := h.placed c
    simp only [LockfreeSlabPool.State.places] at hplaced
    show (b :: s.pool).count c + (Function.update s.got b none c).isSome.toNat +
      (decide (s.decrs c < s.incrs c)).toNat + population (Pc.returning c) s.pc =
        (s.allocated c).toNat
    by_cases hc : c = b
    · subst hc
      rw [hgot, Option.isSome_some, Bool.toNat_true] at hplaced
      rw [List.count_cons_self, Function.update_self, Option.isSome_none, Bool.toNat_false]
      omega
    · rw [List.count_cons_of_ne fun hbc => hc hbc.symm, Function.update_of_ne hc]
      exact hplaced
  · refine (h.owners u).mono (fun c hraising hc => ?_) (fun _ _ hheld => hheld)
      fun _ _ hzero => hzero
    have hne : c ≠ b := by
      intro heq
      subst heq
      rw [hgot, Option.some_inj] at hc
      subst hc
      rw [hidle] at hraising
      cases hraising
    exact (Function.update_of_ne hne _ _).trans hc

end Counts

/-! ## The invariant -/

variable {τ : Type}

/-- What a thread does in the pool goes with what it does in the stack. -/
def Fits (s : State τ) (t : τ) : Task → Prop
  | .none => s.making t = true → s.slab.pc t = .idle
  | .push b => s.making t = false ∧
      (s.slab.pc t = .decrBack b ∨ s.slab.pc t = .idle ∧ s.slab.got b = some t)
  | .pop => s.making t = false ∧ s.slab.pc t = .idle

/-- The counts and the stack, and what ties them. -/
structure Coupled [Fintype τ] (s : State τ) : Prop where
  counted : Counted s.slab
  owned : Owned s.slab
  sound : Sound s.stack s.slab.pool
  allocated : s.stack.allocated = s.slab.allocated
  shared : s.stack.pc none = .idle
  held : ∀ b, s.slab.allocated b = true → b ∈ s.slab.pool ∨ ∃ o, s.stack.owns o b = true
  pushing : ∀ t b, s.stack.owns (some t) b = true → (s.stack.pc (some t)).task = .push b
  fits : ∀ t, Fits s t (s.stack.pc (some t)).task

variable {s s' : State τ} {t u : τ} {b c : Ptr}

/-- A thread that does not move keeps what it does, if its block stays with it. -/
theorem Fits.frame {task : Task} (h : Fits s t task) (hmaking : s'.making t = s.making t)
    (hpc : s'.slab.pc t = s.slab.pc t)
    (hgot : ∀ b, task = .push b → s.slab.got b = some t → s'.slab.got b = some t) :
    Fits s' t task := by
  cases task with
  | none => exact fun hmk => hpc.trans (h (hmaking ▸ hmk))
  | push b =>
    refine ⟨hmaking.trans h.1, ?_⟩
    rcases h.2 with hback | ⟨hidle, hg⟩
    · exact Or.inl (hpc.trans hback)
    · exact Or.inr ⟨hpc.trans hidle, hgot b rfl hg⟩
  | pop => exact ⟨hmaking.trans h.1, hpc.trans h.2⟩

variable [DecidableEq τ] [Fintype τ]

namespace Coupled

omit [DecidableEq τ] in
theorem owns_none (h : Coupled s) (hallocated : s.slab.allocated b = true)
    (hpool : b ∉ s.slab.pool) (hpush : ∀ u, (s.stack.pc (some u)).task ≠ .push b) :
    s.stack.owns none b = true := by
  obtain ⟨o, ho⟩ := (h.held b hallocated).resolve_left hpool
  cases o with
  | none => exact ho
  | some u => exact absurd (h.pushing u b ho) (hpush u)

omit [DecidableEq τ] in
theorem owns_of_returning (h : Coupled s) (hidle : s.stack.pc (some t) = .idle)
    (hpc : s.slab.pc t = .decrBack b) : s.stack.owns none b = true := by
  classical
  obtain ⟨hallocated, hpool, hgot, honly⟩ := h.owned.of_returning hpc
  refine h.owns_none hallocated hpool fun u hu => ?_
  have hfits := h.fits u
  rw [hu] at hfits
  rcases hfits.2 with hback | ⟨-, hgot'⟩
  · rw [honly u hback, hidle] at hu
    cases hu
  · rw [hgot] at hgot'
    cases hgot'

omit [DecidableEq τ] in
theorem owns_of_got (h : Coupled s) (hidle : s.stack.pc (some t) = .idle)
    (hgot : s.slab.got b = some t) : s.stack.owns none b = true := by
  obtain ⟨hallocated, hpool, hback⟩ := h.owned.of_got_place hgot
  refine h.owns_none hallocated hpool fun u hu => ?_
  have hfits := h.fits u
  rw [hu] at hfits
  rcases hfits.2 with hback' | ⟨-, hgot'⟩
  · exact hback u hback'
  · rw [hgot, Option.some_inj] at hgot'
    rw [← hgot', hidle] at hu
    cases hu

end Coupled

omit [Fintype τ] in
/-- `node` changes hands between threads that are in no call. -/
theorem sound_passOn {stack : LockfreeStack.State (Option τ)} {l : List Ptr} {o : Option τ}
    (h : Sound stack l) (hidle : stack.pc o = .idle) (hown : stack.owns o b = true)
    (hwords : stack.words.Nodup) (o' : Option τ) : Sound (passOn stack o o' b) l := by
  have hstep : stack.step (.give o o' b) = some (passOn stack o o' b) := by
    simp only [LockfreeStack.State.step, LockfreeStack.State.mayUse, hidle, hown, decide_true,
      Bool.and_self, if_true]
    rfl
  exact h.step_same hstep hwords rfl

omit [Fintype τ] in
/-- Thread `t` calls `push` on a block in use. -/
theorem sound_enterPush {stack : LockfreeStack.State (Option τ)} {l : List Ptr}
    (h : Sound stack l) (hnone : stack.pc none = .idle) (hidle : stack.pc (some t) = .idle)
    (hown : stack.owns none b = true) (hwords : stack.words.Nodup) :
    Sound (enterPush stack t b) l := by
  have hgiven := sound_passOn h hnone hown hwords (some t)
  have hmine : (passOn stack none (some t) b).owns (some t) b = true := by
    show updateOwns _ (some t) b true (some t) b = true
    rw [updateOwns_apply, if_pos ⟨rfl, rfl⟩]
  have hpc : (passOn stack none (some t) b).pc (some t) = .idle := hidle
  have hstep : (passOn stack none (some t) b).step (.push (some t) b) =
      some (enterPush stack t b) := by
    simp only [LockfreeStack.State.step, LockfreeStack.State.mayUse, hpc, hmine, decide_true,
      Bool.and_self, if_true]
    rfl
  exact hgiven.step_same hstep hwords rfl

namespace Coupled

/-- **A call of `push` begins**, in `decr_ref` or in `back`. -/
theorem enterPush (h : Coupled s) (hidle : s.stack.pc (some t) = .idle)
    (hmaking : s.making t = false)
    (hblock : s.slab.pc t = .decrBack b ∨ s.slab.pc t = .idle ∧ s.slab.got b = some t)
    (hwords : s.stack.words.Nodup) :
    Coupled { s with stack := PooledStack.enterPush s.stack t b } := by
  have hown : s.stack.owns none b = true := by
    rcases hblock with hback | ⟨-, hgot⟩
    · exact h.owns_of_returning hidle hback
    · exact h.owns_of_got hidle hgot
  have hself : (PooledStack.enterPush s.stack t b).pc (some t) = .pushCombine b :=
    LockfreeStack.State.goto_pc_self _ _ _
  have hother : ∀ o, o ≠ some t → (PooledStack.enterPush s.stack t b).pc o = s.stack.pc o :=
    fun o ho => LockfreeStack.State.goto_pc_ne _ ho _
  have howns : ∀ o c, (PooledStack.enterPush s.stack t b).owns o c =
      if o = some t ∧ c = b then true
      else if o = none ∧ c = b then false else s.stack.owns o c := by
    intro o c
    show updateOwns (updateOwns s.stack.owns none b false) (some t) b true o c = _
    rw [updateOwns_apply, updateOwns_apply]
  refine ⟨h.counted, h.owned, sound_enterPush h.sound h.shared hidle hown hwords, h.allocated,
    ?_, fun c hc => ?_, fun u c hc => ?_, fun u => ?_⟩
  · rw [← h.shared]
    exact hother none (by simp)
  · rcases h.held c hc with hpool | ⟨o, ho⟩
    · exact Or.inl hpool
    · by_cases hcb : c = b
      · exact Or.inr ⟨some t, by rw [howns, if_pos ⟨rfl, hcb⟩]⟩
      · exact Or.inr ⟨o, by
          rw [howns, if_neg fun heq => hcb heq.2, if_neg fun heq => hcb heq.2, ho]⟩
  · show ((PooledStack.enterPush s.stack t b).pc (some u)).task = .push c
    have hc' : (PooledStack.enterPush s.stack t b).owns (some u) c = true := hc
    rw [howns] at hc'
    split_ifs at hc' with hnew hold
    · rw [hnew.1, hself, hnew.2]
      rfl
    · by_cases hut : some u = some t
      · -- thread `t` owned nothing, as it was in no call
        have hpush := h.pushing u c hc'
        rw [hut, hidle] at hpush
        cases hpush
      · rw [hother _ hut]
        exact h.pushing u c hc'
  · show Fits _ u ((PooledStack.enterPush s.stack t b).pc (some u)).task
    by_cases hut : u = t
    · subst hut
      rw [hself]
      exact ⟨hmaking, hblock⟩
    · rw [hother _ fun heq => hut (Option.some_inj.1 heq)]
      exact (h.fits u).frame rfl rfl fun _ _ hgot => hgot

theorem enterPop (h : Coupled s) (hrest : s.atRest t) (hwords : s.stack.words.Nodup) :
    Coupled { s with stack := s.stack.goto (some t) .popLoad } := by
  obtain ⟨hpc, hidle, hmaking⟩ := hrest
  have hself : (s.stack.goto (some t) .popLoad).pc (some t) = .popLoad :=
    LockfreeStack.State.goto_pc_self _ _ _
  have hother : ∀ o, o ≠ some t → (s.stack.goto (some t) .popLoad).pc o = s.stack.pc o :=
    fun o ho => LockfreeStack.State.goto_pc_ne _ ho _
  have hstep : s.stack.step (.pop (some t)) = some (s.stack.goto (some t) .popLoad) := if_pos hidle
  refine ⟨h.counted, h.owned, h.sound.step_same hstep hwords rfl, h.allocated, ?_, h.held,
    fun u c hc => ?_, fun u => ?_⟩
  · rw [← h.shared]
    exact hother none (by simp)
  · show ((s.stack.goto (some t) .popLoad).pc (some u)).task = .push c
    have hpush := h.pushing u c hc
    by_cases hut : some u = some t
    · rw [hut, hidle] at hpush
      cases hpush
    · rwa [hother _ hut]
  · show Fits _ u ((s.stack.goto (some t) .popLoad).pc (some u)).task
    by_cases hut : u = t
    · subst hut
      rw [hself]
      exact ⟨hmaking, hpc⟩
    · rw [hother _ fun heq => hut (Option.some_inj.1 heq)]
      exact (h.fits u).frame rfl rfl fun _ _ hgot => hgot

theorem make (h : Coupled s) (hmaking : s.making t = true) (hnull : b ≠ 0)
    (hnew : s.slab.allocated b = false) (hwords : s.stack.words.Nodup) :
    Coupled
      { slab := create s.slab t b
        stack := { s.stack with
          allocated := Function.update s.stack.allocated b true }.setOwns none b true
        making := Function.update s.making t false } := by
  have hgot : ∀ u, s.slab.got b ≠ some u := by
    intro u hu
    rw [(h.owned.of_got_place hu).1] at hnew
    cases hnew
  have hstep : s.stack.step (.new none b) = some ({ s.stack with
      allocated := Function.update s.stack.allocated b true }.setOwns none b true) :=
    if_pos ⟨h.shared, hnull, by rw [h.allocated]; exact hnew⟩
  refine ⟨counted_create h.counted hnew t, owned_create h.owned h.counted hnew t,
    h.sound.step_same hstep hwords rfl, ?_, h.shared, fun c hc => ?_, fun u c hc => ?_,
    fun u => ?_⟩
  · show Function.update s.stack.allocated b true = Function.update s.slab.allocated b true
    rw [h.allocated]
  · show c ∈ s.slab.pool ∨ ∃ o, updateOwns s.stack.owns none b true o c = true
    have hc' : Function.update s.slab.allocated b true c = true := hc
    by_cases hcb : c = b
    · exact Or.inr ⟨none, by rw [updateOwns_apply, if_pos ⟨rfl, hcb⟩]⟩
    · rw [Function.update_of_ne hcb] at hc'
      refine (h.held c hc').imp_right fun ⟨o, ho⟩ => ⟨o, ?_⟩
      rw [updateOwns_apply, if_neg fun heq => hcb heq.2, ho]
  · have hc' : updateOwns s.stack.owns none b true (some u) c = true := hc
    rw [updateOwns_of_ne (by simp)] at hc'
    exact h.pushing u c hc'
  · have hfits := h.fits u
    show Fits _ u (s.stack.pc (some u)).task
    by_cases hut : u = t
    · subst hut
      cases htask : (s.stack.pc (some u)).task with
      | none =>
        rw [htask] at hfits
        exact fun _ => hfits hmaking
      | push c =>
        rw [htask] at hfits
        rw [hfits.1] at hmaking
        cases hmaking
      | pop =>
        rw [htask] at hfits
        rw [hfits.1] at hmaking
        cases hmaking
    · refine hfits.frame (Function.update_of_ne hut _ _) rfl fun c _ hc => ?_
      have hne : c ≠ b := fun heq => hgot u (heq ▸ hc)
      exact (Function.update_of_ne hne _ _).trans hc

omit [DecidableEq τ] in
/-- A thread that is in no call of the stack takes a step on a reference count. -/
theorem count (h : Coupled s) {slab : LockfreeSlabPool.State τ Ptr} (hcounted : Counted slab)
    (howned : Owned slab) (hpool : slab.pool = s.slab.pool)
    (hallocated : slab.allocated = s.slab.allocated)
    (hpc : ∀ u, u ≠ t → slab.pc u = s.slab.pc u)
    (hgot : ∀ u b, u ≠ t → s.slab.got b = some u → slab.got b = some u)
    (hidle : s.stack.pc (some t) = .idle) (hmaking : s.making t = false) :
    Coupled { s with slab := slab } := by
  refine ⟨hcounted, howned, ?_, h.allocated.trans hallocated.symm, h.shared, ?_, h.pushing,
    fun u => ?_⟩
  · show Sound s.stack slab.pool
    rw [hpool]
    exact h.sound
  · show ∀ b, slab.allocated b = true → b ∈ slab.pool ∨ _
    rw [hpool, hallocated]
    exact h.held
  · by_cases hut : u = t
    · subst hut
      have htask : (s.stack.pc (some u)).task = .none := Pc.task_eq_none.2 hidle
      show Fits _ u (s.stack.pc (some u)).task
      rw [htask]
      intro hmk
      rw [show s.making u = true from hmk] at hmaking
      cases hmaking
    · exact (h.fits u).frame rfl (hpc u hut) fun b _ => hgot u b hut

/-- **A call of `push` takes effect.** -/
theorem pushed (h : Coupled s) {stack : LockfreeStack.State (Option τ)} {l : List Ptr}
    (htask : (s.stack.pc (some t)).task = .push b) (hidle : stack.pc (some t) = .idle)
    (hother : ∀ o, o ≠ some t → stack.pc o = s.stack.pc o)
    (howns : stack.owns = updateOwns s.stack.owns (some t) b false)
    (hallocated : stack.allocated = s.stack.allocated) (hsound : Sound stack l)
    (hl : l = b :: s.slab.pool) :
    Coupled { s with slab := PooledStack.pushed s.slab t b, stack := stack } := by
  subst hl
  have hfits := h.fits t
  rw [htask] at hfits
  obtain ⟨hmaking, hblock⟩ := hfits
  -- the step is the one of `back`, called by `decr_ref` or not
  have hback : Counted (PooledStack.pushed s.slab t b) ∧ Owned (PooledStack.pushed s.slab t b) ∧
      (PooledStack.pushed s.slab t b).pool = b :: s.slab.pool ∧
      (PooledStack.pushed s.slab t b).allocated = s.slab.allocated ∧
      (∀ u, u ≠ t → (PooledStack.pushed s.slab t b).pc u = s.slab.pc u) ∧
      ∀ u c, u ≠ t → s.slab.got c = some u → (PooledStack.pushed s.slab t b).got c = some u := by
    rcases hblock with hpc | ⟨hpc, hgot⟩
    · have heq : PooledStack.pushed s.slab t b = (s.slab.back b).goto t (.decrReset b) := by
        simp only [PooledStack.pushed, hpc]
      have hadvance : s.slab.advance t false = some (PooledStack.pushed s.slab t b) := by
        simp only [LockfreeSlabPool.State.advance, hpc, heq]
      refine ⟨h.counted.advance h.owned.not_stale hadvance, h.owned.advance h.counted hadvance, ?_⟩
      rw [heq]
      exact ⟨rfl, rfl, fun u hu => Function.update_of_ne hu _ _, fun _ _ _ hc => hc⟩
    · have heq : PooledStack.pushed s.slab t b = giveUp s.slab b := by
        simp only [PooledStack.pushed, hpc]
      rw [heq]
      refine ⟨⟨h.counted.accounts, h.counted.locals⟩, owned_giveUp h.owned hgot hpc, rfl, rfl,
        fun _ _ => rfl, fun u c hu hc => ?_⟩
      have hne : c ≠ b := by
        intro hcb
        rw [hcb, hgot, Option.some_inj] at hc
        exact hu hc.symm
      exact (Function.update_of_ne hne _ _).trans hc
  obtain ⟨hcounted, howned, hpool, hallocated', hpc, hgot⟩ := hback
  refine ⟨hcounted, howned, ?_, ?_, ?_, fun c hc => ?_, fun u c hc => ?_, fun u => ?_⟩
  · show Sound stack (PooledStack.pushed s.slab t b).pool
    rw [hpool]
    exact hsound
  · exact hallocated.trans (h.allocated.trans hallocated'.symm)
  · exact (hother none (by simp)).trans h.shared
  · show c ∈ (PooledStack.pushed s.slab t b).pool ∨ ∃ o, stack.owns o c = true
    have hc' : (PooledStack.pushed s.slab t b).allocated c = true := hc
    rw [hallocated'] at hc'
    rw [hpool, howns, List.mem_cons]
    by_cases hcb : c = b
    · exact Or.inl (Or.inl hcb)
    · rcases h.held c hc' with hmem | ⟨o, ho⟩
      · exact Or.inl (Or.inr hmem)
      · exact Or.inr ⟨o, by rw [updateOwns_apply, if_neg fun heq => hcb heq.2, ho]⟩
  · show (stack.pc (some u)).task = .push c
    have hc' : stack.owns (some u) c = true := hc
    rw [howns, updateOwns_apply] at hc'
    split_ifs at hc' with hmine
    have hpush := h.pushing u c hc'
    by_cases hut : some u = some t
    · -- `t` was pushing `b`, which it has given to the stack
      rw [hut, htask, Task.push.injEq] at hpush
      exact absurd ⟨hut, hpush.symm⟩ hmine
    · rwa [hother _ hut]
  · show Fits _ u (stack.pc (some u)).task
    by_cases hut : u = t
    · subst hut
      rw [Pc.task_eq_none.2 hidle]
      intro hmk
      rw [show s.making u = true from hmk] at hmaking
      cases hmaking
    · rw [hother _ fun heq => hut (Option.some_inj.1 heq)]
      exact (h.fits u).frame rfl (hpc u hut) fun c _ => hgot u c hut

/-- **A call of `pop` takes effect** with a block. -/
theorem popped (h : Coupled s) {stack : LockfreeStack.State (Option τ)} {l : List Ptr}
    (htask : (s.stack.pc (some t)).task = .pop) (hidle : stack.pc (some t) = .idle)
    (hother : ∀ o, o ≠ some t → stack.pc o = s.stack.pc o)
    (howns : stack.owns = updateOwns s.stack.owns (some t) b true)
    (hallocated : stack.allocated = s.stack.allocated) (hsound : Sound stack l)
    (hl : s.slab.pool = b :: l) (hwords : stack.words.Nodup) :
    Coupled
      { s with slab := take s.slab t b, stack := passOn stack (some t) none b } := by
  have hmem : b ∈ s.slab.pool := by rw [hl]; exact List.mem_cons_self
  have herase : s.slab.pool.erase b = l := by rw [hl, List.erase_cons_head]
  have hget : s.slab.get t b = some (take s.slab t b) := if_pos hmem
  have hfits := h.fits t
  rw [htask] at hfits
  have hmine : stack.owns (some t) b = true := by
    rw [howns, updateOwns_apply, if_pos ⟨rfl, rfl⟩]
  have howns' : ∀ o c, (passOn stack (some t) none b).owns o c =
      if o = none ∧ c = b then true else if o = some t ∧ c = b then false
        else s.stack.owns o c := by
    intro o c
    show updateOwns (updateOwns stack.owns (some t) b false) none b true o c = _
    rw [updateOwns_apply, updateOwns_apply, howns, updateOwns_apply]
    split_ifs <;> rfl
  refine ⟨h.counted.get hget, h.owned.get h.counted hget, ?_, hallocated.trans h.allocated,
    (hother none (by simp)).trans h.shared, fun c hc => ?_, fun u c hc => ?_, fun u => ?_⟩
  · show Sound (passOn stack (some t) none b) (s.slab.pool.erase b)
    rw [herase]
    exact sound_passOn hsound hidle hmine hwords none
  · show c ∈ s.slab.pool.erase b ∨ ∃ o, (passOn stack (some t) none b).owns o c = true
    by_cases hcb : c = b
    · exact Or.inr ⟨none, by rw [howns', if_pos ⟨rfl, hcb⟩]⟩
    · rcases h.held c hc with hpool | ⟨o, ho⟩
      · exact Or.inl ((List.mem_erase_of_ne hcb).2 hpool)
      · exact Or.inr ⟨o, by
          rw [howns', if_neg fun heq => hcb heq.2, if_neg fun heq => hcb heq.2, ho]⟩
  · show (stack.pc (some u)).task = .push c
    have hc' : (passOn stack (some t) none b).owns (some u) c = true := hc
    rw [howns', if_neg (by simp)] at hc'
    split_ifs at hc'
    have hpush := h.pushing u c hc'
    by_cases hut : some u = some t
    · rw [hut, htask] at hpush
      cases hpush
    · rwa [hother _ hut]
  · show Fits _ u (stack.pc (some u)).task
    by_cases hut : u = t
    · subst hut
      rw [Pc.task_eq_none.2 hidle]
      exact fun _ => hfits.2
    · rw [hother _ fun heq => hut (Option.some_inj.1 heq)]
      refine (h.fits u).frame rfl rfl fun c _ hc => ?_
      have hne : c ≠ b := fun heq => (h.owned.of_got_place hc).2.1 (heq ▸ hmem)
      exact (Function.update_of_ne hne _ _).trans hc

omit [DecidableEq τ] in
theorem waits (h : Coupled s) {stack : LockfreeStack.State (Option τ)} {making : τ → Bool}
    (hother : ∀ o, o ≠ some t → stack.pc o = s.stack.pc o) (howns : stack.owns = s.stack.owns)
    (hallocated : stack.allocated = s.stack.allocated) (hsound : Sound stack s.slab.pool)
    (hmaking : ∀ u, u ≠ t → making u = s.making u)
    (hpush : ∀ b, (s.stack.pc (some t)).task = .push b → (stack.pc (some t)).task = .push b)
    (hfits : Fits { s with stack := stack, making := making } t (stack.pc (some t)).task) :
    Coupled { s with stack := stack, making := making } := by
  refine ⟨h.counted, h.owned, hsound, hallocated.trans h.allocated,
    (hother none (by simp)).trans h.shared, ?_, fun u c hc => ?_, fun u => ?_⟩
  · show ∀ b, s.slab.allocated b = true → b ∈ s.slab.pool ∨ ∃ o, stack.owns o b = true
    rw [howns]
    exact h.held
  · show (stack.pc (some u)).task = .push c
    have hc' : stack.owns (some u) c = true := hc
    rw [howns] at hc'
    by_cases hut : some u = some t
    · have hpush' := h.pushing u c hc'
      rw [hut] at hpush' ⊢
      exact hpush c hpush'
    · rw [hother _ hut]
      exact h.pushing u c hc'
  · show Fits _ u (stack.pc (some u)).task
    by_cases hut : u = t
    · rw [hut]
      exact hfits
    · rw [hother _ fun heq => hut (Option.some_inj.1 heq)]
      exact (h.fits u).frame (hmaking u hut) rfl fun _ _ hgot => hgot

/-- **A step of a call of the stack.** -/
theorem resume (h : Coupled s) {stack : LockfreeStack.State (Option τ)} {spurious : Bool}
    (hst : s.stack.advance (some t) spurious = some stack) (hwords : stack.words.Nodup) :
    Coupled (s.resume t stack) := by
  obtain ⟨hallocated, hother⟩ := LockfreeStack.advance_frame hst
  have hstep : s.stack.step (.step (some t) spurious) = some stack := hst
  have hfits := h.fits t
  cases moved hst with
  | within htask hne hhistory howns =>
    have hresume : s.resume t stack = { s with stack := stack } := by
      unfold State.resume
      split <;> first | rfl | exact absurd ‹stack.pc (some t) = .idle› hne
    rw [hresume]
    refine h.waits hother howns hallocated (h.sound.step_same hstep hwords hhistory)
      (fun _ _ => rfl) (fun b hb => htask.trans hb) ?_
    rw [htask]
    exact hfits.frame rfl rfl fun _ _ hgot => hgot
  | @pushed node htask hidle hhistory howns =>
    have hresume : s.resume t stack =
        { s with slab := PooledStack.pushed s.slab t node, stack := stack } := by
      simp only [State.resume, hidle, hhistory, List.getLast?_concat]
    rw [hresume]
    obtain ⟨l, hsound, happly⟩ := h.sound.step_event hstep hwords hhistory
    exact h.pushed htask hidle hother howns hallocated hsound (Option.some_inj.1 happly).symm
  | @popped node htask hidle hhistory howns =>
    have hresume : s.resume t stack =
        { s with slab := take s.slab t node, stack := passOn stack (some t) none node } := by
      simp only [State.resume, hidle, hhistory, List.getLast?_concat]
    rw [hresume]
    obtain ⟨l, hsound, happly⟩ := h.sound.step_event hstep hwords hhistory
    simp only [Event.apply] at happly
    split_ifs at happly with hhead
    obtain ⟨r, hr⟩ := List.head?_eq_some_iff.1 hhead
    rw [hr, List.tail_cons, Option.some_inj] at happly
    exact h.popped htask hidle hother howns hallocated hsound (by rw [hr, happly]) hwords
  | poppedNull htask hidle hhistory howns =>
    have hresume : s.resume t stack =
        { s with stack := stack, making := Function.update s.making t true } := by
      simp only [State.resume, hidle, hhistory, List.getLast?_concat]
    rw [hresume]
    obtain ⟨l, hsound, happly⟩ := h.sound.step_event hstep hwords hhistory
    simp only [Event.apply] at happly
    split_ifs at happly with hnil
    rw [← hnil] at happly
    rw [htask] at hfits
    refine h.waits hother howns hallocated ?_ (fun u hu => Function.update_of_ne hu _ _) ?_ ?_
    · rw [Option.some_inj.1 happly]
      exact hsound
    · intro b hb
      rw [htask] at hb
      cases hb
    · rw [Pc.task_eq_none.2 hidle]
      exact fun _ => hfits.2

end Coupled

omit [Fintype τ] in
theorem words_resume (s : State τ) (t : τ) (stack : LockfreeStack.State (Option τ)) :
    (s.resume t stack).stack.words = stack.words := by
  unfold State.resume
  split <;> rfl

omit [Fintype τ] in
theorem words_sublist (a : Action τ) (hst : s.step a = some s') :
    s.stack.words.Sublist s'.stack.words := by
  cases a with
  | get t =>
    simp only [State.step] at hst
    split_ifs at hst
    cases hst
    exact List.Sublist.refl _
  | make t b =>
    simp only [State.step] at hst
    split_ifs at hst
    cases hst
    exact List.Sublist.refl _
  | back t b =>
    simp only [State.step] at hst
    split_ifs at hst
    cases hst
    exact List.Sublist.refl _
  | incrRef t b =>
    simp only [State.step] at hst
    split_ifs at hst
    obtain ⟨slab, -, rfl⟩ := Option.map_eq_some_iff.1 hst
    exact List.Sublist.refl _
  | decrRef t b =>
    simp only [State.step] at hst
    split_ifs at hst
    obtain ⟨slab, -, rfl⟩ := Option.map_eq_some_iff.1 hst
    exact List.Sublist.refl _
  | step t spurious =>
    simp only [State.step, State.advance] at hst
    split_ifs at hst
    · split at hst
      · cases hst
        exact List.Sublist.refl _
      · obtain ⟨slab, -, rfl⟩ := Option.map_eq_some_iff.1 hst
        exact List.Sublist.refl _
    · obtain ⟨stack, hstack, rfl⟩ := Option.map_eq_some_iff.1 hst
      rw [words_resume]
      exact LockfreeStack.words_sublist (.step (some t) spurious) hstack

namespace Coupled

theorem call (h : Coupled s) {a : LockfreeSlabPool.Action τ Ptr}
    {slab : LockfreeSlabPool.State τ Ptr} (hok : LockfreeSlabPool.Disciplined s.slab a)
    (hst : s.slab.step a = some slab) (hcall : a = .incrRef t b ∨ a = .decrRef t b)
    (hrest : s.atRest t) : Coupled { s with slab := slab } := by
  have hpaired : Paired s.slab a := by
    rcases hcall with rfl | rfl
    · trivial
    · exact hok.1
  refine h.count (t := t) (h.counted.step hpaired h.owned.not_stale hst)
    (h.owned.step h.counted hok hst) ?_ ?_ ?_ ?_ hrest.2.1 hrest.2.2
  all_goals
    rcases hcall with rfl | rfl
    all_goals
      simp only [LockfreeSlabPool.State.step] at hst
      split_ifs at hst
      cases hst
  · rfl
  · rfl
  · rfl
  · rfl
  · exact fun u hu => Function.update_of_ne hu _ _
  · exact fun u hu => Function.update_of_ne hu _ _
  · exact fun _ _ _ hc => hc
  · exact fun _ _ _ hc => hc

theorem advance (h : Coupled s) {spurious : Bool}
    (hst : s.advance t spurious = some s') (hwords : s.stack.words.Nodup)
    (hwords' : s'.stack.words.Nodup) : Coupled s' := by
  have hfits := h.fits t
  unfold State.advance at hst
  split_ifs at hst with hidle
  · rw [Pc.task_eq_none.2 hidle] at hfits
    split at hst
    · next b hpc =>
      cases hst
      refine h.enterPush hidle ?_ (Or.inl hpc) hwords
      rw [← Bool.not_eq_true]
      intro hmaking
      rw [hfits hmaking] at hpc
      cases hpc
    · next hback =>
      obtain ⟨slab, hslab, rfl⟩ := Option.map_eq_some_iff.1 hst
      obtain ⟨hpool, hallocated, hpc⟩ := LockfreeSlabPool.advance_frame hslab hback
      refine h.count (h.counted.advance h.owned.not_stale hslab)
        (h.owned.advance h.counted hslab) hpool hallocated hpc
        (fun u b hu => h.owned.got_advance h.counted hslab hu) hidle ?_
      rw [← Bool.not_eq_true]
      intro hmaking
      simp only [LockfreeSlabPool.State.advance, hfits hmaking] at hslab
      cases hslab
  · obtain ⟨stack, hstack, rfl⟩ := Option.map_eq_some_iff.1 hst
    rw [words_resume] at hwords'
    exact h.resume hstack hwords'

/-- **What one step preserves.** -/
theorem step (h : Coupled s) {a : Action τ} (hok : Disciplined s a) (hst : s.step a = some s')
    (hwords' : s'.stack.words.Nodup) : Coupled s' := by
  have hwords := hwords'.sublist (words_sublist a hst)
  cases a with
  | get t =>
    simp only [State.step] at hst
    split_ifs at hst with hrest
    cases hst
    exact h.enterPop hrest hwords
  | make t b =>
    simp only [State.step] at hst
    split_ifs at hst with hmake
    cases hst
    exact h.make hmake.1 hmake.2.1 hmake.2.2 hwords
  | back t b =>
    simp only [State.step] at hst
    split_ifs at hst with hrest
    cases hst
    exact h.enterPush hrest.2.1 hrest.2.2 (Or.inr ⟨hrest.1, hok⟩) hwords
  | incrRef t b =>
    simp only [State.step] at hst
    split_ifs at hst with hrest
    obtain ⟨slab, hslab, rfl⟩ := Option.map_eq_some_iff.1 hst
    have hok' : LockfreeSlabPool.Disciplined s.slab (.incrRef t b) := hok
    exact h.call hok' hslab (Or.inl rfl) hrest
  | decrRef t b =>
    simp only [State.step] at hst
    split_ifs at hst with hrest
    obtain ⟨slab, hslab, rfl⟩ := Option.map_eq_some_iff.1 hst
    have hok' : LockfreeSlabPool.Disciplined s.slab (.decrRef t b) := hok
    exact h.call hok' hslab (Or.inr rfl) hrest
  | step t spurious => exact h.advance hst hwords hwords'

theorem init : Coupled (pooledStack τ).init where
  counted := Counted.init
  owned := Owned.init
  sound := ⟨.init, _, .of_idle (fun _ => rfl) pointer_zero⟩
  allocated := rfl
  shared := rfl
  held _ hc := absurd hc Bool.false_ne_true
  pushing _ _ hc := absurd hc Bool.false_ne_true
  fits _ hmaking := absurd hmaking Bool.false_ne_true

theorem reach (h : (pooledStack τ).Reach Disciplined s) (hwords : s.stack.words.Nodup) :
    Coupled s := by
  refine h.invariant (I := fun s => s.stack.words.Nodup → Coupled s) (fun _ => init) ?_ hwords
  intro s a s' ih hok hst hwords'
  exact (ih (hwords'.sublist (words_sublist a hst))).step hok hst hwords'

end Coupled

/-- **Every block is in one place.** In every run of any number of threads with disciplined owners,
in which no two `combine` calls on pointers other than null have returned the same word, the chain
from `_top` is a list of blocks in which each block that was made is counted once, together with the
thread that `get` has returned it to, with its references, and with the `decr_ref` that gives it
back. A block that is referenced has the number of its references in its counter, and no `decr_ref`
finds `BACKING` there. -/
theorem handed_out_once (h : (pooledStack τ).Reach Disciplined s)
    (hwords : s.stack.words.Nodup) :
    ∃ l, Linked s.stack.next 0 (pointer s.stack.top) l ∧
      (∀ b, l.count b + (s.slab.got b).isSome.toNat +
        (decide (s.slab.decrs b < s.slab.incrs b)).toNat +
          population (Pc.returning b) s.slab.pc = (s.slab.allocated b).toNat) ∧
      (∀ b, s.slab.decrs b < s.slab.incrs b →
        s.slab.userCount b = s.slab.incrs b - s.slab.decrs b) ∧
      ∀ t b last, s.slab.pc t = .decrAssert b last → last ≠ backing := by
  have hcoupled := Coupled.reach h hwords
  refine ⟨s.slab.pool, hcoupled.sound.1.shared.chain, hcoupled.owned.placed,
    fun b hlt => (hcoupled.counted.accounts b).referenced hlt, fun t b last hpc => ?_⟩
  have hlocal := hcoupled.counted.locals t
  rw [hpc] at hlocal
  have hpos : 0 < last := hlocal
  simp only [backing]
  omega

instance (s : State τ) (a : Action τ) : Decidable (Disciplined s a) :=
  match a with
  | .incrRef t b => inferInstanceAs
      (Decidable (LockfreeSlabPool.Disciplined s.slab (.incrRef t b)))
  | .decrRef t b => inferInstanceAs
      (Decidable (LockfreeSlabPool.Disciplined s.slab (.decrRef t b)))
  | .back t b => inferInstanceAs (Decidable (s.slab.got b = some t))
  | .get _ | .make _ _ | .step _ _ => .isTrue trivial

/-- A thread makes a block, references it and gives the reference up; another one obtains it. -/
def returned : List (Action Bool) :=
  [.get false, .step false false, .make false 1, .incrRef false 1] ++
    List.replicate 2 (.step false false) ++ [.decrRef false 1] ++
    List.replicate 8 (.step false false) ++ [.get true] ++ List.replicate 4 (.step true false)

theorem handed_out_once_returned : ∃ s, (pooledStack Bool).Reach Disciplined s ∧
    s.stack.history = [.popNull (some false), .push (some false) 1, .pop (some true) 1] ∧
    s.slab.got 1 = some true ∧ s.slab.pc false = .decrReset 1 ∧
    ∃ l, Linked s.stack.next 0 (pointer s.stack.top) l ∧ 1 ∉ l := by
  have hrun : ∃ s, (pooledStack Bool).Reach Disciplined s ∧
      s.stack.history = [.popNull (some false), .push (some false) 1, .pop (some true) 1] ∧
      s.slab.got 1 = some true ∧ s.slab.pc false = .decrReset 1 ∧ s.stack.words.Nodup :=
    ⟨_, (pooledStack Bool).reach_of_run Disciplined returned rfl, rfl, rfl, rfl, by decide⟩
  obtain ⟨s, hs, hhistory, hgot, hpc, hwords⟩ := hrun
  obtain ⟨l, hlinked, hplaced, -⟩ := handed_out_once hs hwords
  refine ⟨s, hs, hhistory, hgot, hpc, l, hlinked, fun hmem => ?_⟩
  have hone := hplaced 1
  have hpos := List.count_pos_iff.2 hmem
  have hle := Bool.toNat_le (s.slab.allocated 1)
  rw [hgot, Option.isSome_some, Bool.toNat_true] at hone
  omega

end PooledStack

end Naesala
