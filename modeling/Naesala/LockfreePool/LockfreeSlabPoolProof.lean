import Naesala.Library.Population
import Naesala.LockfreePool.RefSteps

/-!
# What the reference counts are

`Counted` says of each block that its counter is the number of references, `BACKING` standing for
none, and that a `decr_ref` that has not succeeded has a reference left to give up. Every step
keeps this but one: an `incr_ref` that has loaded `BACKING` and helped to reset the counter still
has `BACKING` in `last`. If the block is taken, given up and marked again before its last
compare-exchange, that one succeeds, and the reference it returns is not counted.

**Theorem (`counts_references`).** In every run without such a step, the counter is the number
of references; and such a step always makes it wrong.
-/

namespace Naesala

namespace LockfreeSlabPool

variable {τ β : Type} [DecidableEq β]

/-- The thread is in `decr_ref` of `b` and has not succeeded yet. -/
def Pc.dropping (b : β) : Pc β → Bool
  | .decrLoad c | .decrAssert c _ | .decrMark c | .decrCas c _ => c = b
  | _ => false

/-- The thread has given up the last reference of `b` and has not pushed it yet. -/
def Pc.returning (b : β) : Pc β → Bool
  | .decrBack c => c = b
  | _ => false

/-- What the thread knows of the block and of `last`. -/
def Pc.Local (allocated : β → Bool) : Pc β → Prop
  | .incrLoad b | .incrHelp b | .incrCas b _ => allocated b = true
  | .decrAssert _ last => 0 < last
  | .decrCas _ last => 1 < last
  | _ => True

omit [DecidableEq β] in
theorem Pc.Local.mono {pc : Pc β} {allocated allocated' : β → Bool}
    (hle : ∀ b, allocated b = true → allocated' b = true) (h : pc.Local allocated) :
    pc.Local allocated' := by
  cases pc with
  | incrLoad b => exact hle b h
  | incrHelp b => exact hle b h
  | incrCas b last => exact hle b h
  | _ => exact h

/-- The block whose count the thread works on. -/
def Pc.block : Pc β → Option β
  | .idle => none
  | .incrLoad b | .incrHelp b | .incrCas b _ | .decrLoad b | .decrAssert b _ | .decrMark b
  | .decrBack b | .decrReset b | .decrCas b _ => some b

/-- What is known of one block. -/
structure Account where
  count : ℤ
  allocated : Bool
  incrs : ℕ
  decrs : ℕ
  begun : ℕ
  falls : ℕ
  pushes : ℕ

def State.account (s : State τ β) (b : β) : Account :=
  ⟨s.userCount b, s.allocated b, s.incrs b, s.decrs b, s.begun b, s.falls b, s.pushes b⟩

/-- The counter of a block is the number of its references, where `dropping` calls of `decr_ref`
have not succeeded and `returning` ones have not pushed the block yet. -/
structure Account.Balanced (a : Account) (dropping returning : ℕ) : Prop where
  fresh : a.allocated = false → a.incrs = 0
  begun_eq : a.begun = a.decrs + dropping
  begun_le : a.begun ≤ a.incrs
  referenced : a.decrs < a.incrs → a.count = a.incrs - a.decrs
  vacant : a.decrs = a.incrs → a.count = 0 ∨ a.count = -1
  falls_eq : a.falls = a.pushes + returning

theorem tick_self (f : β → ℕ) (b : β) : tick f b b = f b + 1 := Function.update_self _ _ _

theorem tick_of_ne {b c : β} (h : c ≠ b) (f : β → ℕ) : tick f b c = f c :=
  Function.update_of_ne h _ _

theorem Pc.dropping_of_block {pc : Pc β} {b c : β} (h : pc.block = none ∨ pc.block = some b)
    (hc : c ≠ b) : pc.dropping c = false := by
  cases pc <;> simp_all [Pc.block, Pc.dropping, eq_comm]

theorem Pc.returning_of_block {pc : Pc β} {b c : β} (h : pc.block = none ∨ pc.block = some b)
    (hc : c ≠ b) : pc.returning c = false := by
  cases pc <;> simp_all [Pc.block, Pc.returning, eq_comm]

variable {s s₁ s' : State τ β} {t u : τ} {b : β} {old pc : Pc β} {a : Account} {d r : ℕ}

/-! ## The block of a step -/

section Edges

variable {count : β → ℤ} {spurious : Bool}

theorem Reads.dropping (h : Reads count spurious b old pc) :
    pc.dropping b = old.dropping b := by
  cases h <;> rfl

theorem Reads.returning (h : Reads count spurious b old pc) :
    pc.returning b = old.returning b := by
  cases h <;> rfl

theorem Resets.dropping (h : Resets b old pc) : pc.dropping b = old.dropping b := by
  cases h <;> rfl

theorem Resets.returning (h : Resets b old pc) : pc.returning b = old.returning b := by
  cases h <;> rfl

omit [DecidableEq β]

theorem Reads.before (h : Reads count spurious b old pc) :
    old.block = none ∨ old.block = some b := by
  cases h <;> exact Or.inr rfl

theorem Reads.after (h : Reads count spurious b old pc) :
    pc.block = none ∨ pc.block = some b := by
  cases h with
  | resetFails => exact Or.inl rfl
  | _ => exact Or.inr rfl

theorem Resets.before (h : Resets b old pc) : old.block = none ∨ old.block = some b := by
  cases h <;> exact Or.inr rfl

theorem Resets.after (h : Resets b old pc) : pc.block = none ∨ pc.block = some b := by
  cases h with
  | help => exact Or.inr rfl
  | own => exact Or.inl rfl

end Edges

/-! ## Accounts -/

namespace Account.Balanced

theorem decrs_le_begun (h : a.Balanced d r) : a.decrs ≤ a.begun := by
  rw [h.begun_eq]
  exact Nat.le_add_right _ _

theorem decrs_le (h : a.Balanced d r) : a.decrs ≤ a.incrs := h.decrs_le_begun.trans h.begun_le

/-- A `decr_ref` that has not succeeded has a reference. -/
theorem lt_of_dropping (h : a.Balanced d r) (hd : 0 < d) : a.decrs < a.incrs := by
  have hbegun := h.begun_eq
  have hle := h.begun_le
  omega

theorem count_of_dropping (h : a.Balanced d r) (hd : 0 < d) : a.count = a.incrs - a.decrs :=
  h.referenced (h.lt_of_dropping hd)

theorem count_pos (h : a.Balanced d r) (hd : 0 < d) : 0 < a.count := by
  have hlt := h.lt_of_dropping hd
  rw [h.count_of_dropping hd]
  omega

theorem reset (h : a.Balanced d r) (hcount : a.count = -1) :
    ({ a with count := 0 } : Account).Balanced d r := by
  refine ⟨h.fresh, h.begun_eq, h.begun_le, ?_, ?_, h.falls_eq⟩
  · intro hlt
    have hold := h.referenced hlt
    have : a.decrs < a.incrs := hlt
    omega
  · intro _
    exact Or.inl rfl

/-- A reference is taken of a block whose counter is not `BACKING`. -/
theorem acquire (h : a.Balanced d r) (hcount : a.count ≠ -1) (hallocated : a.allocated = true) :
    ({ a with count := a.count + 1, incrs := a.incrs + 1 } : Account).Balanced d r := by
  have hle := h.begun_le
  have hdecrs := h.decrs_le
  refine ⟨?_, h.begun_eq, Nat.le_succ_of_le hle, ?_, ?_, h.falls_eq⟩
  · intro hnot
    exact absurd hnot (by simp [hallocated])
  · intro _
    show a.count + 1 = ((a.incrs + 1 : ℕ) : ℤ) - a.decrs
    rcases Nat.lt_or_eq_of_le hdecrs with hlt | heq
    · rw [h.referenced hlt]
      omega
    · rcases h.vacant heq with hzero | hback
      · omega
      · exact absurd hback hcount
  · intro heq
    have : a.decrs = a.incrs + 1 := heq
    omega

theorem begin (h : a.Balanced d r) (hlt : a.begun < a.incrs) :
    ({ a with begun := a.begun + 1 } : Account).Balanced (d + 1) r := by
  refine ⟨h.fresh, ?_, hlt, h.referenced, h.vacant, h.falls_eq⟩
  rw [h.begun_eq, Nat.add_assoc]

/-- A reference is given up that is not the last one. -/
theorem release (h : a.Balanced (d + 1) r) (hcount : 1 < a.count) :
    ({ a with count := a.count - 1, decrs := a.decrs + 1 } : Account).Balanced d r := by
  have hbegun := h.begun_eq
  have hold := h.count_of_dropping d.succ_pos
  refine ⟨h.fresh, ?_, h.begun_le, ?_, ?_, h.falls_eq⟩
  · show a.begun = a.decrs + 1 + d
    omega
  · intro _
    show a.count - 1 = (a.incrs : ℤ) - ((a.decrs + 1 : ℕ) : ℤ)
    omega
  · intro heq
    have : a.decrs + 1 = a.incrs := heq
    omega

theorem fall (h : a.Balanced (d + 1) r) (hcount : a.count = 1) :
    ({ a with count := -1, decrs := a.decrs + 1, falls := a.falls + 1 } : Account).Balanced
      d (r + 1) := by
  have hbegun := h.begun_eq
  have hfalls := h.falls_eq
  have hold := h.count_of_dropping d.succ_pos
  refine ⟨h.fresh, ?_, h.begun_le, ?_, ?_, ?_⟩
  · show a.begun = a.decrs + 1 + d
    omega
  · intro hlt
    have : a.decrs + 1 < a.incrs := hlt
    omega
  · intro _
    exact Or.inr rfl
  · show a.falls + 1 = a.pushes + (r + 1)
    omega

theorem back (h : a.Balanced d (r + 1)) :
    ({ a with pushes := a.pushes + 1 } : Account).Balanced d r := by
  have hfalls := h.falls_eq
  refine ⟨h.fresh, h.begun_eq, h.begun_le, h.referenced, h.vacant, ?_⟩
  show a.falls = a.pushes + 1 + r
  omega

theorem make (h : a.Balanced d r) (hallocated : a.allocated = false) :
    ({ a with count := 0, allocated := true } : Account).Balanced d r := by
  have hfresh := h.fresh hallocated
  refine ⟨?_, h.begun_eq, h.begun_le, ?_, ?_, h.falls_eq⟩
  · intro hnot
    cases hnot
  · intro hlt
    have : a.decrs < a.incrs := hlt
    omega
  · intro _
    exact Or.inl rfl

end Account.Balanced

section Accounts

theorem account_setCount (n : ℤ) :
    (s.setCount b n).account b = { s.account b with count := n } := by
  simp [State.account, State.setCount]

theorem account_acquire :
    (s.acquire b).account b = { s.account b with incrs := s.incrs b + 1 } := by
  simp [State.account, State.acquire, tick_self]

theorem account_release :
    (s.release b).account b = { s.account b with decrs := s.decrs b + 1 } := by
  simp [State.account, State.release, tick_self]

theorem account_fall : (s.fall b).account b =
    { s.account b with decrs := s.decrs b + 1, falls := s.falls b + 1 } := by
  simp [State.account, State.fall, State.release, tick_self]

theorem account_back :
    (s.back b).account b = { s.account b with pushes := s.pushes b + 1 } := by
  simp [State.account, State.back, tick_self]

variable {c : β} (hc : c ≠ b)
include hc

theorem account_setCount_of_ne (n : ℤ) : (s.setCount b n).account c = s.account c := by
  simp [State.account, State.setCount, hc]

theorem account_acquire_of_ne : (s.acquire b).account c = s.account c := by
  simp [State.account, State.acquire, tick_of_ne hc]

theorem account_release_of_ne : (s.release b).account c = s.account c := by
  simp [State.account, State.release, tick_of_ne hc]

theorem account_fall_of_ne : (s.fall b).account c = s.account c := by
  simp [State.account, State.fall, State.release, tick_of_ne hc]

theorem account_back_of_ne : (s.back b).account c = s.account c := by
  simp [State.account, State.back, tick_of_ne hc]

end Accounts

/-- The counter of each block is the number of its references. -/
structure Counted [Fintype τ] (s : State τ β) : Prop where
  accounts : ∀ b, (s.account b).Balanced (population (Pc.dropping b) s.pc)
    (population (Pc.returning b) s.pc)
  locals : ∀ t, (s.pc t).Local s.allocated

namespace Counted

variable [Fintype τ]

theorem count_pos (h : Counted s) (ht : (s.pc t).dropping b = true) : 0 < s.userCount b :=
  (h.accounts b).count_pos (population_pos.2 ⟨t, ht⟩)

variable [DecidableEq τ]

/-- Thread `t` works on block `b` and moves to `pc`. The calls of the others are `d` and `r`. -/
theorem change (h : Counted s) (hpc : s₁.pc = s.pc) (hallocated : s₁.allocated = s.allocated)
    (hframe : ∀ c, c ≠ b → s₁.account c = s.account c)
    (hold : s.pc t = old) (hbefore : old.block = none ∨ old.block = some b)
    (hafter : pc.block = none ∨ pc.block = some b)
    (hat : ∀ d r, (s.account b).Balanced (d + (old.dropping b).toNat)
        (r + (old.returning b).toNat) →
      (s₁.account b).Balanced (d + (pc.dropping b).toNat) (r + (pc.returning b).toNat))
    (hlocal : pc.Local s.allocated) : Counted (s₁.goto t pc) := by
  subst hold
  have hto : (s₁.goto t pc).pc = Function.update s.pc t pc := by rw [← hpc]; rfl
  refine ⟨fun c => ?_, ?_⟩
  · show (s₁.account c).Balanced _ _
    rw [hto]
    have hdropping := population_update (p := Pc.dropping c) (f := s.pc) t pc
    have hreturning := population_update (p := Pc.returning c) (f := s.pc) t pc
    by_cases hc : c = b
    · subst hc
      have hpos := toNat_le_population (p := Pc.dropping c) (f := s.pc) t
      have hpos' := toNat_le_population (p := Pc.returning c) (f := s.pc) t
      have hnew := hat (population (Pc.dropping c) s.pc - ((s.pc t).dropping c).toNat)
        (population (Pc.returning c) s.pc - ((s.pc t).returning c).toNat)
        (by rw [Nat.sub_add_cancel hpos, Nat.sub_add_cancel hpos']; exact h.accounts c)
      convert hnew using 1 <;> omega
    · rw [Pc.dropping_of_block hbefore hc, Pc.dropping_of_block hafter hc] at hdropping
      rw [Pc.returning_of_block hbefore hc, Pc.returning_of_block hafter hc] at hreturning
      rw [hframe c hc, Nat.add_right_cancel hdropping, Nat.add_right_cancel hreturning]
      exact h.accounts c
  · show ∀ u, ((s₁.goto t pc).pc u).Local s₁.allocated
    rw [hto, hallocated]
    exact (Function.forall_update_iff s.pc fun _ pc => pc.Local s.allocated).2
      ⟨hlocal, fun u _ => h.locals u⟩

theorem quiet (h : Counted s) (hold : s.pc t = old)
    (hbefore : old.block = none ∨ old.block = some b)
    (hafter : pc.block = none ∨ pc.block = some b) (hdropping : pc.dropping b = old.dropping b)
    (hreturning : pc.returning b = old.returning b) (hlocal : pc.Local s.allocated) :
    Counted (s.goto t pc) := by
  refine h.change rfl rfl (fun _ _ => rfl) hold hbefore hafter ?_ hlocal
  intro d r old
  rwa [hdropping, hreturning]

theorem reset (h : Counted s) (hcount : s.userCount b = backing) (hold : s.pc t = old)
    (hbefore : old.block = none ∨ old.block = some b)
    (hafter : pc.block = none ∨ pc.block = some b) (hdropping : pc.dropping b = old.dropping b)
    (hreturning : pc.returning b = old.returning b) (hlocal : pc.Local s.allocated) :
    Counted ((s.setCount b 0).goto t pc) := by
  refine h.change rfl rfl (fun c hc => account_setCount_of_ne hc 0) hold hbefore hafter ?_ hlocal
  intro d r old
  rw [hdropping, hreturning, account_setCount]
  exact old.reset hcount

omit [DecidableEq τ] in
/-- What a thread knows at its next place, it knew before or has just read. -/
theorem local_of_reads {spurious : Bool} (h : Counted s)
    (hreads : Reads s.userCount spurious b old pc) (hpc : s.pc t = old) :
    pc.Local s.allocated := by
  have hlocal := h.locals t
  rw [hpc] at hlocal
  cases hreads with
  | vacant | load | helpFails | incrFails => exact hlocal
  | drop => exact h.count_pos (t := t) (by simp [hpc, Pc.dropping])
  | @notLast last _ hone =>
    -- `last` is neither 0 nor 1, so there is another reference
    have hpos : 0 < last := hlocal
    exact (show 1 < last by omega)
  | last | markFails | resetFails | decrFails => trivial

omit [DecidableEq τ] in
theorem local_of_resets (h : Counted s) (hresets : Resets b old pc) (hpc : s.pc t = old) :
    pc.Local s.allocated := by
  have hlocal := h.locals t
  rw [hpc] at hlocal
  cases hresets with
  | help => exact hlocal
  | own => trivial

theorem advance {spurious : Bool} (h : Counted s) (hstale : ¬ Stale s (.step t spurious))
    (hs : s.advance t spurious = some s') : Counted s' := by
  cases stepped_of_advance hs with
  | @reads b pc hreads =>
    exact h.quiet rfl hreads.before hreads.after hreads.dropping hreads.returning
      (h.local_of_reads hreads rfl)
  | @resets b pc hresets hcount =>
    exact h.reset hcount rfl hresets.before hresets.after hresets.dropping hresets.returning
      (h.local_of_resets hresets rfl)
  | @acquires b last hpc hlast hnot =>
    have hlocal := h.locals t
    rw [hpc] at hlocal
    refine h.change rfl rfl ?_ hpc (Or.inr rfl) (Or.inl rfl) ?_ trivial
    · intro c hc
      rw [account_acquire_of_ne hc, account_setCount_of_ne hc]
    · intro d r old
      subst hlast
      rw [account_acquire, account_setCount]
      refine old.acquire ?_ hlocal
      -- a `last` of `BACKING` is the stale step that is ruled out
      intro hback
      exact hstale ⟨b, by rw [hpc, show s.userCount b = backing from hback], hback, hnot⟩
  | @falls b hpc hcount =>
    -- the count falls from 1 to `BACKING`: the block is on its way back
    refine h.change rfl rfl ?_ hpc (Or.inr rfl) (Or.inr rfl) ?_ trivial
    · intro c hc
      rw [account_fall_of_ne hc, account_setCount_of_ne hc]
    · intro d r old
      rw [account_fall, account_setCount]
      simp only [Pc.dropping, Pc.returning, decide_true, Bool.toNat_true, Bool.toNat_false,
        Nat.add_zero] at old ⊢
      exact old.fall hcount
  | @backs b hpc =>
    refine h.change rfl rfl ?_ hpc (Or.inr rfl) (Or.inr rfl) ?_ trivial
    · intro c hc
      exact account_back_of_ne hc
    · intro d r old
      rw [account_back]
      simp only [Pc.dropping, Pc.returning, decide_true, Bool.toNat_true, Bool.toNat_false,
        Nat.add_zero] at old ⊢
      exact old.back
  | @releases b last hpc hlast =>
    have hlocal := h.locals t
    rw [hpc] at hlocal
    refine h.change rfl rfl ?_ hpc (Or.inr rfl) (Or.inl rfl) ?_ trivial
    · intro c hc
      rw [account_release_of_ne hc, account_setCount_of_ne hc]
    · intro d r old
      subst hlast
      rw [account_release, account_setCount]
      simp only [Pc.dropping, Pc.returning, decide_true, Bool.toNat_true, Bool.toNat_false,
        Nat.add_zero] at old ⊢
      exact old.release hlocal

omit [DecidableEq τ] in
theorem get (h : Counted s) (hs : s.get t b = some s') : Counted s' := by
  rw [State.get] at hs
  split_ifs at hs with hmem hnew
  · cases hs
    exact ⟨h.accounts, h.locals⟩
  · cases hs
    refine ⟨fun c => ?_, fun u => ?_⟩
    · by_cases hc : c = b
      · subst hc
        have hmade := (h.accounts c).make hnew.2
        simpa [State.account, State.setCount] using hmade
      · simpa [State.account, State.setCount, hc] using h.accounts c
    · exact Pc.Local.mono (fun c hc => by by_cases c = b <;> simp_all) (h.locals u)

/-- **What one step preserves.** -/
theorem step {a : Action τ β} (h : Counted s) (hpaired : Paired s a) (hstale : ¬ Stale s a)
    (hs : s.step a = some s') : Counted s' := by
  cases a with
  | get t b =>
    simp only [State.step] at hs
    split_ifs at hs
    exact h.get hs
  | incrRef t b =>
    simp only [State.step] at hs
    split_ifs at hs with hidle
    cases hs
    exact h.quiet hidle.1 (Or.inl rfl) (Or.inr rfl) rfl rfl hidle.2
  | decrRef t b =>
    simp only [State.step] at hs
    split_ifs at hs with hidle
    cases hs
    refine h.change rfl rfl ?_ hidle (Or.inl rfl) (Or.inr rfl) ?_ trivial
    · intro c hc
      simp [State.account, tick_of_ne hc]
    · intro d r old
      have hbegun := old.begin hpaired
      simpa [State.account, tick_self, Pc.dropping, Pc.returning] using hbegun
  | step t spurious => exact h.advance hstale hs

theorem init : Counted (lockfreeSlabPool τ β).init := by
  refine ⟨fun b => ?_, fun _ => trivial⟩
  show Account.Balanced _ (population (Pc.dropping b) fun _ : τ => Pc.idle)
    (population (Pc.returning b) fun _ : τ => Pc.idle)
  rw [population_const rfl, population_const rfl]
  exact ⟨fun _ => rfl, rfl, Nat.zero_le _, fun h => absurd h (Nat.lt_irrefl _),
    fun _ => Or.inl rfl, rfl⟩

theorem reach (h : (lockfreeSlabPool τ β).Reach (fun s a => Paired s a ∧ ¬ Stale s a) s) :
    Counted s := by
  refine h.invariant init ?_
  intro s a s' hold hok hs
  exact hold.step hok.1 hok.2 hs

end Counted

/-- The counter of `b`, with `BACKING` read as `0`, is the number of references, and it is neither
`0` nor `BACKING` while there are any. -/
def State.Exact (s : State τ β) (b : β) : Prop :=
  (if s.userCount b = backing then 0 else s.userCount b) = s.incrs b - s.decrs b ∧
    (s.decrs b < s.incrs b → s.userCount b ≠ 0 ∧ s.userCount b ≠ backing)

omit [DecidableEq β] in
theorem Account.Balanced.exact (h : (s.account b).Balanced d r) : s.Exact b := by
  rcases Nat.lt_or_eq_of_le h.decrs_le with hlt | heq
  · have hcount : s.userCount b = s.incrs b - s.decrs b := h.referenced hlt
    have hless : s.decrs b < s.incrs b := hlt
    have hzero : s.userCount b ≠ 0 := by omega
    have hback : s.userCount b ≠ backing := by simp only [backing]; omega
    refine ⟨?_, fun _ => ⟨hzero, hback⟩⟩
    rw [if_neg hback, hcount]
  · have heq' : s.decrs b = s.incrs b := heq
    refine ⟨?_, fun hlt => absurd heq' (Nat.ne_of_lt hlt)⟩
    rw [heq', sub_self]
    rcases h.vacant heq with hzero | hback
    · have hcount : s.userCount b = 0 := hzero
      rw [hcount, ite_self]
    · exact if_pos hback

variable [Fintype τ] [DecidableEq τ]

/-- The step takes `BACKING` to `0` while it adds a reference. -/
theorem Counted.not_exact_of_stale {a : Action τ β} (h : Counted s) (hstale : Stale s a)
    (hs : s.step a = some s') : ∃ b, ¬ s'.Exact b := by
  cases a with
  | step t spurious =>
    obtain ⟨b, hpc, hcount, rfl⟩ := hstale
    refine ⟨b, fun hexact => ?_⟩
    have hle : s.decrs b ≤ s.incrs b := (h.accounts b).decrs_le
    simp only [State.step, State.advance, hpc, hcount, and_self, if_true] at hs
    split_ifs at hs
    cases hs
    have hmore : s.decrs b < tick s.incrs b b := by
      rw [tick_self]
      exact Nat.lt_succ_of_le hle
    have hzero : Function.update s.userCount b (backing + 1) b ≠ 0 := (hexact.2 hmore).1
    rw [Function.update_self] at hzero
    exact hzero rfl
  | get => exact hstale.elim
  | incrRef => exact hstale.elim
  | decrRef => exact hstale.elim

/-- **The counter is the number of references in every state of a run without stale steps; a
stale step makes it wrong.** -/
theorem counts_references
    (h : (lockfreeSlabPool τ β).Reach (fun s a => Paired s a ∧ ¬ Stale s a) s) :
    (∀ b, s.Exact b) ∧ ∀ a s', Paired s a → (lockfreeSlabPool τ β).step s a = some s' →
      ((∀ b, s'.Exact b) ↔ ¬ Stale s a) := by
  have hcounted := Counted.reach h
  refine ⟨fun b => (hcounted.accounts b).exact, fun a s' hpaired hs => ⟨?_, ?_⟩⟩
  · intro hexact hstale
    obtain ⟨b, hb⟩ := hcounted.not_exact_of_stale hstale hs
    exact hb (hexact b)
  · intro hstale b
    exact ((hcounted.step hpaired hstale hs).accounts b).exact

instance (s : State τ β) (a : Action τ β) : Decidable (Paired s a) :=
  match a with
  | .decrRef _ b => inferInstanceAs (Decidable (s.begun b < s.incrs b))
  | .get _ _ | .incrRef _ _ | .step _ _ => .isTrue trivial

instance [Fintype β] (s : State τ β) (a : Action τ β) : Decidable (Stale s a) :=
  match a with
  | .step t spurious => inferInstanceAs
      (Decidable (∃ b, s.pc t = .incrCas b backing ∧ s.userCount b = backing ∧ spurious = false))
  | .get _ _ | .incrRef _ _ | .decrRef _ _ => .isFalse id

/-- Thread `t` gives up the only reference and marks the block; `v` helps to reset the counter;
`u` takes a reference, gives it up and marks the block again. -/
def remark (t u v : τ) (b : β) : List (Action τ β) :=
  [.get t b, .incrRef t b, .step t false, .step t false, .decrRef t b, .step t false,
    .step t false, .step t false, .incrRef v b, .step v false, .step v false, .incrRef u b,
    .step u false, .step u false, .decrRef u b, .step u false, .step u false, .step u false]

/-- After these steps the last compare-exchange of thread `2` succeeds, and leaves a count of `0`
for the reference it returns. -/
theorem reference_lost : ∃ s, (lockfreeSlabPool (Fin 3) Unit).Reach Paired s ∧
    s.pc 2 = .idle ∧ s.incrs () = 3 ∧ s.decrs () = 2 ∧ s.userCount () = 0 ∧ ¬ s.Exact () := by
  have hrun := (lockfreeSlabPool (Fin 3) Unit).reach_of_run Paired
    (remark 0 1 2 () ++ [.step 2 false]) rfl
  refine ⟨_, hrun, rfl, rfl, rfl, rfl, ?_⟩
  intro hexact
  exact absurd rfl (hexact.2 (by decide)).1

/-- Before that step the count is right, and then it is not. -/
theorem counts_references_remark :
    ∃ s s', (lockfreeSlabPool (Fin 3) Unit).Reach (fun s a => Paired s a ∧ ¬ Stale s a) s ∧
      s.Exact () ∧ (lockfreeSlabPool (Fin 3) Unit).step s (.step 2 false) = some s' ∧
      ¬ ∀ b, s'.Exact b := by
  have hrun := (lockfreeSlabPool (Fin 3) Unit).reach_of_run
    (fun s a => Paired s a ∧ ¬ Stale s a) (remark 0 1 2 ()) rfl
  refine ⟨_, _, hrun, (counts_references hrun).1 (), rfl, ?_⟩
  rw [(counts_references hrun).2 (.step 2 false) _ trivial rfl]
  exact fun hnot => hnot ⟨(), rfl, rfl, rfl⟩

end LockfreeSlabPool

end Naesala
