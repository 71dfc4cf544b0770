import Naesala.LockfreePool.LockfreeSlabPoolProof

/-!
# No block is recycled while it is in use

Owners that take references of a block they have just obtained, or while another reference is
held, cannot make a stale compare-exchange happen: while a reference is held the counter is never
`BACKING`, and nobody marks a block that has just been obtained.

The invariant `Owned` says where a block can be. A block that was made is in exactly one place: in
the pool, with the thread that `get` gave it to, referenced, or on its way back to the pool. A
step takes it from one place to the next.

**Theorem (`recycled_once`).** In every run of such owners the assertion of `decr_ref` holds, the
counter is the number of references, each fall of that number to zero pushes the block once, and no
block is in the pool twice or while it is referenced.
-/

namespace Naesala

namespace LockfreeSlabPool

variable {τ β : Type} [DecidableEq β]

/-- What a thread in `incr_ref` has: the block from `get`, or a reference of another. With a stale
`last` it is the first. -/
def Pc.Owner (s : State τ β) (t : τ) : Pc β → Prop
  | .incrLoad b => s.got b = some t ∨ s.begun b < s.incrs b
  | .incrHelp b => s.got b = some t
  | .incrCas b last => (s.got b = some t ∨ s.begun b < s.incrs b) ∧
      (last = backing → s.got b = some t ∧ s.userCount b = 0)
  | _ => True

/-- The places where the block is, but for the way back to the pool. -/
def State.places (s : State τ β) (b : β) : ℕ :=
  s.pool.count b + (s.got b).isSome.toNat + (decide (s.decrs b < s.incrs b)).toNat

/-- Each block that was made is in one place, and the threads in `incr_ref` own what they need. -/
structure Owned [Fintype τ] (s : State τ β) : Prop where
  placed : ∀ b, s.places b + population (Pc.returning b) s.pc = (s.allocated b).toNat
  owners : ∀ t, (s.pc t).Owner s t

variable {s s₁ s' : State τ β} {t u : τ} {b c : β} {old pc : Pc β}

/-- A thread keeps what it has if the blocks do. -/
theorem Pc.Owner.mono {pc : Pc β} (h : pc.Owner s u)
    (hgot : ∀ c, pc.raising c = true → s.got c = some u → s'.got c = some u)
    (hheld : ∀ c, pc.raising c = true → s.begun c < s.incrs c → s'.begun c < s'.incrs c)
    (hzero : ∀ c, s.got c = some u → s.userCount c = 0 → s'.userCount c = 0) :
    pc.Owner s' u := by
  cases pc with
  | incrLoad c =>
    have hraising : (Pc.incrLoad c).raising c = true := decide_eq_true rfl
    exact h.imp (hgot c hraising) (hheld c hraising)
  | incrHelp c => exact hgot c (decide_eq_true rfl) h
  | incrCas c last =>
    have hraising : (Pc.incrCas c last).raising c = true := decide_eq_true rfl
    refine ⟨h.1.imp (hgot c hraising) (hheld c hraising), fun hlast => ?_⟩
    obtain ⟨hgot', hzero'⟩ := h.2 hlast
    exact ⟨hgot c hraising hgot', hzero c hgot' hzero'⟩
  | _ => trivial

theorem Pc.Owner.got_or {pc : Pc β} (h : pc.Owner s u) (hraising : pc.raising b = true) :
    s.got b = some u ∨ s.begun b < s.incrs b := by
  cases pc with
  | incrLoad c => exact of_decide_eq_true hraising ▸ h
  | incrHelp c => exact of_decide_eq_true hraising ▸ Or.inl h
  | incrCas c last => exact of_decide_eq_true hraising ▸ h.1
  | _ => cases hraising

namespace Owned

variable [Fintype τ]

theorem le_one (h : Owned s) (b : β) : s.places b + population (Pc.returning b) s.pc ≤ 1 := by
  rw [h.placed b]
  exact Bool.toNat_le _

/-- A block that a thread has just obtained is nowhere else. -/
theorem of_got (h : Owned s) (hgot : s.got b = some t) : ¬ s.decrs b < s.incrs b := by
  intro hlt
  have hone := h.le_one b
  simp only [State.places, hgot, hlt, decide_true, Option.isSome_some, Bool.toNat_true] at hone
  omega

theorem of_mem (h : Owned s) (hmem : b ∈ s.pool) : s.got b = none ∧ ¬ s.decrs b < s.incrs b := by
  have hone := h.le_one b
  have hcount := List.count_pos_iff.2 hmem
  refine ⟨?_, fun hlt => ?_⟩
  · cases hgot : s.got b with
    | none => rfl
    | some u =>
      simp only [State.places, hgot, Option.isSome_some, Bool.toNat_true] at hone
      omega
  · simp only [State.places, hlt, decide_true, Bool.toNat_true] at hone
    omega

theorem got_of_lt (h : Owned s) (hlt : s.decrs b < s.incrs b) : s.got b = none := by
  cases hgot : s.got b with
  | none => rfl
  | some u => exact absurd hlt (h.of_got hgot)

/-- A disciplined `incr_ref` is never stale. -/
theorem not_stale {a : Action τ β} (h : Owned s) : ¬ Stale s a := by
  intro hstale
  cases a with
  | step t spurious =>
    obtain ⟨b, hpc, hcount, -⟩ := hstale
    have howner := h.owners t
    rw [hpc] at howner
    have hzero := (howner.2 rfl).2
    rw [hcount] at hzero
    cases hzero
  | _ => exact hstale.elim

variable [DecidableEq τ]

/-- Thread `t` moves to `pc`, and the block `b` it works on to another place. -/
theorem change (h : Owned s) (hpc : s₁.pc = s.pc) (hallocated : s₁.allocated = s.allocated)
    (hframe : ∀ c, c ≠ b → s₁.places c = s.places c) (hold : s.pc t = old)
    (hbefore : old.block = none ∨ old.block = some b)
    (hafter : pc.block = none ∨ pc.block = some b)
    (hat : s₁.places b + (pc.returning b).toNat = s.places b + (old.returning b).toNat)
    (hothers : ∀ u, u ≠ t → (s.pc u).Owner s₁ u) (howner : pc.Owner s₁ t) :
    Owned (s₁.goto t pc) := by
  subst hold
  have hto : (s₁.goto t pc).pc = Function.update s.pc t pc := by rw [← hpc]; rfl
  refine ⟨fun c => ?_, ?_⟩
  · show s₁.places c + _ = (s₁.allocated c).toNat
    rw [hto, hallocated, ← h.placed c]
    have hpop := population_update (p := Pc.returning c) (f := s.pc) t pc
    by_cases hc : c = b
    · subst hc
      omega
    · rw [Pc.returning_of_block hbefore hc, Pc.returning_of_block hafter hc] at hpop
      rw [hframe c hc, Nat.add_right_cancel hpop]
  · show ∀ u, ((s₁.goto t pc).pc u).Owner s₁ u
    rw [hto]
    exact (Function.forall_update_iff s.pc fun u pc => pc.Owner s₁ u).2 ⟨howner, hothers⟩

theorem quiet (h : Owned s) (hold : s.pc t = old)
    (hbefore : old.block = none ∨ old.block = some b)
    (hafter : pc.block = none ∨ pc.block = some b) (hreturning : pc.returning b = old.returning b)
    (howner : pc.Owner s t) : Owned (s.goto t pc) := by
  refine h.change rfl rfl (fun _ _ => rfl) hold hbefore hafter ?_ (fun u _ => h.owners u) howner
  rw [hreturning]

theorem reset (h : Owned s) (hold : s.pc t = old) (hbefore : old.block = none ∨ old.block = some b)
    (hafter : pc.block = none ∨ pc.block = some b) (hreturning : pc.returning b = old.returning b)
    (howner : pc.Owner (s.setCount b 0) t) : Owned ((s.setCount b 0).goto t pc) := by
  refine h.change rfl rfl (fun _ _ => rfl) hold hbefore hafter ?_ ?_ howner
  · rw [hreturning]
    rfl
  · intro u _
    refine (h.owners u).mono (fun _ _ hgot => hgot) (fun _ _ hheld => hheld) ?_
    intro c _ hzero
    by_cases hc : c = b
    · exact hc ▸ Function.update_self _ _ _
    · exact (Function.update_of_ne hc _ _).trans hzero

/-- The last compare-exchange of `incr_ref`: the block is referenced from now on. -/
theorem acquire {last : ℤ} (h : Owned s) (hcounted : Counted s) (hpc : s.pc t = .incrCas b last)
    (n : ℤ) : Owned (((s.setCount b n).acquire b).goto t .idle) := by
  have howner := h.owners t
  rw [hpc] at howner
  have hheld : s.begun b < s.incrs b → s.decrs b < s.incrs b :=
    (hcounted.accounts b).decrs_le_begun.trans_lt
  have hmine : ∀ u c, u ≠ t → s.got c = some u → c ≠ b := by
    intro u c hu hgot heq
    subst heq
    rcases howner.1 with hgot' | hlt
    · exact hu (Option.some.inj (hgot.symm.trans hgot'))
    · exact h.of_got hgot (hheld hlt)
  refine h.change rfl rfl ?_ hpc (Or.inr rfl) (Or.inl rfl) ?_ ?_ trivial
  · intro c hc
    simp [State.places, State.acquire, State.setCount, hc, tick_of_ne hc]
  · have hle : s.decrs b < s.incrs b + 1 := Nat.lt_succ_of_le (hcounted.accounts b).decrs_le
    have hone : s.places b = s.pool.count b + 1 := by
      rcases howner.1 with hgot | hlt
      · simp [State.places, hgot, h.of_got hgot]
      · simp [State.places, h.got_of_lt (hheld hlt), hheld hlt]
    rw [hone]
    simp [State.places, State.acquire, State.setCount, tick_self, hle, Pc.returning]
  · intro u hu
    refine (h.owners u).mono ?_ ?_ ?_
    · intro c _ hgot
      exact (Function.update_of_ne (hmine u c hu hgot) _ _).trans hgot
    · intro c _ hlt
      by_cases hc : c = b
      · subst hc
        exact (Nat.lt_succ_of_lt hlt).trans_eq (tick_self _ _).symm
      · exact hlt.trans_eq (tick_of_ne hc _).symm
    · intro c hgot hzero
      exact (Function.update_of_ne (hmine u c hu hgot) _ _).trans hzero

omit [DecidableEq τ] in
theorem owners_setCount (h : Owned s) (hlt : s.decrs b < s.incrs b) (n : ℤ) (hgot : s₁.got = s.got)
    (hbegun : s₁.begun = s.begun) (hincrs : s₁.incrs = s.incrs)
    (hcount : s₁.userCount = Function.update s.userCount b n) (u : τ) : (s.pc u).Owner s₁ u := by
  refine (h.owners u).mono ?_ ?_ ?_
  · intro c _ hc
    rwa [hgot]
  · intro c _ hc
    rwa [hbegun, hincrs]
  · intro c hc hzero
    have hne : c ≠ b := by
      intro heq
      subst heq
      exact h.of_got hc hlt
    rw [hcount, Function.update_of_ne hne, hzero]

/-- The last reference is given up: the block is on its way back. -/
theorem fall (h : Owned s) (hcounted : Counted s) (hpc : s.pc t = .decrMark b)
    (hcount : s.userCount b = 1) :
    Owned (((s.setCount b backing).fall b).goto t (.decrBack b)) := by
  have hpos := population_pos.2 ⟨t, show (s.pc t).dropping b = true by simp [hpc, Pc.dropping]⟩
  have hlt : s.decrs b < s.incrs b := (hcounted.accounts b).lt_of_dropping hpos
  have hlast : s.userCount b = s.incrs b - s.decrs b := (hcounted.accounts b).referenced hlt
  refine h.change rfl rfl ?_ hpc (Or.inr rfl) (Or.inr rfl) ?_ ?_ trivial
  · intro c hc
    simp [State.places, State.fall, State.release, State.setCount, tick_of_ne hc]
  · -- no longer referenced, and pushed soon
    have hnot : ¬ s.decrs b + 1 < s.incrs b := by omega
    simp [State.places, State.fall, State.release, State.setCount, tick_self, hlt, hnot,
      Pc.returning]
  · intro u _
    refine h.owners_setCount hlt backing ?_ ?_ ?_ ?_ u <;> rfl

theorem release {last : ℤ} (h : Owned s) (hcounted : Counted s) (hpc : s.pc t = .decrCas b last)
    (hcount : s.userCount b = last) (n : ℤ) :
    Owned (((s.setCount b n).release b).goto t .idle) := by
  have hpos := population_pos.2 ⟨t, show (s.pc t).dropping b = true by simp [hpc, Pc.dropping]⟩
  have hlt : s.decrs b < s.incrs b := (hcounted.accounts b).lt_of_dropping hpos
  have hleft : s.userCount b = s.incrs b - s.decrs b := (hcounted.accounts b).referenced hlt
  have hlocal := hcounted.locals t
  rw [hpc] at hlocal
  have hmore : 1 < last := hlocal
  refine h.change rfl rfl ?_ hpc (Or.inr rfl) (Or.inl rfl) ?_ ?_ trivial
  · intro c hc
    simp [State.places, State.release, State.setCount, tick_of_ne hc]
  · have hstill : s.decrs b + 1 < s.incrs b := by omega
    simp [State.places, State.release, State.setCount, tick_self, hlt, hstill, Pc.returning]
  · intro u _
    refine h.owners_setCount hlt n ?_ ?_ ?_ ?_ u <;> rfl

theorem back (h : Owned s) (hpc : s.pc t = .decrBack b) :
    Owned ((s.back b).goto t (.decrReset b)) := by
  refine h.change rfl rfl ?_ hpc (Or.inr rfl) (Or.inr rfl) ?_ ?_ trivial
  · intro c hc
    show (b :: s.pool).count c + _ + _ = _
    rw [List.count_cons_of_ne (Ne.symm hc)]
    rfl
  · show (b :: s.pool).count b + (s.got b).isSome.toNat + (decide (s.decrs b < s.incrs b)).toNat +
      0 = s.pool.count b + _ + _ + (decide (b = b)).toNat
    rw [List.count_cons_self, decide_eq_true rfl, Bool.toNat_true]
    omega
  · intro u _
    exact (h.owners u).mono (fun _ _ hgot => hgot) (fun _ _ hheld => hheld)
      (fun _ _ hzero => hzero)

omit [DecidableEq τ] in
/-- What a thread owned, it owns at its next place. -/
theorem owner_of_reads {spurious : Bool} (h : Owned s) (hcounted : Counted s)
    (hreads : Reads s.userCount spurious b old pc) (hpc : s.pc t = old) : pc.Owner s t := by
  have howner := h.owners t
  rw [hpc] at howner
  cases hreads with
  | vacant hcount =>
    rcases howner with hgot | hheld
    · exact hgot
    · -- the counter of a referenced block is not `BACKING`
      have hlt := (hcounted.accounts b).decrs_le_begun.trans_lt hheld
      exact absurd hcount ((hcounted.accounts b).exact.2 hlt).2
  | load hcount => exact ⟨howner, fun hlast => absurd hlast hcount⟩
  | helpFails hcount => exact ⟨Or.inl howner, fun hlast => absurd hlast hcount⟩
  | incrFails => exact howner.1
  | _ => trivial

omit [DecidableEq τ] in
theorem owner_of_resets (h : Owned s) (hresets : Resets b old pc) (hpc : s.pc t = old) :
    pc.Owner (s.setCount b 0) t := by
  have howner := h.owners t
  rw [hpc] at howner
  cases hresets with
  | help => exact ⟨Or.inl howner, fun _ => ⟨howner, Function.update_self _ _ _⟩⟩
  | own => trivial

theorem advance {spurious : Bool} (h : Owned s) (hcounted : Counted s)
    (hs : s.advance t spurious = some s') : Owned s' := by
  cases stepped_of_advance hs with
  | @reads b pc hreads =>
    exact h.quiet rfl hreads.before hreads.after hreads.returning
      (h.owner_of_reads hcounted hreads rfl)
  | @resets b pc hresets =>
    exact h.reset rfl hresets.before hresets.after hresets.returning
      (h.owner_of_resets hresets rfl)
  | acquires hpc => exact h.acquire hcounted hpc _
  | falls hpc hcount => exact h.fall hcounted hpc hcount
  | backs hpc => exact h.back hpc
  | releases hpc hcount => exact h.release hcounted hpc hcount _

omit [DecidableEq τ] in
/-- No thread is in `incr_ref` of a block that is nowhere. -/
theorem not_raising (h : Owned s) (hcounted : Counted s) (hgot : s.got b = none)
    (hnot : ¬ s.decrs b < s.incrs b) (u : τ) : (s.pc u).raising b = false := by
  rw [← Bool.not_eq_true]
  intro hraising
  rcases (h.owners u).got_or hraising with hgot' | hheld
  · rw [hgot] at hgot'
    cases hgot'
  · exact hnot ((hcounted.accounts b).decrs_le_begun.trans_lt hheld)

omit [DecidableEq τ] in
/-- A block that nobody has is given to thread `t`. -/
theorem owners_get (h : Owned s) (hcounted : Counted s) (hgot : s.got b = none)
    (hnot : ¬ s.decrs b < s.incrs b) (hgot' : s₁.got = Function.update s.got b (some t))
    (hbegun : s₁.begun = s.begun) (hincrs : s₁.incrs = s.incrs)
    (hcount : ∀ c, s.userCount c = 0 → s₁.userCount c = 0) (u : τ) : (s.pc u).Owner s₁ u := by
  have hidle := h.not_raising hcounted hgot hnot u
  refine (h.owners u).mono ?_ ?_ (fun c _ => hcount c)
  · intro c hraising hc
    have hne : c ≠ b := by
      intro heq
      subst heq
      rw [hidle] at hraising
      cases hraising
    rwa [hgot', Function.update_of_ne hne]
  · intro c _ hc
    rwa [hbegun, hincrs]

omit [DecidableEq τ] in
theorem get (h : Owned s) (hcounted : Counted s) (hs : s.get t b = some s') : Owned s' := by
  rw [State.get] at hs
  split_ifs at hs with hmem hnew
  · cases hs
    obtain ⟨hgot, hnot⟩ := h.of_mem hmem
    refine ⟨fun c => ?_, h.owners_get hcounted hgot hnot rfl rfl rfl fun _ hc => hc⟩
    rw [← h.placed c]
    by_cases hc : c = b
    · subst hc
      have hpos := List.count_pos_iff.2 hmem
      simp only [State.places, List.count_erase_self, Function.update_self, hgot,
        Option.isSome_some, Option.isSome_none, Bool.toNat_true, Bool.toNat_false]
      omega
    · simp [State.places, List.count_erase_of_ne hc, hc]
  · cases hs
    have hplaced := h.placed b
    rw [hnew.2, Bool.toNat_false] at hplaced
    have hgot : s.got b = none := by
      cases hgot : s.got b with
      | none => rfl
      | some u => simp [State.places, hgot] at hplaced
    have hnot : ¬ s.decrs b < s.incrs b := by
      intro hlt
      simp [State.places, hlt] at hplaced
    refine ⟨fun c => ?_, h.owners_get hcounted hgot hnot rfl rfl rfl fun c hc => ?_⟩
    · show s.pool.count c + (Function.update s.got b (some t) c).isSome.toNat +
        (decide (s.decrs c < s.incrs c)).toNat + population (Pc.returning c) s.pc =
          (Function.update s.allocated b true c).toNat
      by_cases hc : c = b
      · subst hc
        rw [Function.update_self, Function.update_self, Option.isSome_some, Bool.toNat_true]
        simp only [State.places, hgot, Option.isSome_none, Bool.toNat_false] at hplaced
        omega
      · rw [Function.update_of_ne hc, Function.update_of_ne hc]
        exact h.placed c
    · by_cases hcb : c = b
      · exact hcb ▸ Function.update_self _ _ _
      · exact (Function.update_of_ne hcb _ _).trans hc

/-- **What one step preserves.** -/
theorem step {a : Action τ β} (h : Owned s) (hcounted : Counted s) (hok : Disciplined s a)
    (hs : s.step a = some s') : Owned s' := by
  cases a with
  | get t b =>
    simp only [State.step] at hs
    split_ifs at hs
    exact h.get hcounted hs
  | incrRef t b =>
    simp only [State.step] at hs
    split_ifs at hs with hidle
    cases hs
    exact h.quiet hidle.1 (Or.inl rfl) (Or.inr rfl) rfl hok
  | decrRef t b =>
    simp only [State.step] at hs
    split_ifs at hs with hidle
    cases hs
    refine h.change rfl rfl (fun _ _ => rfl) hidle (Or.inl rfl) (Or.inr rfl) rfl ?_ trivial
    intro u _
    refine (h.owners u).mono (fun _ _ hgot => hgot) ?_ (fun _ _ hzero => hzero)
    intro c hraising hc
    show tick s.begun b c < s.incrs c
    by_cases hcb : c = b
    · subst hcb
      rw [tick_self]
      -- the reference that `u` relies on is not the one given up
      rcases hok.2 with hleft | hnone
      · exact hleft
      · rw [hnone u] at hraising
        cases hraising
    · rwa [tick_of_ne hcb]
  | step t spurious => exact h.advance hcounted hs

theorem init : Owned (lockfreeSlabPool τ β).init := by
  refine ⟨fun b => ?_, fun _ => trivial⟩
  show 0 + population (Pc.returning b) (fun _ : τ => Pc.idle) = 0
  rw [population_const rfl]

theorem reach (h : (lockfreeSlabPool τ β).Reach Disciplined s) : Counted s ∧ Owned s := by
  refine h.invariant (I := fun s => Counted s ∧ Owned s) ⟨Counted.init, init⟩ ?_
  intro s a s' hold hok hs
  have hpaired : Paired s a := by
    cases a with
    | decrRef t b => exact hok.1
    | _ => trivial
  exact ⟨hold.1.step hpaired hold.2.not_stale hs, hold.2.step hold.1 hok hs⟩

end Owned

/-- What one step adds to the falls of `b`: whether it takes the number of references to zero. -/
def fell (s s' : State τ β) (b : β) : ℕ :=
  if s.decrs b < s.incrs b ∧ s'.decrs b = s'.incrs b then 1 else 0

omit [DecidableEq β] in
/-- A step that gives up no reference. -/
theorem falls_of_same (hfalls : s'.falls b = s.falls b) (hdecrs : s'.decrs b = s.decrs b)
    (hincrs : s.incrs b ≤ s'.incrs b) : s'.falls b = s.falls b + fell s s' b := by
  have hnot : ¬ (s.decrs b < s.incrs b ∧ s'.decrs b = s'.incrs b) := by omega
  rw [hfalls, fell, if_neg hnot, Nat.add_zero]

variable [Fintype τ] [DecidableEq τ]

/-- The observation `falls` is what it says. -/
theorem Counted.falls_advance {spurious : Bool} (h : Counted s)
    (hs : s.advance t spurious = some s') (b : β) : s'.falls b = s.falls b + fell s s' b := by
  have hlast : ∀ {c}, (s.pc t).dropping c = true → s.decrs c < s.incrs c ∧
      s.userCount c = s.incrs c - s.decrs c := by
    intro c hdropping
    have hpos := population_pos.2 ⟨t, hdropping⟩
    exact ⟨(h.accounts c).lt_of_dropping hpos, (h.accounts c).count_of_dropping hpos⟩
  cases stepped_of_advance hs with
  | reads | resets | backs => exact falls_of_same rfl rfl le_rfl
  | @acquires c =>
    refine falls_of_same rfl rfl ?_
    show s.incrs b ≤ tick s.incrs c b
    by_cases hb : b = c
    · subst hb
      rw [tick_self]
      exact Nat.le_succ _
    · rw [tick_of_ne hb]
  | @falls c hpc hone =>
    by_cases hb : b = c
    · subst hb
      -- the counter was 1, so this was the last reference
      obtain ⟨hlt, hcount⟩ := hlast (c := b) (by simp [hpc, Pc.dropping])
      have hfall : tick s.decrs b b = s.incrs b := by
        rw [tick_self]
        omega
      show tick s.falls b b = s.falls b + _
      rw [tick_self, fell, if_pos ⟨hlt, hfall⟩]
    · exact falls_of_same (tick_of_ne hb _) (tick_of_ne hb _) le_rfl
  | @releases c last hpc hcas =>
    by_cases hb : b = c
    · subst hb
      -- a `last` of more than 1 leaves a reference
      have hlocal := h.locals t
      rw [hpc] at hlocal
      have hmore : 1 < last := hlocal
      obtain ⟨hlt, hcount⟩ := hlast (c := b) (by simp [hpc, Pc.dropping])
      have hnot : ¬ (s.decrs b < s.incrs b ∧ tick s.decrs b b = s.incrs b) := by
        rw [tick_self]
        omega
      show s.falls b = s.falls b + if s.decrs b < s.incrs b ∧ tick s.decrs b b = s.incrs b then 1
        else 0
      rw [if_neg hnot, Nat.add_zero]
    · exact falls_of_same rfl (tick_of_ne hb _) le_rfl

theorem Counted.falls_step {a : Action τ β} (h : Counted s) (hs : s.step a = some s') (b : β) :
    s'.falls b = s.falls b + fell s s' b := by
  cases a with
  | get t c =>
    simp only [State.step, State.get] at hs
    split_ifs at hs <;> cases hs <;> exact falls_of_same rfl rfl le_rfl
  | incrRef t c =>
    simp only [State.step] at hs
    split_ifs at hs
    cases hs
    exact falls_of_same rfl rfl le_rfl
  | decrRef t c =>
    simp only [State.step] at hs
    split_ifs at hs
    cases hs
    exact falls_of_same rfl rfl le_rfl
  | step t spurious => exact h.falls_advance hs b

/-- **What disciplined owners can rely on.** -/
theorem recycled_once (h : (lockfreeSlabPool τ β).Reach Disciplined s) :
    (∀ t b last, s.pc t = .decrAssert b last → last ≠ backing) ∧
      s.pool.Nodup ∧
      (∀ b, s.falls b = s.pushes b + population (Pc.returning b) s.pc) ∧
      (∀ b, s.decrs b < s.incrs b → s.userCount b = s.incrs b - s.decrs b ∧ b ∉ s.pool) ∧
      ∀ a s', (lockfreeSlabPool τ β).step s a = some s' →
        ∀ b, s'.falls b = s.falls b + fell s s' b := by
  obtain ⟨hcounted, howned⟩ := Owned.reach h
  refine ⟨fun t b last hpc => ?_, ?_, fun b => (hcounted.accounts b).falls_eq,
    fun b hlt => ⟨(hcounted.accounts b).referenced hlt, fun hmem => (howned.of_mem hmem).2 hlt⟩,
    fun a s' hs => hcounted.falls_step hs⟩
  · have hlocal := hcounted.locals t
    rw [hpc] at hlocal
    have hpos : 0 < last := hlocal
    simp only [backing]
    omega
  · rw [List.nodup_iff_count_le_one]
    intro b
    -- a block twice in the pool would be in two places
    have hone := howned.le_one b
    simp only [State.places] at hone
    omega

instance (s : State τ β) (a : Action τ β) : Decidable (Disciplined s a) :=
  match a with
  | .incrRef t b => inferInstanceAs (Decidable (s.got b = some t ∨ s.begun b < s.incrs b))
  | .decrRef _ b => inferInstanceAs (Decidable (s.begun b < s.incrs b ∧
      (s.begun b + 1 < s.incrs b ∨ ∀ u, (s.pc u).raising b = false)))
  | .get _ _ | .step _ _ => .isTrue trivial

/-- Thread `0` still has to reset the counter when thread `1` obtains the block, helps, takes a
reference, and is about to give it up. -/
def handover : List (Action (Fin 2) Unit) :=
  [.get 0 (), .incrRef 0 (), .step 0 false, .step 0 false, .decrRef 0 ()] ++
    List.replicate 4 (.step 0 false) ++ [.get 1 (), .incrRef 1 ()] ++
    List.replicate 5 (.step 1 false) ++ [.step 0 false, .decrRef 1 (), .step 1 false]

theorem recycled_once_handover : ∃ s, (lockfreeSlabPool (Fin 2) Unit).Reach Disciplined s ∧
    s.pc 1 = .decrAssert () 1 ∧ s.falls () = 1 ∧ s.pushes () = 1 ∧
    s.userCount () = s.incrs () - s.decrs () ∧ () ∉ s.pool := by
  have hrun := (lockfreeSlabPool (Fin 2) Unit).reach_of_run Disciplined handover rfl
  exact ⟨_, hrun, rfl, rfl, rfl, (recycled_once hrun).2.2.2.1 () (by decide)⟩

end LockfreeSlabPool

end Naesala
