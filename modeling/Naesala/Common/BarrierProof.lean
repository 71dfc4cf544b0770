import Mathlib.Algebra.Group.Nat.Defs
import Naesala.Common.Barrier
import Naesala.Library.Mutex

/-!
# `Barrier` releases everyone

Before the counter has been decremented as often as there are parties it is not zero, so nobody
passes. The decrement that makes it zero is done with the mutex, when every earlier caller has
either blocked or been woken; from then on an earlier caller that rechecks the predicate finds it
true, as long as the counter stays zero. A further call would take it to `2 ^ 32 - 1`, and put
those back to sleep that have not rechecked.

**Theorem (`released`).** In every run nobody returns before as many calls as there are parties
have decremented. In every run in which no further call decrements while one of these has yet to
return, each of them is running or woken with the counter at zero from then on, except that some
are still blocked while the last of them, which has the mutex, has yet to notify them.
-/

namespace Naesala

namespace Barrier

variable {τ : Type} {s s' : State τ} {t u : τ} {parties : ℕ}

/-- The thread has locked the mutex. -/
def Pc.inside : Pc → Bool
  | .idle | .lock | .blocked | .woken => false
  | _ => true

/-- The call has found the counter at zero. -/
def Pc.passed : Pc → Bool
  | .notify | .assertion | .unlock => true
  | _ => false

/-- The call has decremented. -/
def Pc.counted : Pc → Bool
  | .idle | .lock | .decrement => false
  | _ => true

/-! ## Nobody returns early -/

/-- What every run keeps. -/
structure Sound (parties : ℕ) (s : State τ) : Prop where
  mutex : Exclusive Pc.inside s.holder s.pc
  counter : s.arrived ≤ parties → s.parties.toNat = parties - s.arrived
  nobody : s.arrived < parties → s.returned = 0 ∧ ∀ t, (s.pc t).passed = false
  counted : ∀ t, (s.rank t).isSome = true → (s.pc t).counted = true

theorem Sound.parties_ne_zero (h : Sound parties s) (hlt : s.arrived < parties) :
    s.parties ≠ 0 := by
  intro hzero
  have hcounter := h.counter (Nat.le_of_lt hlt)
  rw [hzero] at hcounter
  have : (0 : BitVec 32).toNat = 0 := rfl
  omega

theorem Sound.parties_eq_zero (h : Sound parties s) (heq : s.arrived = parties) :
    s.parties = 0 := by
  refine BitVec.eq_of_toNat_eq ?_
  rw [h.counter (Nat.le_of_eq heq), heq, Nat.sub_self]
  rfl

variable [DecidableEq τ]

/-- Thread `t` moves to `pc`, and the pcs of the others are as they were. -/
theorem Sound.change {s₁ : State τ} {pc : Pc} (h : Sound parties s) (hpc : s₁.pc = s.pc)
    (mutex : Exclusive Pc.inside s₁.holder (Function.update s.pc t pc))
    (counter : s₁.arrived ≤ parties → s₁.parties.toNat = parties - s₁.arrived)
    (hle : s.arrived ≤ s₁.arrived)
    (hnobody : s₁.arrived < parties → s₁.returned = 0 ∧ pc.passed = false)
    (hrank : ∀ u, u ≠ t → s₁.rank u = s.rank u)
    (hcounted : (s₁.rank t).isSome = true → pc.counted = true) : Sound parties (s₁.goto t pc) where
  mutex := by rwa [← hpc] at mutex
  counter := counter
  nobody := by
    intro hlt
    refine ⟨(hnobody hlt).1, fun u => ?_⟩
    by_cases hu : u = t
    · subst hu
      simpa [State.goto] using (hnobody hlt).2
    · simpa [State.goto, hu, hpc] using (h.nobody (Nat.lt_of_le_of_lt hle hlt)).2 u
  counted := by
    intro u hu
    by_cases hut : u = t
    · subst hut
      simpa [State.goto] using hcounted hu
    · have hold : (s.rank u).isSome = true := by rwa [← hrank u hut]
      simpa [State.goto, hut, hpc] using h.counted u hold

theorem Sound.move {pc : Pc} (h : Sound parties s)
    (hin : pc.inside = true → (s.pc t).inside = true)
    (hpassed : s.arrived < parties → pc.passed = false)
    (hcounted : (s.pc t).counted = true → pc.counted = true) : Sound parties (s.goto t pc) :=
  h.change rfl (h.mutex.move hin) h.counter (Nat.le_refl _)
    (fun hlt => ⟨(h.nobody hlt).1, hpassed hlt⟩) (fun _ _ => rfl)
    fun hrank => hcounted (h.counted t hrank)

omit [DecidableEq τ] in
/-- A blocked and a woken thread are in the same position. -/
theorem Sound.notifyAll (h : Sound parties s) : Sound parties s.notifyAll := by
  have hpc : ∀ f : Pc → Bool, f .woken = f .blocked → ∀ u, f (s.notifyAll.pc u) = f (s.pc u) := by
    intro f hf u
    show f (if s.pc u = .blocked then .woken else s.pc u) = f (s.pc u)
    split_ifs with hu
    · rw [hf, hu]
    · rfl
  refine ⟨fun u hu => h.mutex u ?_, h.counter, fun hlt => ⟨(h.nobody hlt).1, fun u => ?_⟩,
    fun u hu => ?_⟩
  · rwa [hpc Pc.inside rfl] at hu
  · rw [hpc Pc.passed rfl]
    exact (h.nobody hlt).2 u
  · rw [hpc Pc.counted rfl]
    exact h.counted u hu

omit [DecidableEq τ] in
/-- A thread that has passed shows that everybody has arrived. -/
theorem Sound.le_of_passed (h : Sound parties s) (hpassed : (s.pc t).passed = true) :
    parties ≤ s.arrived := by
  refine Nat.le_of_not_lt fun hlt => ?_
  rw [(h.nobody hlt).2 t] at hpassed
  cases hpassed

theorem Sound.advance (h : Sound parties s) (hst : s.advance t = some s') : Sound parties s' := by
  unfold State.advance at hst
  cases hpc : s.pc t with
  | idle | blocked => simp [hpc] at hst
  | lock =>
    simp only [hpc, Option.ite_none_right_eq_some, Option.some.injEq] at hst
    obtain ⟨hfree, rfl⟩ := hst
    refine h.change rfl (Exclusive.lock (hfree ▸ h.mutex) t _) h.counter (Nat.le_refl _)
      (fun hlt => ⟨(h.nobody hlt).1, rfl⟩) (fun _ _ => rfl) fun hrank => ?_
    -- a thread that has not locked yet has decremented nothing
    have hcounted := h.counted t hrank
    rw [hpc] at hcounted
    cases hcounted
  | decrement =>
    simp only [hpc, Option.some.injEq] at hst
    subst hst
    have hin : (s.pc t).inside = true := by rw [hpc]; rfl
    refine h.change rfl (h.mutex.move fun _ => hin) ?_ (Nat.le_succ _) ?_ ?_ fun _ => rfl
    · -- no borrow, as long as no more than `parties` threads have arrived
      intro hle
      have hcounter := h.counter (Nat.le_of_succ_le hle)
      show (s.parties - 1).toNat = parties - (s.arrived + 1)
      have hle' : s.arrived + 1 ≤ parties := hle
      bv_omega
    · intro hlt
      exact ⟨(h.nobody (Nat.lt_of_succ_lt hlt)).1, rfl⟩
    · exact fun u hu => Function.update_of_ne hu _ _
  | test =>
    have hin : (s.pc t).inside = true := by rw [hpc]; rfl
    simp only [hpc] at hst
    split at hst
    case isTrue hzero =>
      cases hst
      exact h.move (fun _ => hin) (fun hlt => absurd hzero (h.parties_ne_zero hlt)) fun _ => rfl
    case isFalse =>
      cases hst
      exact h.move (fun _ => hin) (fun _ => rfl) fun _ => rfl
  | notify =>
    simp only [hpc, Option.some.injEq] at hst
    subst hst
    have hpassed : (s.pc t).passed = true := by rw [hpc]; rfl
    have hin : (s.notifyAll.pc t).inside = true := by
      show Pc.inside (if s.pc t = .blocked then .woken else s.pc t) = true
      rw [if_neg (by rw [hpc]; decide), hpc]
      rfl
    -- `t` itself is not blocked, so it moves on as it would without the notification
    refine h.notifyAll.move (fun _ => hin) (fun hlt => ?_) fun _ => rfl
    exact absurd (h.le_of_passed hpassed) (Nat.not_le_of_lt hlt)
  | check =>
    have hin : (s.pc t).inside = true := by rw [hpc]; rfl
    simp only [hpc] at hst
    split at hst
    case isTrue hzero =>
      cases hst
      exact h.move (fun _ => hin) (fun hlt => absurd hzero (h.parties_ne_zero hlt)) fun _ => rfl
    case isFalse =>
      cases hst
      exact h.move (fun _ => hin) (fun _ => rfl) fun _ => rfl
  | wait =>
    simp only [hpc, Option.some.injEq] at hst
    subst hst
    have hin : (s.pc t).inside = true := by rw [hpc]; rfl
    exact h.change rfl (h.mutex.leave hin rfl none) h.counter (Nat.le_refl _)
      (fun hlt => ⟨(h.nobody hlt).1, rfl⟩) (fun _ _ => rfl) fun _ => rfl
  | woken =>
    simp only [hpc, Option.ite_none_right_eq_some, Option.some.injEq] at hst
    obtain ⟨hfree, rfl⟩ := hst
    exact h.change rfl (Exclusive.lock (hfree ▸ h.mutex) t _) h.counter (Nat.le_refl _)
      (fun hlt => ⟨(h.nobody hlt).1, rfl⟩) (fun _ _ => rfl) fun _ => rfl
  | assertion =>
    simp only [hpc, Option.ite_none_right_eq_some, Option.some.injEq] at hst
    obtain ⟨hzero, rfl⟩ := hst
    have hin : (s.pc t).inside = true := by rw [hpc]; rfl
    exact h.move (fun _ => hin) (fun hlt => absurd hzero (h.parties_ne_zero hlt)) fun _ => rfl
  | unlock =>
    simp only [hpc, Option.some.injEq] at hst
    subst hst
    have hin : (s.pc t).inside = true := by rw [hpc]; rfl
    have hpassed : (s.pc t).passed = true := by rw [hpc]; rfl
    -- returning shows that the counter has been zero
    refine h.change rfl (h.mutex.leave hin rfl none) h.counter (Nat.le_refl _) (fun hlt => ?_) ?_ ?_
    · exact absurd (h.le_of_passed hpassed) (Nat.not_le_of_lt hlt)
    · exact fun u hu => Function.update_of_ne hu _ _
    · intro hrank
      simp at hrank

theorem Sound.step (h : Sound parties s) {a : Action τ} (hst : s.step a = some s') :
    Sound parties s' := by
  cases a with
  | call t =>
    simp only [State.step, Option.ite_none_right_eq_some, Option.some.injEq] at hst
    obtain ⟨hpc, rfl⟩ := hst
    refine h.move (fun hin => by cases hin) (fun _ => rfl) fun hcounted => ?_
    rw [hpc] at hcounted
    cases hcounted
  | step t => exact h.advance hst
  | spurious t =>
    simp only [State.step, Option.ite_none_right_eq_some, Option.some.injEq] at hst
    obtain ⟨hpc, rfl⟩ := hst
    exact h.move (fun hin => by cases hin) (fun _ => rfl) fun _ => rfl

theorem Sound.init (hlt : parties < 2 ^ 32) : Sound parties (barrier τ parties).init where
  mutex _ ht := by cases ht
  counter _ := by
    show (BitVec.ofNat 32 parties).toNat = parties - 0
    rw [BitVec.toNat_ofNat, Nat.mod_eq_of_lt hlt, Nat.sub_zero]
  nobody _ := ⟨rfl, fun _ => rfl⟩
  counted _ ht := by cases ht

theorem Sound.reach (hlt : parties < 2 ^ 32) (hs : (barrier τ parties).Reachable s) :
    Sound parties s :=
  hs.invariant (Sound.init hlt) fun _ _ _ h _ hst => h.step hst

/-! ## Everyone is released -/

/-- The thread makes the last of the first calls, and has yet to notify the others. -/
structure State.Last (parties : ℕ) (s : State τ) (u : τ) : Prop where
  rank : s.rank u = some (parties - 1)
  pc : s.pc u = .test ∨ s.pc u = .notify

/-- Once everybody has arrived, the first calls are not about to block, and if one is still
blocked, the last one has yet to notify it. -/
structure Freed (parties : ℕ) (s : State τ) : Prop where
  full : parties ≤ s.arrived → ∀ t, s.Early parties t → s.arrived = parties
  not_wait : parties ≤ s.arrived → ∀ t, s.Early parties t → s.pc t ≠ .wait
  blocked : parties ≤ s.arrived → ∀ t, s.Early parties t → s.pc t = .blocked →
    ∃ u, s.Last parties u

omit [DecidableEq τ] in
theorem State.Last.early (h : s.Last parties u) (hpos : 0 < parties) : s.Early parties u :=
  ⟨parties - 1, Nat.sub_lt hpos Nat.one_pos, h.rank⟩

/-- Thread `t` moves to `pc`, and nobody arrives. -/
theorem Freed.change {s₁ : State τ} {pc : Pc} (h : Freed parties s) (hpc : s₁.pc = s.pc)
    (harrived : s₁.arrived = s.arrived) (hrank : ∀ u, u ≠ t → s₁.rank u = s.rank u)
    (hearly : s₁.Early parties t → s.Early parties t)
    (hself : parties ≤ s.arrived → s.Early parties t → pc ≠ .wait ∧ pc ≠ .blocked)
    (hlast : parties ≤ s.arrived → s.Last parties t → (s₁.goto t pc).Last parties t) :
    Freed parties (s₁.goto t pc) := by
  have hmono : ∀ u, (s₁.goto t pc).Early parties u → s.Early parties u := by
    intro u hu
    by_cases hut : u = t
    · subst hut
      exact hearly hu
    · obtain ⟨k, hk, hku⟩ := hu
      exact ⟨k, hk, by rw [← hrank u hut]; exact hku⟩
  refine ⟨fun hle u hu => ?_, fun hle u hu => ?_, fun hle u hu hb => ?_⟩
  · show s₁.arrived = parties
    rw [harrived]
    exact h.full (harrived ▸ hle) u (hmono u hu)
  · by_cases hut : u = t
    · subst hut
      simpa [State.goto] using (hself (harrived ▸ hle) (hmono u hu)).1
    · simpa [State.goto, hut, hpc] using h.not_wait (harrived ▸ hle) u (hmono u hu)
  · by_cases hut : u = t
    · subst hut
      exact absurd (by simpa [State.goto] using hb) (hself (harrived ▸ hle) (hmono u hu)).2
    · have hb' : s.pc u = .blocked := by simpa [State.goto, hut, hpc] using hb
      obtain ⟨v, hv⟩ := h.blocked (harrived ▸ hle) u (hmono u hu) hb'
      by_cases hvt : v = t
      · subst hvt
        exact ⟨v, hlast (harrived ▸ hle) hv⟩
      · refine ⟨v, (hrank v hvt).trans hv.rank, ?_⟩
        simpa [State.goto, hvt, hpc] using hv.pc

theorem Freed.move {s₁ : State τ} {pc : Pc} (h : Freed parties s) (hpc : s₁.pc = s.pc)
    (harrived : s₁.arrived = s.arrived) (hrank : s₁.rank = s.rank)
    (ht : s.pc t ≠ .test ∧ s.pc t ≠ .notify)
    (hself : parties ≤ s.arrived → s.Early parties t → pc ≠ .wait ∧ pc ≠ .blocked) :
    Freed parties (s₁.goto t pc) := by
  refine h.change hpc harrived (fun u _ => by rw [hrank]) (fun hearly => ?_) hself fun _ hlast => ?_
  · unfold State.Early at hearly
    rwa [hrank] at hearly
  · rcases hlast.pc with hl | hl
    · exact absurd hl ht.1
    · exact absurd hl ht.2

/-- **The notification**: nobody is blocked after it. -/
theorem Freed.notify (h : Freed parties s) : Freed parties (s.notifyAll.goto t .unlock) := by
  have hpc : ∀ u, (s.notifyAll.goto t .unlock).pc u ≠ .blocked ∧
      ((s.notifyAll.goto t .unlock).pc u = .wait → s.pc u = .wait) := by
    intro u
    show Function.update s.notifyAll.pc t .unlock u ≠ .blocked ∧
      (Function.update s.notifyAll.pc t .unlock u = .wait → s.pc u = .wait)
    by_cases hut : u = t
    · subst hut
      simp
    · rw [Function.update_of_ne hut]
      show (if s.pc u = .blocked then Pc.woken else s.pc u) ≠ .blocked ∧
        ((if s.pc u = .blocked then Pc.woken else s.pc u) = .wait → s.pc u = .wait)
      split_ifs with hu
      · simp
      · exact ⟨hu, id⟩
  exact ⟨h.full, fun hle u hu hwait => h.not_wait hle u hu ((hpc u).2 hwait),
    fun _ u _ hb => absurd hb (hpc u).1⟩

/-- **The decrement**: when the last of the first calls arrives, the others do not have the
mutex. -/
theorem Sound.freed_decrement (hS : Sound parties s) (hpc : s.pc t = .decrement)
    (htimely : parties ≤ s.arrived → ∀ u, ¬ s.Early parties u) {p : BitVec 32} :
    Freed parties ({ s with
      parties := p
      rank := Function.update s.rank t (some s.arrived)
      arrived := s.arrived + 1 }.goto t .test) := by
  have hin : (s.pc t).inside = true := by rw [hpc]; rfl
  -- after a further call none of the first ones is left
  have harrived : ∀ u, parties ≤ s.arrived + 1 →
      (∃ k < parties, Function.update s.rank t (some s.arrived) u = some k) →
      s.arrived + 1 = parties ∧ (u = t ∨ s.Early parties u) := by
    intro u hle hu
    obtain ⟨k, hk, hku⟩ := hu
    by_cases hut : u = t
    · subst hut
      rw [Function.update_self] at hku
      cases hku
      exact ⟨by omega, Or.inl rfl⟩
    · rw [Function.update_of_ne hut] at hku
      refine ⟨?_, Or.inr ⟨k, hk, hku⟩⟩
      by_contra hne
      exact htimely (by omega) u ⟨k, hk, hku⟩
  refine ⟨fun hle u hu => (harrived u hle hu).1, fun hle u hu => ?_, fun hle u hu hb => ?_⟩
  · -- a thread about to wait would have the mutex, which `t` has
    show Function.update s.pc t .test u ≠ .wait
    by_cases hut : u = t
    · subst hut
      rw [Function.update_self]
      decide
    · rw [Function.update_of_ne hut]
      intro hwait
      have halone := hS.mutex.alone hin hut
      rw [hwait] at halone
      cases halone
  · refine ⟨t, ?_, Or.inl (Function.update_self _ _ _)⟩
    show Function.update s.rank t (some s.arrived) t = some (parties - 1)
    rw [Function.update_self, ← (harrived u hle hu).1, Nat.add_sub_cancel]

theorem Freed.advance (h : Freed parties s) (hS : Sound parties s) (hpos : 0 < parties)
    (htimely : Timely parties s (.step t)) (hst : s.advance t = some s') : Freed parties s' := by
  -- the first calls find the counter at zero
  have hzero : parties ≤ s.arrived → s.Early parties t → s.parties = 0 := fun hle ht =>
    hS.parties_eq_zero (h.full hle t ht)
  unfold State.advance at hst
  cases hpc : s.pc t with
  | idle | blocked => simp [hpc] at hst
  | lock | woken | assertion =>
    simp only [hpc, Option.ite_none_right_eq_some, Option.some.injEq] at hst
    obtain ⟨-, rfl⟩ := hst
    exact h.move rfl rfl rfl (by simp [hpc]) fun _ _ => by decide
  | decrement =>
    simp only [hpc, Option.some.injEq] at hst
    subst hst
    exact hS.freed_decrement hpc (htimely hpc)
  | test =>
    simp only [hpc] at hst
    split at hst
    case isTrue =>
      cases hst
      refine h.change rfl rfl (fun _ _ => rfl) id (fun _ _ => by decide) fun _ hlast => ?_
      exact ⟨hlast.rank, Or.inr (Function.update_self _ _ _)⟩
    case isFalse hne =>
      cases hst
      -- the last one finds zero, so it does not get here
      refine h.change rfl rfl (fun _ _ => rfl) id (fun _ _ => by decide) fun hle hlast => ?_
      exact absurd (hzero hle (hlast.early hpos)) hne
  | notify =>
    simp only [hpc, Option.some.injEq] at hst
    subst hst
    exact h.notify
  | check =>
    simp only [hpc] at hst
    split at hst
    case isTrue =>
      cases hst
      exact h.move rfl rfl rfl (by simp [hpc]) fun _ _ => by decide
    case isFalse hne =>
      cases hst
      exact h.move rfl rfl rfl (by simp [hpc]) fun hle ht => absurd (hzero hle ht) hne
  | wait =>
    simp only [hpc, Option.some.injEq] at hst
    subst hst
    exact h.move rfl rfl rfl (by simp [hpc]) fun hle ht => absurd hpc (h.not_wait hle t ht)
  | unlock =>
    simp only [hpc, Option.some.injEq] at hst
    subst hst
    -- whoever returns is none of the first calls any more
    have hgone : ¬ ∃ k < parties, Function.update s.rank t none t = some k := by simp
    refine h.change rfl rfl (fun u hu => Function.update_of_ne hu _ _) (fun hearly => ?_)
      (fun _ _ => by decide) fun _ hlast => ?_
    · exact absurd hearly hgone
    · rcases hlast.pc with hl | hl
      · rw [hpc] at hl
        cases hl
      · rw [hpc] at hl
        cases hl

theorem Freed.step (h : Freed parties s) (hS : Sound parties s) (hpos : 0 < parties) {a : Action τ}
    (htimely : Timely parties s a) (hst : s.step a = some s') : Freed parties s' := by
  cases a with
  | call t | spurious t =>
    simp only [State.step, Option.ite_none_right_eq_some, Option.some.injEq] at hst
    obtain ⟨hpc, rfl⟩ := hst
    exact h.move rfl rfl rfl (by simp [hpc]) fun _ _ => by decide
  | step t => exact h.advance hS hpos htimely hst

theorem Freed.init : Freed parties (barrier τ parties).init where
  full _ _ ht := by obtain ⟨k, -, hk⟩ := ht; cases hk
  not_wait _ _ _ hw := by cases hw
  blocked _ _ _ hb := by cases hb

theorem Freed.reach (hpos : 0 < parties) (hlt : parties < 2 ^ 32)
    (hs : (barrier τ parties).Reach (Timely parties) s) : Sound parties s ∧ Freed parties s := by
  refine hs.invariant (I := fun s => Sound parties s ∧ Freed parties s)
    ⟨Sound.init hlt, Freed.init⟩ ?_
  intro s a s' h ha hst
  exact ⟨h.1.step hst, h.2.step h.1 hpos ha hst⟩

/-! ## The results -/

/-- **`Barrier` releases everyone once full and no one earlier.** In every run, nobody returns
before `parties` calls have decremented the counter. In every run in which no call decrements
after these while one of them has yet to return, each of them that has not returned is from then
on running or woken, with the counter at zero, or still blocked while the last of them, which has
the mutex, has yet to notify it. -/
theorem released (hpos : 0 < parties) (hlt : parties < 2 ^ 32) :
    (∀ s, (barrier τ parties).Reachable s → 0 < s.returned → parties ≤ s.arrived) ∧
      ∀ s, (barrier τ parties).Reach (Timely parties) s → parties ≤ s.arrived →
        ∀ t, s.Early parties t → s.parties = 0 ∧
          ((s.pc t).running = true ∨ s.pc t = .woken ∨
            s.pc t = .blocked ∧ ∃ u, s.holder = some u ∧ s.rank u = some (parties - 1) ∧
              (s.pc u = .test ∨ s.pc u = .notify)) := by
  constructor
  · intro s hs hret
    refine Nat.le_of_not_lt fun hlt' => ?_
    have hnone := ((Sound.reach hlt hs).nobody hlt').1
    omega
  · intro s hs hle t ht
    obtain ⟨hS, hF⟩ := Freed.reach hpos hlt hs
    refine ⟨hS.parties_eq_zero (hF.full hle t ht), ?_⟩
    have hcounted : (s.pc t).counted = true := by
      obtain ⟨k, -, hk⟩ := ht
      exact hS.counted t (by rw [hk]; rfl)
    cases hpc : s.pc t with
    | idle | lock | decrement =>
      rw [hpc] at hcounted
      cases hcounted
    | test | notify | check | assertion | unlock => exact Or.inl rfl
    | woken => exact Or.inr (Or.inl rfl)
    | wait => exact absurd hpc (hF.not_wait hle t ht)
    | blocked =>
      obtain ⟨u, hu⟩ := hF.blocked hle t ht hpc
      -- whoever has yet to notify the thread has the mutex
      have hin : (s.pc u).inside = true := by
        rcases hu.pc with hpu | hpu
        · rw [hpu]; rfl
        · rw [hpu]; rfl
      exact Or.inr (Or.inr ⟨rfl, u, hS.mutex u hin, hu.rank, hu.pc⟩)

instance {n : ℕ} (s : State (Fin n)) : ∀ a, Decidable (Timely parties s a)
  | .call _ | .spurious _ => inferInstanceAs (Decidable True)
  | .step t => inferInstanceAs (Decidable (s.pc t = .decrement → parties ≤ s.arrived →
      ∀ u, ¬ ∃ k < parties, s.rank u = some k))

/-- Thread `t` blocks, and thread `u` decrements the counter to zero. -/
def fill (t u : τ) : List (Action τ) :=
  .call t :: List.replicate 5 (.step t) ++ .call u :: List.replicate 2 (.step u)

/-- Thread `u` notifies and returns; `v` calls `await` in turn, and then `t` wakes up. -/
def trap (t u v : τ) : List (Action τ) :=
  List.replicate 3 (.step u) ++ .call v :: List.replicate 5 (.step v) ++ List.replicate 3 (.step t)

/-- Before the notification, the blocked thread of a timely run is not released yet; and a third
call takes the counter to `2 ^ 32 - 1`, so that the woken thread blocks again. -/
theorem not_released :
    (∃ s, (barrier (Fin 3) 2).Reach (Timely 2) s ∧ ¬ s.Released 2) ∧
      ∃ s, (barrier (Fin 3) 2).Reachable s ∧ s.returned = 1 ∧ s.parties = -1 ∧
        s.Early 2 0 ∧ s.pc 0 = .blocked ∧ ¬ s.Released 2 := by
  have hfill := (barrier (Fin 3) 2).reach_of_run (Timely 2) (fill 0 1) rfl
  have htrap := (barrier (Fin 3) 2).reach_of_run (fun _ _ => True) (fill 0 1 ++ trap 0 1 2)
    rfl
  refine ⟨⟨_, hfill, fun h => ?_⟩, _, htrap, rfl, by decide, ⟨0, by decide, rfl⟩, rfl, fun h => ?_⟩
  · have hzero := h (by decide) 0 ⟨0, by decide, rfl⟩
    revert hzero
    decide
  · have hzero := h (by decide) 0 ⟨0, by decide, rfl⟩
    revert hzero
    decide

/-- In the first of these runs, thread `0` is blocked and thread `1` about to notify it. -/
theorem released_two :
    (∀ s, (barrier (Fin 3) 2).Reachable s → 0 < s.returned → 2 ≤ s.arrived) ∧
      ∃ s, (barrier (Fin 3) 2).Reach (Timely 2) s ∧ 2 ≤ s.arrived ∧ s.parties = 0 := by
  have hfill := (barrier (Fin 3) 2).reach_of_run (Timely 2) (fill 0 1) rfl
  obtain ⟨hzero, -⟩ :=
    (released (by decide) (by decide)).2 _ hfill (by decide) 0 ⟨0, by decide, rfl⟩
  exact ⟨(released (by decide) (by decide)).1, _, hfill, by decide, hzero⟩

end Barrier

end Naesala
